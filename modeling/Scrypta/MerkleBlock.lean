import Scrypta.CheckBlock
import Scrypta.Undo
import Scrypta.Toolkit.MerkleTree
import Scrypta.Toolkit.PackedBits

/-! Merkle trees of blocks. A partial Merkle tree tells a peer which transactions of a block
matched its filter; its bits and hashes are an encoding of a tree of which the branches without
a match are cut off. -/

namespace Scrypta

/-! The tree of a block, level by level. -/

section Levels

variable (Hash : Uint256 → Uint256 → Uint256)

/-- One round of the inner loop of `BuildMerkleTree`, for `i = 2 * k`. -/
def pushPair (j nSize : ℕ) (s : List Uint256 × Bool) (k : ℕ) : List Uint256 × Bool :=
  let i := 2 * k
  let i2 := min (i + 1) (nSize - 1)
  let a := s.1.getD (j + i) 0
  let b := s.1.getD (j + i2) 0
  (s.1 ++ [Hash a b], s.2 || (i2 == i + 1 && i2 + 1 == nSize && a == b))

/-- The outer loop; a level of `nSize` hashes starts at place `j`. -/
def buildLevels : ℕ → List Uint256 × Bool → ℕ → ℕ → List Uint256 × Bool
  | 0, s, _, _ => s
  | fuel + 1, s, j, nSize =>
    if 1 < nSize then
      buildLevels fuel ((List.range ((nSize + 1) / 2)).foldl (pushPair Hash j nSize) s) (j + nSize)
        ((nSize + 1) / 2)
    else s

/-- `vMerkleTree`, and whether two equal hashes stood at the end of a level. -/
def buildMerkleTree (vTxid : List Uint256) : List Uint256 × Bool :=
  buildLevels Hash vTxid.length (vTxid, false) 0 vTxid.length

def merkleRoot (vTxid : List Uint256) : Uint256 := (buildMerkleTree Hash vTxid).1.getLastD 0

def CBlock.buildMerkleTree (block : CBlock) : Uint256 × Bool :=
  (merkleRoot Hash (block.vtx.map CTransaction.getHash),
    (Scrypta.buildMerkleTree Hash (block.vtx.map CTransaction.getHash)).2)

end Levels

structure CPartialMerkleTree where
  nTransactions : ℕ := 0
  vBits : List Bool := []
  vHash : List Uint256 := []
  fBad : Bool := true
  deriving DecidableEq, Repr

namespace CPartialMerkleTree

open MerkleTree

/-- How far `TraverseAndExtract` has come. The pairs that were hashed are kept for what is said
of them. -/
structure Cursor where
  nBitsUsed : ℕ := 0
  nHashUsed : ℕ := 0
  vMatch : List Uint256 := []
  fBad : Bool := false
  hashed : List (Uint256 × Uint256) := []
  deriving DecidableEq, Repr

section Model

variable (Hash : Uint256 → Uint256 → Uint256)

/-- The hash at place `pos` of the height over the transactions. -/
def calcHash (vTxid : List Uint256) : ℕ → ℕ → Uint256
  | 0, pos => vTxid.getD pos 0
  | height + 1, pos =>
    let left := calcHash vTxid height (pos * 2)
    let right :=
      if pos * 2 + 1 < width vTxid.length height then calcHash vTxid height (pos * 2 + 1) else left
    Hash left right

/-- The node is the parent of a matched transaction. -/
def parentOfMatch (vTxid : List Uint256) (vMatch : List Bool) (height pos : ℕ) : Bool :=
  (List.range' (pos <<< height) (2 ^ height)).any fun p =>
    decide (p < vTxid.length) && vMatch.getD p false

def traverseAndBuild (vTxid : List Uint256) (vMatch : List Bool) :
    ℕ → ℕ → CPartialMerkleTree → CPartialMerkleTree
  | 0, pos, tree =>
    { tree with
      vBits := tree.vBits ++ [parentOfMatch vTxid vMatch 0 pos]
      vHash := tree.vHash ++ [calcHash Hash vTxid 0 pos] }
  | height + 1, pos, tree =>
    let fParentOfMatch := parentOfMatch vTxid vMatch (height + 1) pos
    let tree := { tree with vBits := tree.vBits ++ [fParentOfMatch] }
    if fParentOfMatch then
      let tree := traverseAndBuild vTxid vMatch height (pos * 2) tree
      if pos * 2 + 1 < width vTxid.length height then
        traverseAndBuild vTxid vMatch height (pos * 2 + 1) tree
      else tree
    else { tree with vHash := tree.vHash ++ [calcHash Hash vTxid (height + 1) pos] }

/-- The loop that raises `nHeight` while a level has more than one node. -/
def treeHeight (nTransactions : ℕ) : ℕ := heightFrom nTransactions nTransactions 0

/-- The tree that keeps the way to each matched transaction. -/
def build (vTxid : List Uint256) (vMatch : List Bool) : CPartialMerkleTree :=
  traverseAndBuild Hash vTxid vMatch (treeHeight vTxid.length) 0
    { nTransactions := vTxid.length, fBad := false }

/-- The next bit, or failure when there is none; nothing if a bit past the end were read. -/
def nextBit (tree : CPartialMerkleTree) (c : Cursor)
    (next : Bool → Cursor → Option (Uint256 × Cursor)) : Option (Uint256 × Cursor) :=
  if tree.vBits.length ≤ c.nBitsUsed then some (0, { c with fBad := true })
  else
    match tree.vBits[c.nBitsUsed]? with
    | none => none
    | some bit => next bit { c with nBitsUsed := c.nBitsUsed + 1 }

/-- The next stored hash, which is that of a matched transaction or not. -/
def nextHash (tree : CPartialMerkleTree) (fMatched : Bool) (c : Cursor) :
    Option (Uint256 × Cursor) :=
  if tree.vHash.length ≤ c.nHashUsed then some (0, { c with fBad := true })
  else
    match tree.vHash[c.nHashUsed]? with
    | none => none
    | some hash => some (hash,
        { c with nHashUsed := c.nHashUsed + 1
                 vMatch := if fMatched then c.vMatch ++ [hash] else c.vMatch })

def combine (left right : Uint256) (c : Cursor) : Uint256 × Cursor :=
  (Hash left right, { c with hashed := c.hashed ++ [(left, right)] })

def traverseAndExtract (tree : CPartialMerkleTree) : ℕ → ℕ → Cursor → Option (Uint256 × Cursor)
  | 0, _, c => tree.nextBit c fun fParentOfMatch c => tree.nextHash fParentOfMatch c
  | height + 1, pos, c => tree.nextBit c fun fParentOfMatch c =>
    if fParentOfMatch then
      match traverseAndExtract tree height (pos * 2) c with
      | none => none
      | some (left, c) =>
        if pos * 2 + 1 < width tree.nTransactions height then
          match traverseAndExtract tree height (pos * 2 + 1) c with
          | none => none
          | some (right, c) => some (combine Hash left right c)
        else some (combine Hash left left c)
    else tree.nextHash false c

/-- The root, 0 in case of failure, and where the traversal ended. -/
def extractMatches (tree : CPartialMerkleTree) : Option (Uint256 × Cursor) :=
  if tree.nTransactions = 0 then some (0, {})
  else if maxBlockSize / 60 < tree.nTransactions then some (0, {})
  else if tree.nTransactions < tree.vHash.length then some (0, {})
  else if tree.vBits.length < tree.vHash.length then some (0, {})
  else
    match traverseAndExtract Hash tree (treeHeight tree.nTransactions) 0 { fBad := tree.fBad } with
    | none => none
    | some (hashMerkleRoot, c) =>
      if c.fBad then some (0, c)
      else if (c.nBitsUsed + 7) / 8 ≠ (tree.vBits.length + 7) / 8 then some (0, c)
      else if c.nHashUsed ≠ tree.vHash.length then some (0, c)
      else some (hashMerkleRoot, c)

end Model

/-! The serialized form. -/

def writeUint256 (hash : Uint256) : List UInt8 := LittleEndian.encode 32 hash.toNat

def readUint256 (bs : List UInt8) : Option (Uint256 × List UInt8) :=
  if bs.length < 32 then none
  else some (BitVec.ofNat 256 (LittleEndian.decode (bs.take 32)), bs.drop 32)

def readByte : List UInt8 → Option (UInt8 × List UInt8)
  | [] => none
  | b :: bs => some (b, bs)

def write (tree : CPartialMerkleTree) : List UInt8 :=
  LittleEndian.encode 4 tree.nTransactions ++ CompactSize.writeVector writeUint256 tree.vHash ++
    CompactSize.writeVector (fun b => [b]) (PackedBits.pack tree.vBits)

def read (bs : List UInt8) : Option (CPartialMerkleTree × List UInt8) :=
  if bs.length < 4 then none
  else
    match CompactSize.readVector Undo.maxSize readUint256 (bs.drop 4) with
    | none => none
    | some (vHash, bs') =>
      match CompactSize.readVector Undo.maxSize readByte bs' with
      | none => none
      | some (vBytes, bs') =>
        some ({ nTransactions := LittleEndian.decode (bs.take 4), vBits := PackedBits.unpack vBytes,
                vHash := vHash, fBad := false }, bs')

/-! Both sides speak of partial trees. -/

section Spec

variable {Hash : Uint256 → Uint256 → Uint256} {vTxid : List Uint256} {vMatch : List Bool}
  {tree : CPartialMerkleTree} {t : Partial Uint256} {height pos : ℕ} {c c' : Cursor}
  {hash : Uint256}

theorem calcHash_eq (vTxid : List Uint256) (height pos : ℕ) :
    calcHash Hash vTxid height pos = nodeHash Hash (vTxid.getD · 0) vTxid.length height pos := by
  induction height generalizing pos with
  | zero => rfl
  | succ height ih => simp only [calcHash, nodeHash, ih, Nat.mul_comm pos 2]

theorem parentOfMatch_eq (vTxid : List Uint256) (vMatch : List Bool) (height pos : ℕ) :
    parentOfMatch vTxid vMatch height pos =
      anyMarked (vMatch.getD · false) vTxid.length height pos := by
  rw [parentOfMatch, anyMarked, Nat.shiftLeft_eq]

/-- The partial tree that `build` writes. -/
def pruned (Hash : Uint256 → Uint256 → Uint256) (vTxid : List Uint256) (vMatch : List Bool)
    (height pos : ℕ) : Partial Uint256 :=
  prune Hash (vTxid.getD · 0) (vMatch.getD · false) vTxid.length height pos

theorem traverseAndBuild_eq (height pos : ℕ) (tree : CPartialMerkleTree) :
    traverseAndBuild Hash vTxid vMatch height pos tree =
      { tree with
        vBits := tree.vBits ++ (pruned Hash vTxid vMatch height pos).bits
        vHash := tree.vHash ++ (pruned Hash vTxid vMatch height pos).hashes } := by
  induction height generalizing pos tree with
  | zero =>
    simp only [traverseAndBuild, parentOfMatch_eq, calcHash_eq]
    rfl
  | succ height ih =>
    simp only [traverseAndBuild, parentOfMatch_eq, calcHash_eq, ih, Nat.mul_comm pos 2, pruned,
      prune]
    cases anyMarked (vMatch.getD · false) vTxid.length (height + 1) pos with
    | false => rfl
    | true =>
      simp only [if_true]
      split
      · simp only [Partial.bits, Partial.hashes, List.append_assoc, List.cons_append,
          List.nil_append]
      · simp only [Partial.bits, Partial.hashes, List.append_assoc, List.cons_append,
          List.nil_append]

/-- The streams ahead of the cursor start with those of the partial tree. -/
def Ahead (tree : CPartialMerkleTree) (c : Cursor) (t : Partial Uint256) : Prop :=
  t.bits <+: tree.vBits.drop c.nBitsUsed ∧ t.hashes <+: tree.vHash.drop c.nHashUsed

def Cursor.advance (Hash : Uint256 → Uint256 → Uint256) (c : Cursor) (t : Partial Uint256) :
    Cursor :=
  { c with
    nBitsUsed := c.nBitsUsed + t.bits.length
    nHashUsed := c.nHashUsed + t.hashes.length
    vMatch := c.vMatch ++ t.marks
    hashed := c.hashed ++ t.pairs Hash }

theorem drop_eq_of_prefix_cons {α : Type*} {l : List α} {n : ℕ} {a : α} {as : List α}
    (h : a :: as <+: l.drop n) : l[n]? = some a ∧ n < l.length ∧ as <+: l.drop (n + 1) := by
  have hlt : n < l.length := by
    by_contra hle
    rw [List.drop_eq_nil_of_le (by omega)] at h
    exact absurd (List.prefix_nil.mp h) (List.cons_ne_nil a as)
  rw [List.drop_eq_getElem_cons hlt] at h
  obtain ⟨heq, hrest⟩ := List.cons_prefix_cons.mp h
  exact ⟨by rw [List.getElem?_eq_getElem hlt, ← heq], hlt, hrest⟩

theorem cons_prefix_drop {α : Type*} {l : List α} {n : ℕ} {a : α} {as : List α}
    (ha : l[n]? = some a) (h : as <+: l.drop (n + 1)) : a :: as <+: l.drop n := by
  obtain ⟨hlt, rfl⟩ := List.getElem?_eq_some_iff.mp ha
  rw [List.drop_eq_getElem_cons hlt]
  exact List.cons_prefix_cons.mpr ⟨rfl, h⟩

theorem prefix_drop_append {α : Type*} {l : List α} {n : ℕ} {as bs : List α}
    (h : as ++ bs <+: l.drop n) : as <+: l.drop n ∧ bs <+: l.drop (n + as.length) := by
  obtain ⟨cs, hcs⟩ := h
  refine ⟨⟨bs ++ cs, by rw [← List.append_assoc, hcs]⟩, ⟨cs, ?_⟩⟩
  rw [← List.drop_drop, ← hcs, List.append_assoc, List.drop_left]

theorem append_prefix_drop {α : Type*} {l : List α} {n : ℕ} {as bs : List α}
    (has : as <+: l.drop n) (hbs : bs <+: l.drop (n + as.length)) : as ++ bs <+: l.drop n := by
  obtain ⟨cs, hcs⟩ := has
  rw [← List.drop_drop, ← hcs, List.drop_left] at hbs
  obtain ⟨ds, rfl⟩ := hbs
  exact ⟨ds, by rw [List.append_assoc, hcs]⟩

theorem nextBit_of_prefixed {bit : Bool} {bits : List Bool}
    (h : bit :: bits <+: tree.vBits.drop c.nBitsUsed)
    (next : Bool → Cursor → Option (Uint256 × Cursor)) :
    tree.nextBit c next = next bit { c with nBitsUsed := c.nBitsUsed + 1 } := by
  obtain ⟨hget, hlt, -⟩ := drop_eq_of_prefix_cons h
  rw [nextBit, if_neg (by omega), hget]

theorem nextHash_of_prefixed {hashes : List Uint256}
    (h : hash :: hashes <+: tree.vHash.drop c.nHashUsed) (fMatched : Bool) :
    tree.nextHash fMatched c = some (hash,
      { c with nHashUsed := c.nHashUsed + 1
               vMatch := if fMatched then c.vMatch ++ [hash] else c.vMatch }) := by
  obtain ⟨hget, hlt, -⟩ := drop_eq_of_prefix_cons h
  rw [nextHash, if_neg (by omega), hget]

/-- A partial tree whose streams lie ahead is read back. -/
theorem traverseAndExtract_of_ahead (Hash : Uint256 → Uint256 → Uint256)
    (ht : t.Fits tree.nTransactions height pos)
    (hahead : Ahead tree c t) :
    traverseAndExtract Hash tree height pos c = some (t.root Hash, c.advance Hash t) := by
  induction height generalizing pos t c with
  | zero =>
    cases t with
    | leaf marked hash =>
      rw [traverseAndExtract, nextBit_of_prefixed hahead.1]
      rw [nextHash_of_prefixed (c := { c with nBitsUsed := c.nBitsUsed + 1 }) hahead.2]
      cases marked <;> simp [Cursor.advance, Partial.root, Partial.bits, Partial.hashes,
        Partial.marks, Partial.pairs]
    | stub hash => exact ht.elim
    | only left => exact ht.elim
    | both left right => exact ht.elim
  | succ height ih =>
    cases t with
    | leaf marked hash => exact ht.elim
    | stub hash =>
      rw [traverseAndExtract, nextBit_of_prefixed hahead.1]
      simp only [Bool.false_eq_true, if_false]
      rw [nextHash_of_prefixed (c := { c with nBitsUsed := c.nBitsUsed + 1 }) hahead.2]
      simp [Cursor.advance, Partial.root, Partial.bits, Partial.hashes, Partial.marks,
        Partial.pairs]
    | only left =>
      obtain ⟨hend, hfits⟩ := ht
      have hbits := (drop_eq_of_prefix_cons hahead.1).2.2
      have hleft := ih (c := { c with nBitsUsed := c.nBitsUsed + 1 }) hfits ⟨hbits, hahead.2⟩
      rw [traverseAndExtract, nextBit_of_prefixed hahead.1]
      simp only [if_true, Nat.mul_comm pos 2, hleft, if_neg hend]
      simp [combine, Cursor.advance, Partial.root, Partial.bits, Partial.hashes, Partial.marks,
        Partial.pairs]
      omega
    | both left right =>
      obtain ⟨hright, hfitsl, hfitsr⟩ := ht
      obtain ⟨hbitsl, hbitsr⟩ := prefix_drop_append (drop_eq_of_prefix_cons hahead.1).2.2
      obtain ⟨hhashesl, hhashesr⟩ := prefix_drop_append hahead.2
      have hl := ih (c := { c with nBitsUsed := c.nBitsUsed + 1 }) hfitsl ⟨hbitsl, hhashesl⟩
      have hr := ih (c := Cursor.advance Hash { c with nBitsUsed := c.nBitsUsed + 1 } left) hfitsr
        ⟨hbitsr, hhashesr⟩
      rw [traverseAndExtract, nextBit_of_prefixed hahead.1]
      simp only [if_true, Nat.mul_comm pos 2, hl, if_pos hright, hr]
      simp [combine, Cursor.advance, Partial.root, Partial.bits, Partial.hashes, Partial.marks,
        Partial.pairs]
      omega

/-- What a traversal from the cursor comes to: it ends without a read past either stream, and
unless it failed it has read a partial tree. -/
structure Traverses (Hash : Uint256 → Uint256 → Uint256) (tree : CPartialMerkleTree)
    (height pos : ℕ) (c : Cursor) (r : Option (Uint256 × Cursor)) : Prop where
  total : ∃ hash c', r = some (hash, c') ∧ (c.fBad = true → c'.fBad = true)
  reads : ∀ hash c', r = some (hash, c') → c'.fBad = false →
    ∃ t, t.Fits tree.nTransactions height pos ∧ Ahead tree c t

theorem nextHash_total (tree : CPartialMerkleTree) (fMatched : Bool) (c : Cursor) :
    ∃ hash c', tree.nextHash fMatched c = some (hash, c') ∧ (c.fBad = true → c'.fBad = true) := by
  unfold nextHash
  split
  · exact ⟨_, _, rfl, fun _ => rfl⟩
  · next hlt =>
    rw [List.getElem?_eq_getElem (by omega)]
    exact ⟨_, _, rfl, id⟩

theorem nextHash_reads {fMatched : Bool} (h : tree.nextHash fMatched c = some (hash, c'))
    (hc' : c'.fBad = false) : [hash] <+: tree.vHash.drop c.nHashUsed := by
  unfold nextHash at h
  split at h
  · cases h
    cases hc'
  · next hlt =>
    obtain ⟨hash', hget⟩ : ∃ hash', tree.vHash[c.nHashUsed]? = some hash' :=
      ⟨_, List.getElem?_eq_getElem (by omega)⟩
    rw [hget] at h
    obtain ⟨rfl, -⟩ := Prod.mk.inj (Option.some.inj h)
    exact cons_prefix_drop hget List.nil_prefix

theorem Traverses.nextBit {next : Bool → Cursor → Option (Uint256 × Cursor)}
    (h : ∀ bit, tree.vBits[c.nBitsUsed]? = some bit →
      Traverses Hash tree height pos c (next bit { c with nBitsUsed := c.nBitsUsed + 1 })) :
    Traverses Hash tree height pos c (tree.nextBit c next) := by
  unfold CPartialMerkleTree.nextBit
  split
  · refine ⟨⟨_, _, rfl, fun _ => rfl⟩, fun hash c' heq hc' => ?_⟩
    cases heq
    cases hc'
  · next hlt =>
    obtain ⟨bit, hget⟩ : ∃ bit, tree.vBits[c.nBitsUsed]? = some bit :=
      ⟨_, List.getElem?_eq_getElem (by omega)⟩
    rw [hget]
    exact h bit hget

theorem traverseAndExtract_spec (Hash : Uint256 → Uint256 → Uint256)
    (tree : CPartialMerkleTree) (height pos : ℕ) (c : Cursor) :
    Traverses Hash tree height pos c (traverseAndExtract Hash tree height pos c) := by
  induction height generalizing pos c with
  | zero =>
    refine Traverses.nextBit fun bit hbit => ⟨nextHash_total tree bit _, fun hash c' heq hc' => ?_⟩
    have hhash := nextHash_reads heq hc'
    exact ⟨.leaf bit hash, trivial, cons_prefix_drop hbit List.nil_prefix, hhash⟩
  | succ height ih =>
    refine Traverses.nextBit fun bit hbit => ?_
    cases bit with
    | false =>
      refine ⟨nextHash_total tree false _, fun hash c' heq hc' => ?_⟩
      have hstored : tree.nextHash false { c with nBitsUsed := c.nBitsUsed + 1 } =
        some (hash, c') := heq
      have hhash := nextHash_reads hstored hc'
      exact ⟨.stub hash, trivial, cons_prefix_drop hbit List.nil_prefix, hhash⟩
    | true =>
      have hl := ih (pos * 2) { c with nBitsUsed := c.nBitsUsed + 1 }
      obtain ⟨left, cl, hleft, hbadl⟩ := hl.total
      simp only [if_true, hleft]
      -- where the left branch has not failed, the right one starts behind the tree it read
      have hreadl : cl.fBad = false → ∃ t, t.Fits tree.nTransactions height (2 * pos) ∧
          Ahead tree { c with nBitsUsed := c.nBitsUsed + 1 } t ∧
          cl = Cursor.advance Hash { c with nBitsUsed := c.nBitsUsed + 1 } t := by
        intro hgood
        obtain ⟨t, hfits, hahead⟩ := hl.reads left cl hleft hgood
        have hread := traverseAndExtract_of_ahead Hash hfits hahead
        rw [hleft] at hread
        exact ⟨t, Nat.mul_comm pos 2 ▸ hfits, hahead, (Prod.mk.inj (Option.some.inj hread)).2⟩
      by_cases hright : pos * 2 + 1 < width tree.nTransactions height
      · have hr := ih (pos * 2 + 1) cl
        obtain ⟨right, cr, hrun, hbadr⟩ := hr.total
        rw [if_pos hright, hrun]
        refine ⟨⟨_, _, rfl, fun hbad => hbadr (hbadl hbad)⟩, fun hash c' heq hc' => ?_⟩
        cases heq
        have hgood : cl.fBad = false := by
          cases hcl : cl.fBad with
          | false => rfl
          | true => exact absurd ((hbadr hcl).symm.trans hc') (by decide)
        obtain ⟨tl, hfitsl, ⟨hbitsl, hhashesl⟩, rfl⟩ := hreadl hgood
        obtain ⟨tr, hfitsr, hbitsr, hhashesr⟩ := hr.reads right cr hrun hc'
        rw [Nat.mul_comm] at hright hfitsr
        exact ⟨.both tl tr, ⟨hright, hfitsl, hfitsr⟩,
          cons_prefix_drop hbit (append_prefix_drop hbitsl hbitsr),
          append_prefix_drop hhashesl hhashesr⟩
      · rw [if_neg hright]
        refine ⟨⟨_, _, rfl, hbadl⟩, fun hash c' heq hc' => ?_⟩
        cases heq
        obtain ⟨tl, hfitsl, ⟨hbitsl, hhashesl⟩, -⟩ := hreadl hc'
        rw [Nat.mul_comm] at hright
        exact ⟨.only tl, ⟨hright, hfitsl⟩, cons_prefix_drop hbit hbitsl, hhashesl⟩

/-- The tree is an encoding of a partial tree, with no more padding than whole bytes need. -/
structure Encodes (tree : CPartialMerkleTree) (t : Partial Uint256) : Prop where
  fits : t.Fits tree.nTransactions (treeHeight tree.nTransactions) 0
  bits : t.bits <+: tree.vBits
  bytes : (t.bits.length + 7) / 8 = (tree.vBits.length + 7) / 8
  hashes : tree.vHash = t.hashes

/-- A peer has sent what a builder could have: the encoding of a partial tree over as many
transactions as a block may have. -/
def WellFormed (tree : CPartialMerkleTree) : Prop :=
  tree.fBad = false ∧ 0 < tree.nTransactions ∧ tree.nTransactions ≤ maxBlockSize / 60 ∧
    ∃ t, tree.Encodes t

theorem width_treeHeight (n : ℕ) : width n (treeHeight n) ≤ 1 :=
  width_heightFrom (by simpa using Nat.lt_two_pow_self.le)

theorem le_two_pow_treeHeight (n : ℕ) : n ≤ 2 ^ treeHeight n := by
  by_contra hlt
  have hone : 1 < width n (treeHeight n) := lt_width.mpr (by omega)
  have := width_treeHeight n
  omega

theorem Encodes.ahead (h : tree.Encodes t) (c : Cursor) (hc : c.nBitsUsed = 0 ∧ c.nHashUsed = 0) :
    Ahead tree c t := by
  rw [Ahead, hc.1, hc.2, List.drop_zero, List.drop_zero]
  exact ⟨h.bits, h.hashes ▸ List.prefix_rfl⟩

theorem extractMatches_of_encodes (Hash : Uint256 → Uint256 → Uint256)
    (hbad : tree.fBad = false) (hpos : 0 < tree.nTransactions)
    (hmax : tree.nTransactions ≤ maxBlockSize / 60) (h : tree.Encodes t) :
    ∃ c, extractMatches Hash tree = some (t.root Hash, c) ∧ c.vMatch = t.marks ∧
      c.hashed = t.pairs Hash := by
  have hhashes : tree.vHash.length ≤ tree.nTransactions := by
    have hle := Partial.length_hashes_le h.fits (width_pos hpos _)
    rw [h.hashes]
    omega
  have hbits : tree.vHash.length ≤ tree.vBits.length :=
    h.hashes ▸ (Partial.length_hashes_le_bits t).trans h.bits.length_le
  have hread := traverseAndExtract_of_ahead Hash h.fits
    (h.ahead { fBad := tree.fBad } ⟨rfl, rfl⟩)
  have hbytes := h.bytes
  refine ⟨Cursor.advance Hash { fBad := tree.fBad } t, ?_, by simp [Cursor.advance],
    by simp [Cursor.advance]⟩
  rw [extractMatches, if_neg (by omega), if_neg (by omega), if_neg (by omega), if_neg (by omega),
    hread]
  simp [Cursor.advance, hbad, h.hashes, hbytes]

/-- Extracting ends without a read past the streams, and returns 0 for a tree that is not well
formed. -/
theorem extractMatches_total (Hash : Uint256 → Uint256 → Uint256) (tree : CPartialMerkleTree) :
    ∃ root c, extractMatches Hash tree = some (root, c) ∧ (¬ tree.WellFormed → root = 0) := by
  unfold extractMatches
  split
  · exact ⟨_, _, rfl, fun _ => rfl⟩
  split
  · exact ⟨_, _, rfl, fun _ => rfl⟩
  split
  · exact ⟨_, _, rfl, fun _ => rfl⟩
  split
  · exact ⟨_, _, rfl, fun _ => rfl⟩
  next hzero hmax _ _ =>
  have hspec := traverseAndExtract_spec Hash tree (treeHeight tree.nTransactions) 0
    { fBad := tree.fBad }
  obtain ⟨root, c, hrun, hbad⟩ := hspec.total
  rw [hrun]
  simp only
  split
  · exact ⟨_, _, rfl, fun _ => rfl⟩
  split
  · exact ⟨_, _, rfl, fun _ => rfl⟩
  split
  · exact ⟨_, _, rfl, fun _ => rfl⟩
  next hgood hbytes hhashes =>
  refine ⟨root, c, rfl, fun hmalformed => absurd ?_ hmalformed⟩
  have hgood : c.fBad = false := Bool.eq_false_iff.mpr hgood
  obtain ⟨t, hfits, hahead⟩ := hspec.reads root c hrun hgood
  have hread := traverseAndExtract_of_ahead Hash hfits hahead
  rw [hrun] at hread
  obtain ⟨-, rfl⟩ := Prod.mk.inj (Option.some.inj hread)
  simp only [Cursor.advance, Nat.zero_add, ne_eq, not_not] at hbytes hhashes
  refine ⟨hgood, by omega, by omega, t, hfits, hahead.1, hbytes, ?_⟩
  exact (hahead.2.eq_of_length hhashes).symm

end Spec

/-! The root of a block is the hash of its topmost node. -/

section Root

variable {Hash : Uint256 → Uint256 → Uint256} {leaf : ℕ → Uint256} {n : ℕ}

/-- The last hashes of `vMerkleTree`, from place `j` on, are those of the nodes at a height. -/
structure LevelAt (Hash : Uint256 → Uint256 → Uint256) (leaf : ℕ → Uint256) (n height : ℕ)
    (vMerkleTree : List Uint256) (j nSize : ℕ) : Prop where
  length : vMerkleTree.length = j + nSize
  size : nSize = width n height
  nodes : ∀ pos < nSize, vMerkleTree.getD (j + pos) 0 = nodeHash Hash leaf n height pos

theorem foldl_pushPair {vMerkleTree : List Uint256} {j nSize : ℕ}
    (hlength : vMerkleTree.length = j + nSize) (mutated : Bool) {m : ℕ} (hm : 2 * m ≤ nSize + 1) :
    ((List.range m).foldl (pushPair Hash j nSize) (vMerkleTree, mutated)).1 =
      vMerkleTree ++ (List.range m).map fun k =>
        Hash (vMerkleTree.getD (j + 2 * k) 0)
          (vMerkleTree.getD (j + min (2 * k + 1) (nSize - 1)) 0) := by
  induction m with
  | zero => simp
  | succ m ih =>
    have hold : ∀ (l : List Uint256) (i : ℕ), i < nSize →
        (vMerkleTree ++ l).getD (j + i) 0 = vMerkleTree.getD (j + i) 0 := fun l i hi => by
      rw [List.getD_eq_getElem?_getD, List.getElem?_append_left (by omega),
        List.getD_eq_getElem?_getD]
    rw [List.range_succ, List.foldl_append, List.map_append, List.foldl_cons, List.foldl_nil,
      pushPair]
    simp only
    rw [ih (by omega), hold _ _ (by omega), hold _ _ (by omega), List.append_assoc]
    rfl

theorem LevelAt.next {height j nSize : ℕ} {vMerkleTree : List Uint256} (mutated : Bool)
    (h : LevelAt Hash leaf n height vMerkleTree j nSize) :
    LevelAt Hash leaf n (height + 1)
      ((List.range ((nSize + 1) / 2)).foldl (pushPair Hash j nSize) (vMerkleTree, mutated)).1
      (j + nSize) ((nSize + 1) / 2) := by
  have hlength := h.length
  rw [foldl_pushPair hlength mutated (by omega)]
  refine ⟨by simp [hlength], by rw [width_succ, ← h.size], fun pos hpos => ?_⟩
  rw [List.getD_eq_getElem?_getD, List.getElem?_append_right (by omega), List.getElem?_map,
    show j + nSize + pos - vMerkleTree.length = pos by omega, List.getElem?_range hpos,
    Option.map_some, Option.getD_some, h.nodes (2 * pos) (by omega), nodeHash, ← h.size]
  congr 1
  split
  · next hright => rw [show min (2 * pos + 1) (nSize - 1) = 2 * pos + 1 by omega, h.nodes _ hright]
  · next hend => rw [show min (2 * pos + 1) (nSize - 1) = 2 * pos by omega, h.nodes _ (by omega)]

theorem LevelAt.last {height j nSize : ℕ} {vMerkleTree : List Uint256}
    (h : LevelAt Hash leaf n height vMerkleTree j nSize) (hn : 0 < n) (hone : nSize ≤ 1) :
    vMerkleTree.getLastD 0 = nodeHash Hash leaf n height 0 := by
  have hsize : nSize = 1 := by
    have := width_pos hn height
    have := h.size
    omega
  have hlength := h.length
  rw [List.getLastD_eq_getLast?, List.getLast?_eq_getElem?,
    show vMerkleTree.length - 1 = j + 0 by omega, ← h.nodes 0 (by omega),
    List.getD_eq_getElem?_getD]

theorem buildLevels_last (hn : 0 < n) {fuel height j nSize : ℕ} {s : List Uint256 × Bool}
    (h : LevelAt Hash leaf n height s.1 j nSize) (hfuel : n ≤ 2 ^ (height + fuel)) :
    (buildLevels Hash fuel s j nSize).1.getLastD 0 =
      nodeHash Hash leaf n (heightFrom n fuel height) 0 := by
  induction fuel generalizing height j nSize s with
  | zero => exact h.last hn (h.size ▸ width_le_one hfuel)
  | succ fuel ih =>
    rw [buildLevels, heightFrom, ← h.size]
    split
    · exact ih (h.next s.2) (by rwa [Nat.add_right_comm, Nat.add_assoc])
    · next hone => exact h.last hn (by omega)

theorem merkleRoot_eq {vTxid : List Uint256} (h : vTxid ≠ []) :
    merkleRoot Hash vTxid =
      nodeHash Hash (vTxid.getD · 0) vTxid.length (treeHeight vTxid.length) 0 := by
  refine buildLevels_last (List.length_pos_iff.mpr h) ⟨by simp, by simp, fun pos _ => ?_⟩ ?_
  · rw [Nat.zero_add]
    rfl
  · simpa using Nat.lt_two_pow_self.le

end Root

/-! What partial Merkle trees prove. -/

section Main

variable {Hash : Uint256 → Uint256 → Uint256} {vTxid : List Uint256} {vMatch : List Bool}
  {tree : CPartialMerkleTree}

/-- The transactions that match, in the order of the block. -/
def matchedIds (vTxid : List Uint256) (vMatch : List Bool) : List Uint256 :=
  ((vTxid.zip vMatch).filter Prod.snd).map Prod.fst

theorem markedUnder_root (hlen : vMatch.length = vTxid.length) {height : ℕ}
    (hheight : vTxid.length ≤ 2 ^ height) :
    markedUnder (vTxid.getD · 0) (vMatch.getD · false) vTxid.length height 0 =
      matchedIds vTxid vMatch := by
  have hzip : vTxid.zip vMatch =
      (List.range vTxid.length).map fun p => (vTxid.getD p 0, vMatch.getD p false) := by
    refine List.ext_getElem (by simp [hlen]) fun p hp _ => ?_
    have hid : p < vTxid.length := by simpa [hlen] using hp
    have hmatch : p < vMatch.length := hlen ▸ hid
    simp [List.getD_eq_getElem?_getD, List.getElem?_eq_getElem hid,
      List.getElem?_eq_getElem hmatch]
  have hsplit : List.range' 0 (2 ^ height) =
      List.range vTxid.length ++ List.range' vTxid.length (2 ^ height - vTxid.length) := by
    have happend := List.range'_append_1 (s := 0) (m := vTxid.length)
      (n := 2 ^ height - vTxid.length)
    rw [Nat.zero_add, Nat.add_sub_cancel' hheight] at happend
    rw [List.range_eq_range', happend]
  have hbeyond : (List.range' vTxid.length (2 ^ height - vTxid.length)).filter
      (fun p => decide (p < vTxid.length) && vMatch.getD p false) = [] := by
    refine List.filter_eq_nil_iff.mpr fun p hp => ?_
    have hle := (List.mem_range'_1.mp hp).1
    simp [Nat.not_lt.mpr hle]
  have hwithin : (List.range vTxid.length).filter
      (fun p => decide (p < vTxid.length) && vMatch.getD p false) =
        (List.range vTxid.length).filter (vMatch.getD · false) :=
    List.filter_congr fun p hp => by simp [List.mem_range.mp hp]
  rw [markedUnder, Nat.zero_mul, hsplit, List.filter_append, hbeyond, hwithin, List.append_nil,
    matchedIds, hzip, List.filter_map, List.map_map]
  rfl

theorem build_eq (vTxid : List Uint256) (vMatch : List Bool) :
    build Hash vTxid vMatch =
      { nTransactions := vTxid.length
        vBits := (pruned Hash vTxid vMatch (treeHeight vTxid.length) 0).bits
        vHash := (pruned Hash vTxid vMatch (treeHeight vTxid.length) 0).hashes
        fBad := false } := by
  rw [build, traverseAndBuild_eq]
  simp only [List.nil_append]

theorem extractMatches_of_pruned (hne : vTxid ≠ []) (hmax : vTxid.length ≤ maxBlockSize / 60)
    (hlen : vMatch.length = vTxid.length) (hn : tree.nTransactions = vTxid.length)
    (hbad : tree.fBad = false)
    (h : tree.Encodes (pruned Hash vTxid vMatch (treeHeight vTxid.length) 0)) :
    ∃ c, extractMatches Hash tree = some (merkleRoot Hash vTxid, c) ∧
      c.vMatch = matchedIds vTxid vMatch := by
  have hpos : 0 < vTxid.length := List.length_pos_iff.mpr hne
  obtain ⟨c, hextract, hmarks, -⟩ := extractMatches_of_encodes Hash hbad (by omega) (by omega) h
  refine ⟨c, ?_, ?_⟩
  · rw [hextract, pruned, root_prune, merkleRoot_eq hne]
  · rw [hmarks, pruned, marks_prune (width_pos hpos _),
      markedUnder_root hlen (le_two_pow_treeHeight vTxid.length)]

theorem readUint256_write (hash : Uint256) (bs : List UInt8) :
    readUint256 (writeUint256 hash ++ bs) = some (hash, bs) := by
  have hlen : (writeUint256 hash).length = 32 := LittleEndian.length_encode _ _
  have hlt : hash.toNat < 256 ^ 32 := hash.isLt
  rw [readUint256, if_neg (by rw [List.length_append]; omega), List.take_left' hlen,
    List.drop_left' hlen, writeUint256, LittleEndian.decode_encode_of_lt hlt, BitVec.ofNat_toNat,
    BitVec.setWidth_eq]

/-- What a peer reads: the bits are padded to whole bytes. -/
def received (tree : CPartialMerkleTree) : CPartialMerkleTree :=
  { tree with
    vBits := tree.vBits ++
      List.replicate ((tree.vBits.length + 7) / 8 * 8 - tree.vBits.length) false
    fBad := false }

theorem read_write (hn : tree.nTransactions < 2 ^ 32) (hhashes : tree.vHash.length ≤ Undo.maxSize)
    (hbits : (tree.vBits.length + 7) / 8 ≤ Undo.maxSize) (bs : List UInt8) :
    read (write tree ++ bs) = some (tree.received, bs) := by
  have hmax : Undo.maxSize < 2 ^ 64 := by decide
  have hlen : (LittleEndian.encode 4 tree.nTransactions).length = 4 :=
    LittleEndian.length_encode _ _
  have hpack : (PackedBits.pack tree.vBits).length = (tree.vBits.length + 7) / 8 :=
    PackedBits.length_pack tree.vBits
  rw [write, List.append_assoc, List.append_assoc, read,
    if_neg (by rw [List.length_append]; omega),
    List.take_left' hlen, List.drop_left' hlen, LittleEndian.decode_encode_of_lt hn,
    CompactSize.readVector_write (f := id) hhashes (by omega) fun hash _ => readUint256_write hash]
  simp only
  rw [CompactSize.readVector_write (f := id) (by omega) (by omega) fun _ _ _ => rfl]
  simp only [List.map_id, PackedBits.unpack_pack, received]

theorem build_encodes (Hash : Uint256 → Uint256 → Uint256) (vTxid : List Uint256)
    (vMatch : List Bool) :
    (build Hash vTxid vMatch).Encodes (pruned Hash vTxid vMatch (treeHeight vTxid.length) 0) := by
  rw [build_eq]
  exact ⟨prune_fits _ _, List.prefix_rfl, rfl, rfl⟩

theorem Encodes.received {t : Partial Uint256} (h : tree.Encodes t) : tree.received.Encodes t := by
  refine ⟨h.fits, h.bits.trans (List.prefix_append _ _), ?_, h.hashes⟩
  rw [CPartialMerkleTree.received, List.length_append, List.length_replicate, h.bytes]
  omega

/-- The pairs that are hashed for the root of a block. -/
def blockPairs (Hash : Uint256 → Uint256 → Uint256) (vTxid : List Uint256) :
    List (Uint256 × Uint256) :=
  nodePairs Hash (vTxid.getD · 0) vTxid.length (treeHeight vTxid.length) 0

def CollisionFree (Hash : Uint256 → Uint256 → Uint256) (hashed : List (Uint256 × Uint256)) :
    Prop :=
  ∀ p ∈ hashed, ∀ q ∈ hashed, Hash p.1 p.2 = Hash q.1 q.2 → p = q

/-- The tree built for a block gives its root and the matched transactions, also after it has been
sent; where the hash has no collision among the pairs in play, every tree over as many
transactions that gives the root of a block, and not just the 0 of a failure, reports transactions
of that block only; and extracting always ends without reading past the streams, with 0 for a tree
that is not well formed. -/
theorem partial_trees_prove_matches (Hash : Uint256 → Uint256 → Uint256) :
    (∀ vTxid vMatch, vTxid ≠ [] → vTxid.length ≤ maxBlockSize / 60 →
      vMatch.length = vTxid.length →
      (∃ c, extractMatches Hash (build Hash vTxid vMatch) = some (merkleRoot Hash vTxid, c) ∧
        c.vMatch = matchedIds vTxid vMatch) ∧
      ∀ bs, ∃ tree, read (write (build Hash vTxid vMatch) ++ bs) = some (tree, bs) ∧
        ∃ c, extractMatches Hash tree = some (merkleRoot Hash vTxid, c) ∧
          c.vMatch = matchedIds vTxid vMatch) ∧
    (∀ vTxid tree c, vTxid ≠ [] → tree.nTransactions = vTxid.length →
      extractMatches Hash tree = some (merkleRoot Hash vTxid, c) →
      merkleRoot Hash vTxid ≠ 0 ∨ tree.WellFormed →
      CollisionFree Hash (c.hashed ++ blockPairs Hash vTxid) → ∀ id ∈ c.vMatch, id ∈ vTxid) ∧
    ∀ tree, ∃ root c, extractMatches Hash tree = some (root, c) ∧
      (¬ tree.WellFormed → root = 0) := by
  refine ⟨fun vTxid vMatch hne hmax hlen => ?_, fun vTxid tree c hne hn hextract hroot hfree => ?_,
    extractMatches_total Hash⟩
  · have hencodes := build_encodes Hash vTxid vMatch
    have hn : (build Hash vTxid vMatch).nTransactions = vTxid.length := by rw [build_eq]
    have hbad : (build Hash vTxid vMatch).fBad = false := by rw [build_eq]
    refine ⟨extractMatches_of_pruned hne hmax hlen hn hbad hencodes, fun bs => ?_⟩
    have hheight : treeHeight vTxid.length ≤ 15 :=
      heightFrom_le (hmax.trans (by decide)) (Nat.zero_le _) _
    have hpow : 2 ^ (treeHeight vTxid.length + 1) ≤ 2 ^ 16 :=
      Nat.pow_le_pow_right (by decide) (by omega)
    have hbits := Partial.length_bits_lt hencodes.fits
    have hhashes :=
      Partial.length_hashes_le_bits (pruned Hash vTxid vMatch (treeHeight vTxid.length) 0)
    have hmaxSize : Undo.maxSize = 0x02000000 := rfl
    have hmaxBlock : maxBlockSize / 60 = 16666 := rfl
    rw [hn] at hbits
    refine ⟨_, read_write ?_ ?_ ?_ bs,
      extractMatches_of_pruned hne hmax hlen hn rfl hencodes.received⟩
    · rw [hn]
      omega
    · rw [build_eq]
      simp only
      omega
    · rw [build_eq]
      simp only
      omega
  · obtain ⟨root, c', htotal, hmalformed⟩ := extractMatches_total Hash tree
    obtain ⟨rfl, rfl⟩ := Prod.mk.inj (Option.some.inj (hextract.symm.trans htotal))
    obtain ⟨hbad, hpos, hmax, t, hencodes⟩ : tree.WellFormed :=
      hroot.elim (fun hne => not_not.mp (mt hmalformed hne)) id
    obtain ⟨c', hread, hmarks, hpairs⟩ :=
      extractMatches_of_encodes Hash hbad hpos hmax hencodes
    obtain ⟨hteq, rfl⟩ := Prod.mk.inj (Option.some.inj (hextract.symm.trans hread))
    have hfits := hencodes.fits
    rw [hn] at hfits
    intro id hid
    obtain ⟨i, hi, rfl⟩ := Partial.marks_of_root_eq hfits
      (width_pos (List.length_pos_iff.mpr hne) _)
      (fun p hp q hq => hfree p (List.mem_append_left _ (hpairs ▸ hp)) q
        (List.mem_append_right _ hq))
      (hteq.symm.trans (merkleRoot_eq hne)) id (hmarks ▸ hid)
    rw [List.getD_eq_getElem?_getD, List.getElem?_eq_getElem hi]
    exact List.getElem_mem hi

/-- Where the root of a block is 0, a tree that fails to be read gives that root, with what it had
matched before it failed. -/
theorem failed_tree_gives_zero_root :
    let tree : CPartialMerkleTree :=
      { nTransactions := 1, vBits := true :: List.replicate 15 false, vHash := [5], fBad := false }
    let Hash : Uint256 → Uint256 → Uint256 := fun left right => left + 2 * right
    ∃ c, extractMatches Hash tree = some (merkleRoot Hash [0], c) ∧
      CollisionFree Hash (c.hashed ++ blockPairs Hash [0]) ∧ 5 ∈ c.vMatch ∧
      (5 : Uint256) ∉ [0] := by
  refine ⟨⟨1, 1, [5], false, []⟩, by decide, ?_, by decide, by decide⟩
  exact nofun

end Main

end CPartialMerkleTree

end Scrypta
