import Scrypta.ScriptParse
import Scrypta.Solver
import Scrypta.Toolkit.Binary64
import Scrypta.Toolkit.LittleEndian
import Scrypta.Toolkit.PackedBits
import Scrypta.Toolkit.Runs
import Mathlib.Data.PNat.Basic

/-! Bloom filters. A peer loads a filter into the node, adds keys to it, and gets the transactions
that are relevant to it; a matched output is added to the filter, so that the transaction that
spends it is relevant as well. -/

namespace Scrypta.Bloom

open Script Runs

def maxBloomFilterSize : ℕ := 36000
def maxHashFuncs : ℕ := 50

def bloomUpdateAll : UInt8 := 1
def bloomUpdateP2PubkeyOnly : UInt8 := 2
def bloomUpdateMask : UInt8 := 3

section Murmur

def rotl32 (x : BitVec 32) (r : ℕ) : BitVec 32 := (x <<< r) ||| (x >>> (32 - r))

def mixKey (k1 : BitVec 32) : BitVec 32 := rotl32 (k1 * 0xcc9e2d51) 15 * 0x1b873593

/-- The blocks of four bytes, the least significant first, then up to three bytes. -/
def murmurBody : BitVec 32 → Bytes → BitVec 32
  | h1, a :: b :: c :: d :: rest =>
    let k1 := mixKey (BitVec.ofNat 32 (LittleEndian.decode [a, b, c, d]))
    murmurBody (rotl32 (h1 ^^^ k1) 13 * 5 + 0xe6546b64) rest
  | h1, [] => h1
  | h1, tail => h1 ^^^ mixKey (BitVec.ofNat 32 (LittleEndian.decode tail))

def murmurHash3 (nHashSeed : BitVec 32) (vDataToHash : Bytes) : BitVec 32 :=
  let h1 := murmurBody nHashSeed vDataToHash ^^^ BitVec.ofNat 32 vDataToHash.length
  let h1 := (h1 ^^^ (h1 >>> 16)) * 0x85ebca6b
  let h1 := (h1 ^^^ (h1 >>> 13)) * 0xc2b2ae35
  h1 ^^^ (h1 >>> 16)

end Murmur

structure CBloomFilter where
  vData : Bytes
  isFull : Bool
  isEmpty : Bool
  nHashFuncs : ℕ
  nTweak : BitVec 32
  nFlags : UInt8
  deriving DecidableEq, Repr

/-- `LN2` as it is stored. -/
def ln2 : ℚ :=
  Binary64.literal 6931471805599453094172321214581765680755001343602552 (10 ^ 52)

/-- A key as it is hashed. -/
def keyOfHash (hash : Uint256) : Bytes := LittleEndian.encode 32 hash.toNat

def keyOfOutPoint (outpoint : COutPoint) : Bytes :=
  keyOfHash outpoint.hash ++ LittleEndian.encode 4 outpoint.n.toNat

namespace CBloomFilter

/-- The constructor. `nIdealBits` is what the conversion of `-1 / LN2SQUARED * nElements *
log(nFPRate)` to an unsigned integer gives. -/
def create (nIdealBits : ℕ) (nElements : ℕ+) (nTweak : BitVec 32) (nFlags : UInt8) :
    CBloomFilter :=
  let size := min nIdealBits (maxBloomFilterSize * 8) / 8
  let nFuncs := Binary64.truncate (Binary64.mul (Binary64.ofInt (size * 8 / nElements : ℕ)) ln2)
  { vData := List.replicate size 0
    isFull := false
    isEmpty := false
    nHashFuncs := min nFuncs.toNat maxHashFuncs
    nTweak := nTweak
    nFlags := nFlags }

/-- Checks for empty and full filters. -/
def updateEmptyFull (f : CBloomFilter) : CBloomFilter :=
  { f with isFull := f.vData.all (· == 0xff), isEmpty := f.vData.all (· == 0) }

/-- A filter read from the network: the default constructor, the four members of the message, and
`UpdateEmptyFull`. -/
def received (vData : Bytes) (nHashFuncs : ℕ) (nTweak : BitVec 32) (nFlags : UInt8) :
    CBloomFilter :=
  updateEmptyFull
    { vData := vData
      isFull := true
      isEmpty := false
      nHashFuncs := nHashFuncs
      nTweak := nTweak
      nFlags := nFlags }

/-- `none` is the division by zero. -/
def hash (f : CBloomFilter) (nHashNum : ℕ) (vDataToHash : Bytes) : Option ℕ :=
  if f.vData.length * 8 = 0 then none
  else
    let seed := BitVec.ofNat 32 nHashNum * 0xFBA4C795 + f.nTweak
    some ((murmurHash3 seed vDataToHash).toNat % (f.vData.length * 8))

def insert (f : CBloomFilter) (vKey : Bytes) : Option CBloomFilter :=
  if f.isFull then some f
  else do
    let vData ← (List.range f.nHashFuncs).foldlM (fun vData i => do
      let nIndex ← f.hash i vKey
      return PackedBits.orBit vData nIndex true) f.vData
    return { f with vData := vData, isEmpty := false }

def contains (f : CBloomFilter) (vKey : Bytes) : Option Bool :=
  if f.isFull then some true
  else if f.isEmpty then some false
  else (List.range f.nHashFuncs).allM fun i => do
    let nIndex ← f.hash i vKey
    return PackedBits.getBit f.vData nIndex

/-- Some operation of the script pushes data that the filter contains. -/
def containsPush (f : CBloomFilter) (script : CScript) : Option Bool :=
  (operations script).anyM fun op =>
    if op.data.length ≠ 0 then f.contains op.data else some false

/-- The flags ask for the outpoint of a matched output. -/
def addsOutPoint (f : CBloomFilter) (scriptPubKey : CScript) : Bool :=
  if f.nFlags &&& bloomUpdateMask = bloomUpdateAll then true
  else if f.nFlags &&& bloomUpdateMask = bloomUpdateP2PubkeyOnly then
    let solved := solver scriptPubKey []
    solved.ok && (solved.whichType == .pubkey || solved.whichType == .multisig)
  else false

def addOutPoint (f : CBloomFilter) (scriptPubKey : CScript) (outpoint : COutPoint) :
    Option CBloomFilter :=
  if f.addsOutPoint scriptPubKey then f.insert (keyOfOutPoint outpoint) else some f

/-- What the loop over the outputs leaves behind. `matched` notes the outputs that matched. -/
structure Search where
  filter : CBloomFilter
  fFound : Bool
  matched : List COutPoint := []

def searchOutputs (hash : Uint256) : List CTxOut → ℕ → Search → Option Search
  | [], _, s => some s
  | txout :: vout, i, s => do
    if ← s.filter.containsPush txout.scriptPubKey then
      let outpoint : COutPoint := ⟨hash, BitVec.ofNat 32 i⟩
      let filter ← s.filter.addOutPoint txout.scriptPubKey outpoint
      searchOutputs hash vout (i + 1) ⟨filter, true, s.matched ++ [outpoint]⟩
    else searchOutputs hash vout (i + 1) s

def matchesInput (f : CBloomFilter) (txin : CTxIn) : Option Bool := do
  if ← f.contains (keyOfOutPoint txin.prevout) then return true
  else f.containsPush txin.scriptSig

def outPoints (tx : CTransaction) : List COutPoint :=
  (List.range tx.vout.length).map fun i => ⟨tx.getHash, BitVec.ofNat 32 i⟩

/-- A full filter matches every output. -/
def isRelevantAndUpdate (f : CBloomFilter) (tx : CTransaction) : Option Search :=
  if f.isFull then some ⟨f, true, outPoints tx⟩
  else if f.isEmpty then some ⟨f, false, []⟩
  else do
    let fFound ← f.contains (keyOfHash tx.getHash)
    let s ← searchOutputs tx.getHash tx.vout 0 ⟨f, fFound, []⟩
    if s.fFound then return s
    else
      let found ← tx.vin.anyM s.filter.matchesInput
      return { s with fFound := found }

end CBloomFilter

/-- Where a filter comes from. -/
inductive Source
  | constructed (nIdealBits : ℕ) (nElements : ℕ+) (nTweak : BitVec 32) (nFlags : UInt8)
  | network (vData : Bytes) (nHashFuncs : ℕ) (nTweak : BitVec 32) (nFlags : UInt8)

def Source.filter : Source → CBloomFilter
  | constructed nIdealBits nElements nTweak nFlags => .create nIdealBits nElements nTweak nFlags
  | network vData nHashFuncs nTweak nFlags => .received vData nHashFuncs nTweak nFlags

inductive Event
  | insert (vKey : Bytes)
  | contains (vKey : Bytes)
  | isRelevantAndUpdate (tx : CTransaction)
  | updateEmptyFull

/-- The filter, the keys inserted into it, and the outputs that it matched under
`BLOOM_UPDATE_ALL`. -/
structure State where
  filter : CBloomFilter
  inserted : List Bytes := []
  matched : List COutPoint := []

def State.step (s : State) : Event → Option State
  | .insert vKey => do
    let filter ← s.filter.insert vKey
    return { s with filter := filter, inserted := s.inserted ++ [vKey] }
  | .contains vKey => do
    let _ ← s.filter.contains vKey
    return s
  | .isRelevantAndUpdate tx => do
    let search ← s.filter.isRelevantAndUpdate tx
    let matched :=
      if s.filter.nFlags &&& bloomUpdateMask = bloomUpdateAll then search.matched else []
    return { s with filter := search.filter, matched := s.matched ++ matched }
  | .updateEmptyFull => some { s with filter := s.filter.updateEmptyFull }

/-- A run ends where a hash is reduced modulo zero. -/
def step (s : Option State) (e : Event) : Option State := s.bind (·.step e)

section Loops

variable {α β : Type*}

theorem anyM_eq_any {p : α → Option Bool} {q : α → Bool} {l : List α}
    (h : ∀ a ∈ l, p a = some (q a)) : l.anyM p = some (l.any q) := by
  induction l with
  | nil => rfl
  | cons a l ih =>
    rw [List.anyM_cons, h a List.mem_cons_self, ih fun b hb => h b (List.mem_cons_of_mem a hb),
      List.any_cons]
    cases q a <;> rfl

theorem allM_eq_all {p : α → Option Bool} {q : α → Bool} {l : List α}
    (h : ∀ a ∈ l, p a = some (q a)) : l.allM p = some (l.all q) := by
  induction l with
  | nil => rfl
  | cons a l ih =>
    rw [List.allM_cons, h a List.mem_cons_self, ih fun b hb => h b (List.mem_cons_of_mem a hb),
      List.all_cons]
    cases q a <;> rfl

theorem foldlM_eq_foldl {f : β → α → Option β} {g : β → α → β} {l : List α} {b : β}
    (h : ∀ a ∈ l, ∀ b, f b a = some (g b a)) : l.foldlM f b = some (l.foldl g b) := by
  induction l generalizing b with
  | nil => rfl
  | cons a l ih =>
    rw [List.foldlM_cons, h a List.mem_cons_self, Option.bind_eq_bind, Option.bind_some,
      ih fun c hc => h c (List.mem_cons_of_mem a hc), List.foldl_cons]

end Loops

namespace CBloomFilter

/-- A loop over the hash functions never divides by zero. -/
def Sane (f : CBloomFilter) : Prop := f.isFull = true ∨ f.nHashFuncs = 0 ∨ f.vData ≠ []

/-- The bit of a key under one of the hash functions. -/
def index (f : CBloomFilter) (vKey : Bytes) (i : ℕ) : ℕ :=
  (murmurHash3 (BitVec.ofNat 32 i * 0xFBA4C795 + f.nTweak) vKey).toNat % (f.vData.length * 8)

def setBits (f : CBloomFilter) (vKey : Bytes) : Bytes :=
  (List.range f.nHashFuncs).foldl (fun vData i => PackedBits.orBit vData (f.index vKey i) true)
    f.vData

def has (f : CBloomFilter) (vKey : Bytes) : Bool :=
  f.isFull || (!f.isEmpty &&
    (List.range f.nHashFuncs).all fun i => PackedBits.getBit f.vData (f.index vKey i))

def hasPush (f : CBloomFilter) (script : CScript) : Bool :=
  (operations script).any fun op => decide (op.data.length ≠ 0) && f.has op.data

variable {f : CBloomFilter}

theorem length_ne_zero (hs : f.Sane) (hfull : f.isFull = false) {i : ℕ}
    (hi : i < f.nHashFuncs) : f.vData.length ≠ 0 := by
  intro hlen
  rcases hs with h | h | h
  · rw [hfull] at h
    exact Bool.noConfusion h
  · omega
  · exact h (List.eq_nil_of_length_eq_zero hlen)

theorem hash_eq {i : ℕ} (hlen : f.vData.length ≠ 0) (vKey : Bytes) :
    f.hash i vKey = some (f.index vKey i) := by
  unfold hash index
  rw [if_neg (by omega)]

theorem contains_eq (hs : f.Sane) (vKey : Bytes) : f.contains vKey = some (f.has vKey) := by
  unfold contains has
  split
  · rename_i hfull
    rw [hfull]
    rfl
  · rename_i hfull
    rw [Bool.not_eq_true] at hfull
    split
    · rename_i hempty
      rw [hfull, hempty]
      rfl
    · rename_i hempty
      rw [Bool.not_eq_true] at hempty
      rw [hfull, hempty]
      apply allM_eq_all
      intro i hi
      rw [hash_eq (length_ne_zero hs hfull (List.mem_range.1 hi))]
      rfl

theorem insert_eq (hs : f.Sane) (hfull : f.isFull = false) (vKey : Bytes) :
    f.insert vKey = some { f with vData := f.setBits vKey, isEmpty := false } := by
  have hloop : (List.range f.nHashFuncs).foldlM (fun vData i => do
      let nIndex ← f.hash i vKey
      return PackedBits.orBit vData nIndex true) f.vData = some (f.setBits vKey) := by
    apply foldlM_eq_foldl
    intro i hi vData
    rw [hash_eq (length_ne_zero hs hfull (List.mem_range.1 hi))]
    rfl
  unfold insert
  rw [hfull, if_neg Bool.false_ne_true, hloop]
  rfl

theorem containsPush_eq (hs : f.Sane) (script : CScript) :
    f.containsPush script = some (f.hasPush script) := by
  apply anyM_eq_any
  intro op _
  split
  · rename_i hlen
    rw [contains_eq hs, decide_eq_true hlen, Bool.true_and]
  · rename_i hlen
    rw [decide_eq_false hlen, Bool.false_and]

theorem length_orBits (l : List ℕ) (index : ℕ → ℕ) (vData : Bytes) :
    (l.foldl (fun vData i => PackedBits.orBit vData (index i) true) vData).length =
      vData.length := by
  induction l generalizing vData with
  | nil => rfl
  | cons i l ih =>
    rw [List.foldl_cons, ih, PackedBits.orBit, List.length_modify]

theorem getBit_orBits (l : List ℕ) (index : ℕ → ℕ) {vData : Bytes}
    (h : ∀ i ∈ l, index i / 8 < vData.length) (q : ℕ) :
    PackedBits.getBit (l.foldl (fun vData i => PackedBits.orBit vData (index i) true) vData) q =
      true ↔ PackedBits.getBit vData q = true ∨ ∃ i ∈ l, index i = q := by
  induction l generalizing vData with
  | nil => simp
  | cons i l ih =>
    have hi := h i List.mem_cons_self
    have hlen : (PackedBits.orBit vData (index i) true).length = vData.length :=
      List.length_modify ..
    rw [List.foldl_cons, ih (fun j hj => hlen ▸ h j (List.mem_cons_of_mem i hj)),
      PackedBits.getBit_orBit hi, Bool.and_true, Bool.or_eq_true, decide_eq_true_eq, or_assoc,
      List.exists_mem_cons_iff, eq_comm (a := q)]

theorem index_lt (hlen : f.vData.length ≠ 0) (vKey : Bytes) (i : ℕ) :
    f.index vKey i / 8 < f.vData.length := by
  have hlt : f.index vKey i < f.vData.length * 8 := Nat.mod_lt _ (by omega)
  omega

/-- What insertions change: bits are set, and the filter is not taken for empty afterwards. -/
structure Grows (f g : CBloomFilter) : Prop where
  isFull : g.isFull = f.isFull
  isEmpty : g.isEmpty = true → f.isEmpty = true
  nHashFuncs : g.nHashFuncs = f.nHashFuncs
  nTweak : g.nTweak = f.nTweak
  nFlags : g.nFlags = f.nFlags
  length : g.vData.length = f.vData.length
  full : f.isFull = true → g.vData = f.vData
  bits : ∀ q, PackedBits.getBit f.vData q = true → PackedBits.getBit g.vData q = true

theorem Grows.refl (f : CBloomFilter) : Grows f f :=
  ⟨rfl, id, rfl, rfl, rfl, rfl, fun _ => rfl, fun _ h => h⟩

theorem Grows.trans {f g h : CBloomFilter} (hfg : Grows f g) (hgh : Grows g h) : Grows f h where
  isFull := hgh.isFull.trans hfg.isFull
  isEmpty he := hfg.isEmpty (hgh.isEmpty he)
  nHashFuncs := hgh.nHashFuncs.trans hfg.nHashFuncs
  nTweak := hgh.nTweak.trans hfg.nTweak
  nFlags := hgh.nFlags.trans hfg.nFlags
  length := hgh.length.trans hfg.length
  full hf := (hgh.full (hfg.isFull.trans hf)).trans (hfg.full hf)
  bits q hq := hgh.bits q (hfg.bits q hq)

variable {g : CBloomFilter}

theorem Grows.sane (h : Grows f g) (hs : f.Sane) : g.Sane := by
  rcases hs with hs | hs | hs
  · exact Or.inl (h.isFull.trans hs)
  · exact Or.inr (Or.inl (h.nHashFuncs.trans hs))
  · right; right
    intro hnil
    have hlen := h.length
    rw [hnil] at hlen
    exact hs (List.eq_nil_of_length_eq_zero hlen.symm)

theorem Grows.index (h : Grows f g) (vKey : Bytes) (i : ℕ) : g.index vKey i = f.index vKey i := by
  rw [CBloomFilter.index, CBloomFilter.index, h.nTweak, h.length]

theorem has_iff (vKey : Bytes) :
    f.has vKey = true ↔ f.isFull = true ∨ (f.isEmpty = false ∧
      ∀ i < f.nHashFuncs, PackedBits.getBit f.vData (f.index vKey i) = true) := by
  simp [has]

/-- A key that a filter contains is never lost by insertions. -/
theorem Grows.has (h : Grows f g) {vKey : Bytes} (hf : f.has vKey = true) :
    g.has vKey = true := by
  rw [has_iff] at hf ⊢
  cases hf with
  | inl hfull => exact Or.inl (h.isFull.trans hfull)
  | inr hbits =>
    right
    refine ⟨?_, ?_⟩
    · rw [← Bool.not_eq_true]
      intro hempty
      exact Bool.noConfusion (hbits.1.symm.trans (h.isEmpty hempty))
    · intro i hi
      rw [h.index]
      exact h.bits _ (hbits.2 i (h.nHashFuncs ▸ hi))

theorem Grows.hasPush (h : Grows f g) {script : CScript} (hf : f.hasPush script = true) :
    g.hasPush script = true := by
  simp only [CBloomFilter.hasPush, List.any_eq_true, Bool.and_eq_true] at hf ⊢
  obtain ⟨op, hop, hlen, hhas⟩ := hf
  exact ⟨op, hop, hlen, h.has hhas⟩

theorem insert_spec (hs : f.Sane) (vKey : Bytes) :
    ∃ g, f.insert vKey = some g ∧ Grows f g ∧ g.has vKey = true := by
  cases hfull : f.isFull with
  | true =>
    refine ⟨f, ?_, Grows.refl f, (has_iff vKey).2 (Or.inl hfull)⟩
    unfold insert
    rw [if_pos hfull]
  | false =>
    have hindex : ∀ i ∈ List.range f.nHashFuncs, f.index vKey i / 8 < f.vData.length :=
      fun i hi => index_lt (length_ne_zero hs hfull (List.mem_range.1 hi)) vKey i
    have hbits := getBit_orBits (List.range f.nHashFuncs) (f.index vKey) hindex
    have hlength : (f.setBits vKey).length = f.vData.length := length_orBits _ _ _
    have hgrows : Grows f { f with vData := f.setBits vKey, isEmpty := false } :=
      { isFull := rfl
        isEmpty := fun h => Bool.noConfusion h
        nHashFuncs := rfl
        nTweak := rfl
        nFlags := rfl
        length := hlength
        full := fun h => Bool.noConfusion (hfull.symm.trans h)
        bits := fun q hq => (hbits q).2 (Or.inl hq) }
    refine ⟨_, insert_eq hs hfull vKey, hgrows, ?_⟩
    rw [has_iff]
    right
    refine ⟨rfl, fun i hi => ?_⟩
    rw [hgrows.index]
    exact (hbits _).2 (Or.inr ⟨i, List.mem_range.2 hi, rfl⟩)

theorem addOutPoint_spec (hs : f.Sane) (scriptPubKey : CScript) (outpoint : COutPoint) :
    ∃ g, f.addOutPoint scriptPubKey outpoint = some g ∧ Grows f g ∧
      (f.nFlags &&& bloomUpdateMask = bloomUpdateAll → g.has (keyOfOutPoint outpoint) = true) := by
  unfold addOutPoint
  split
  · obtain ⟨g, hg, hgrows, hhas⟩ := insert_spec hs (keyOfOutPoint outpoint)
    exact ⟨g, hg, hgrows, fun _ => hhas⟩
  · rename_i hadds
    refine ⟨f, rfl, Grows.refl f, fun hall => absurd ?_ hadds⟩
    rw [addsOutPoint, if_pos hall]

/-- The loop over the outputs: nothing is lost, an output with a contained push is found, and with
`BLOOM_UPDATE_ALL` the outpoints of matched outputs are contained afterwards. -/
theorem searchOutputs_spec (hash : Uint256) (vout : List CTxOut) (i : ℕ) (s : Search)
    (hs : s.filter.Sane) :
    ∃ r, searchOutputs hash vout i s = some r ∧ Grows s.filter r.filter ∧
      (s.fFound = true → r.fFound = true) ∧
      (∀ txout ∈ vout, s.filter.hasPush txout.scriptPubKey = true → r.fFound = true) ∧
      (s.filter.nFlags &&& bloomUpdateMask = bloomUpdateAll →
        (∀ o ∈ s.matched, s.filter.has (keyOfOutPoint o) = true) →
        ∀ o ∈ r.matched, r.filter.has (keyOfOutPoint o) = true) := by
  induction vout generalizing i s with
  | nil =>
    exact ⟨s, rfl, Grows.refl _, id, fun _ h => absurd h List.not_mem_nil, fun _ h => h⟩
  | cons txout vout ih =>
    unfold searchOutputs
    rw [containsPush_eq hs]
    dsimp only [Option.bind_eq_bind, Option.bind_some]
    split
    · rename_i hpush
      -- the output matches: its outpoint is inserted, or not
      let outpoint : COutPoint := ⟨hash, BitVec.ofNat 32 i⟩
      obtain ⟨g, hg, hgrows, hhas⟩ := addOutPoint_spec hs txout.scriptPubKey outpoint
      obtain ⟨r, hr, hrgrows, hrfound, hrout, hrmatched⟩ :=
        ih (i + 1) ⟨g, true, s.matched ++ [outpoint]⟩ (hgrows.sane hs)
      refine ⟨r, ?_, hgrows.trans hrgrows, fun _ => hrfound rfl, fun _ _ _ => hrfound rfl, ?_⟩
      · rw [hg]
        exact hr
      · intro hall hmatched
        apply hrmatched (hgrows.nFlags.symm ▸ hall)
        intro o ho
        rw [List.mem_append, List.mem_singleton] at ho
        cases ho with
        | inl ho => exact hgrows.has (hmatched o ho)
        | inr ho =>
          rw [ho]
          exact hhas hall
    · rename_i hpush
      obtain ⟨r, hr, hrgrows, hrfound, hrout, hrmatched⟩ := ih (i + 1) s hs
      refine ⟨r, hr, hrgrows, hrfound, ?_, hrmatched⟩
      intro txout' htxout hpush'
      cases List.mem_cons.1 htxout with
      | inl heq => exact absurd (heq ▸ hpush') hpush
      | inr hmem => exact hrout txout' hmem hpush'

theorem matchesInput_eq (hs : f.Sane) (txin : CTxIn) :
    f.matchesInput txin =
      some (f.has (keyOfOutPoint txin.prevout) || f.hasPush txin.scriptSig) := by
  unfold matchesInput
  rw [contains_eq hs, containsPush_eq hs]
  cases f.has (keyOfOutPoint txin.prevout) <;> rfl

/-- The script pushes the key, which is not empty. -/
def Pushes (script : CScript) (vKey : Bytes) : Prop :=
  vKey ≠ [] ∧ ∃ op ∈ operations script, op.data = vKey

/-- The key is the transaction's id, a push of one of its scripts, or an outpoint it spends. -/
def Concerns (vKey : Bytes) (tx : CTransaction) : Prop :=
  vKey = keyOfHash tx.getHash ∨ (∃ txout ∈ tx.vout, Pushes txout.scriptPubKey vKey) ∨
    (∃ txin ∈ tx.vin, Pushes txin.scriptSig vKey) ∨
    ∃ txin ∈ tx.vin, vKey = keyOfOutPoint txin.prevout

theorem hasPush_of_pushes {script : CScript} {vKey : Bytes} (h : Pushes script vKey)
    (hhas : f.has vKey = true) : f.hasPush script = true := by
  obtain ⟨hne, op, hop, hdata⟩ := h
  rw [hasPush, List.any_eq_true]
  refine ⟨op, hop, ?_⟩
  have hlen : op.data.length ≠ 0 := by
    rw [hdata]
    exact fun h => hne (List.eq_nil_of_length_eq_zero h)
  rw [decide_eq_true hlen, Bool.true_and, hdata, hhas]

theorem isEmpty_of_has {vKey : Bytes} (hfull : f.isFull ≠ true) (h : f.has vKey = true) :
    f.isEmpty = false :=
  ((has_iff vKey).1 h).elim (fun hf => absurd hf hfull) And.left

theorem isRelevantAndUpdate_spec (hs : f.Sane) (tx : CTransaction) :
    ∃ r, f.isRelevantAndUpdate tx = some r ∧ Grows f r.filter ∧
      (f.nFlags &&& bloomUpdateMask = bloomUpdateAll →
        ∀ o ∈ r.matched, r.filter.has (keyOfOutPoint o) = true) ∧
      ∀ vKey, f.has vKey = true → Concerns vKey tx → r.fFound = true := by
  unfold isRelevantAndUpdate
  split
  · rename_i hfull
    exact ⟨_, rfl, Grows.refl f, fun _ o _ => (has_iff _).2 (Or.inl hfull), fun _ _ _ => rfl⟩
  · rename_i hfull
    split
    · rename_i hempty
      refine ⟨_, rfl, Grows.refl f, fun _ _ ho => absurd ho List.not_mem_nil, ?_⟩
      intro vKey hhas _
      exact Bool.noConfusion (hempty.symm.trans (isEmpty_of_has hfull hhas))
    · obtain ⟨s, hsearch, hgrows, hid, hout, hmatched⟩ :=
        searchOutputs_spec tx.getHash tx.vout 0 ⟨f, f.has (keyOfHash tx.getHash), []⟩ hs
      have hkept := fun hall => hmatched hall fun o ho => absurd ho List.not_mem_nil
      rw [contains_eq hs]
      dsimp only [Option.bind_eq_bind, Option.bind_some]
      rw [hsearch]
      dsimp only [Option.bind_some]
      split
      · rename_i hfound
        exact ⟨s, rfl, hgrows, hkept, fun _ _ _ => hfound⟩
      · rename_i hfound
        have hinputs : tx.vin.anyM s.filter.matchesInput = some (tx.vin.any fun txin =>
            s.filter.has (keyOfOutPoint txin.prevout) || s.filter.hasPush txin.scriptSig) :=
          anyM_eq_any fun txin _ => matchesInput_eq (hgrows.sane hs) txin
        rw [hinputs]
        refine ⟨_, rfl, hgrows, hkept, ?_⟩
        intro vKey hhas hconcerns
        change List.any _ _ = true
        rw [List.any_eq_true]
        -- neither the id nor an output was found, so an input is
        rcases hconcerns with
          hkey | ⟨txout, hmem, hpush⟩ | ⟨txin, hmem, hpush⟩ | ⟨txin, hmem, hkey⟩
        · exact absurd (hid (hkey ▸ hhas)) hfound
        · exact absurd (hout txout hmem (hasPush_of_pushes hpush hhas)) hfound
        · refine ⟨txin, hmem, ?_⟩
          rw [hgrows.hasPush (hasPush_of_pushes hpush hhas), Bool.or_true]
        · refine ⟨txin, hmem, ?_⟩
          rw [← hkey, hgrows.has hhas, Bool.true_or]

/-- `UpdateEmptyFull` takes the filter for empty although it contains every key. -/
def Vacuous (f : CBloomFilter) : Prop :=
  f.nHashFuncs = 0 ∧ f.vData ≠ [] ∧ ∀ byte ∈ f.vData, byte = 0

instance (f : CBloomFilter) : Decidable f.Vacuous :=
  inferInstanceAs (Decidable (f.nHashFuncs = 0 ∧ f.vData ≠ [] ∧ ∀ byte ∈ f.vData, byte = 0))

theorem updateEmptyFull_isFull :
    f.updateEmptyFull.isFull = true ↔ ∀ byte ∈ f.vData, byte = 0xff := by
  simp [updateEmptyFull]

theorem updateEmptyFull_isEmpty :
    f.updateEmptyFull.isEmpty = true ↔ ∀ byte ∈ f.vData, byte = 0 := by
  simp [updateEmptyFull]

theorem getBit_of_zero (h : ∀ byte ∈ f.vData, byte = 0) (q : ℕ) :
    PackedBits.getBit f.vData q = false := by
  have hbyte : f.vData.getD (q / 8) 0 = 0 := by
    rw [List.getD_eq_getElem?_getD]
    cases hget : f.vData[q / 8]? with
    | none => rfl
    | some byte => exact h byte (List.mem_of_getElem? hget)
  rw [PackedBits.getBit_eq, hbyte]
  exact Nat.zero_testBit _

theorem updateEmptyFull_sane : f.updateEmptyFull.Sane := by
  cases hdata : f.vData with
  | nil =>
    left
    rw [updateEmptyFull_isFull, hdata]
    exact fun byte h => absurd h List.not_mem_nil
  | cons byte vData =>
    right; right
    change f.vData ≠ []
    rw [hdata]
    exact List.cons_ne_nil byte vData

/-- The cached flags are true to the bits, unless the filter is vacuous. -/
theorem updateEmptyFull_has {vKey : Bytes}
    (hffff : f.isFull = true → ∀ byte ∈ f.vData, byte = 0xff)
    (hv : ¬ f.Vacuous) (h : f.has vKey = true) : f.updateEmptyFull.has vKey = true := by
  rw [has_iff, updateEmptyFull_isFull]
  by_cases hfull : ∀ byte ∈ f.vData, byte = 0xff
  · exact Or.inl hfull
  · right
    have hbits := ((has_iff vKey).1 h).resolve_left fun hf => hfull (hffff hf)
    refine ⟨?_, hbits.2⟩
    rw [← Bool.not_eq_true, updateEmptyFull_isEmpty]
    intro hzero
    apply hv
    refine ⟨?_, ?_, hzero⟩
    · by_contra hfuncs
      have hbit := hbits.2 0 (Nat.pos_of_ne_zero hfuncs)
      rw [getBit_of_zero hzero] at hbit
      exact Bool.noConfusion hbit
    · intro hnil
      rw [hnil] at hfull
      exact hfull fun byte h => absurd h List.not_mem_nil

theorem create_sane (nIdealBits : ℕ) (nElements : ℕ+) (nTweak : BitVec 32) (nFlags : UInt8) :
    (create nIdealBits nElements nTweak nFlags).Sane := by
  cases hsize : min nIdealBits (maxBloomFilterSize * 8) / 8 with
  | zero =>
    right; left
    have hround : Binary64.mul (Binary64.ofInt 0) ln2 = 0 := by
      simp [Binary64.mul, Binary64.ofInt, Binary64.round]
    simp only [create, hsize, Nat.zero_mul, Nat.zero_div, Nat.cast_zero, hround]
    decide
  | succ size =>
    right; right
    change List.replicate (min nIdealBits (maxBloomFilterSize * 8) / 8) (0 : UInt8) ≠ []
    rw [hsize]
    exact List.cons_ne_nil _ _

end CBloomFilter

theorem Source.filter_sane (src : Source) : src.filter.Sane := by
  cases src with
  | constructed => exact CBloomFilter.create_sane _ _ _ _
  | network => exact CBloomFilter.updateEmptyFull_sane

theorem Source.filter_full (src : Source) (h : src.filter.isFull = true) :
    ∀ byte ∈ src.filter.vData, byte = 0xff := by
  cases src with
  | constructed => exact Bool.noConfusion h
  | network => exact CBloomFilter.updateEmptyFull_isFull.1 h

/-- The keys that the filter must contain. -/
def State.keys (s : State) : List Bytes := s.inserted ++ s.matched.map keyOfOutPoint

structure State.Inv (s : State) : Prop where
  sane : s.filter.Sane
  full : s.filter.isFull = true → ∀ byte ∈ s.filter.vData, byte = 0xff
  keys : ∀ vKey ∈ s.keys, s.filter.has vKey = true

/-- `UpdateEmptyFull` is not called on a vacuous filter after an insertion. -/
def Spared (s : Option State) (e : Event) : Prop :=
  match s, e with
  | some s, .updateEmptyFull => s.filter.Vacuous → s.inserted = [] ∧ s.matched = []
  | _, _ => True

def Relevant (f : CBloomFilter) (tx : CTransaction) : Prop :=
  ∃ search, f.isRelevantAndUpdate tx = some search ∧ search.fFound = true

/-- There is no false negative: what was inserted is contained, a transaction that it concerns is
relevant, and so is one that spends an output matched under `BLOOM_UPDATE_ALL`. -/
structure State.NoFalseNegative (s : State) : Prop where
  inserted : ∀ vKey ∈ s.inserted, s.filter.contains vKey = some true
  concerned : ∀ vKey ∈ s.inserted, ∀ tx, CBloomFilter.Concerns vKey tx → Relevant s.filter tx
  spends : ∀ o ∈ s.matched, ∀ tx, o ∈ tx.prevouts → Relevant s.filter tx

/-- Nothing was reduced modulo zero, and there is no false negative. -/
def Good (s : Option State) : Prop := ∃ s', s = some s' ∧ s'.NoFalseNegative

theorem relevant_of_has {f : CBloomFilter} (hs : f.Sane) {vKey : Bytes} (h : f.has vKey = true)
    {tx : CTransaction} (htx : CBloomFilter.Concerns vKey tx) : Relevant f tx := by
  obtain ⟨r, hr, _, _, hfound⟩ := f.isRelevantAndUpdate_spec hs tx
  exact ⟨r, hr, hfound vKey h htx⟩

theorem State.Inv.noFalseNegative {s : State} (h : s.Inv) : s.NoFalseNegative := by
  have hinserted : ∀ vKey ∈ s.inserted, s.filter.has vKey = true :=
    fun vKey hmem => h.keys vKey (List.mem_append_left _ hmem)
  refine ⟨?_, ?_, ?_⟩
  · intro vKey hmem
    rw [CBloomFilter.contains_eq h.sane, hinserted vKey hmem]
  · intro vKey hmem tx htx
    exact relevant_of_has h.sane (hinserted vKey hmem) htx
  · intro o ho tx htx
    have hkey := h.keys (keyOfOutPoint o) (List.mem_append_right _ (List.mem_map_of_mem ho))
    obtain ⟨txin, hmem, hprevout⟩ := List.mem_map.1 htx
    exact relevant_of_has h.sane hkey
      (Or.inr (Or.inr (Or.inr ⟨txin, hmem, congrArg keyOfOutPoint hprevout.symm⟩)))

theorem State.Inv.grows {s : State} (h : s.Inv) {g : CBloomFilter} (hg : s.filter.Grows g)
    {inserted : List Bytes} {matched : List COutPoint}
    (hkeys : ∀ vKey ∈ inserted ++ matched.map keyOfOutPoint, g.has vKey = true ∨ vKey ∈ s.keys) :
    State.Inv ⟨g, inserted, matched⟩ where
  sane := hg.sane h.sane
  full hf := by
    have hfull : s.filter.isFull = true := hg.isFull.symm.trans hf
    change ∀ byte ∈ g.vData, byte = 0xff
    rw [hg.full hfull]
    exact h.full hfull
  keys vKey hmem := (hkeys vKey hmem).elim id fun hold => hg.has (h.keys vKey hold)

theorem State.Inv.step {s : State} (h : s.Inv) {e : Event} (he : Spared (some s) e) :
    ∃ s', s.step e = some s' ∧ s'.Inv := by
  cases e with
  | insert vKey =>
    obtain ⟨g, hg, hgrows, hhas⟩ := CBloomFilter.insert_spec h.sane vKey
    refine ⟨⟨g, s.inserted ++ [vKey], s.matched⟩, ?_, h.grows hgrows ?_⟩
    · simp only [State.step]
      rw [hg]
      rfl
    · intro key hkey
      rw [List.mem_append, List.mem_append, List.mem_singleton] at hkey
      rcases hkey with (hkey | hkey) | hkey
      · exact Or.inr (List.mem_append_left _ hkey)
      · exact Or.inl (hkey ▸ hhas)
      · exact Or.inr (List.mem_append_right _ hkey)
  | contains vKey =>
    refine ⟨s, ?_, h⟩
    simp only [State.step]
    rw [CBloomFilter.contains_eq h.sane]
    rfl
  | isRelevantAndUpdate tx =>
    obtain ⟨r, hr, hgrows, hmatched, _⟩ := s.filter.isRelevantAndUpdate_spec h.sane tx
    let matched :=
      if s.filter.nFlags &&& bloomUpdateMask = bloomUpdateAll then r.matched else []
    refine ⟨⟨r.filter, s.inserted, s.matched ++ matched⟩, ?_, h.grows hgrows ?_⟩
    · simp only [State.step]
      rw [hr]
      rfl
    · intro key hkey
      rw [List.map_append, List.mem_append, List.mem_append] at hkey
      rcases hkey with hkey | hkey | hkey
      · exact Or.inr (List.mem_append_left _ hkey)
      · exact Or.inr (List.mem_append_right _ hkey)
      · obtain ⟨o, ho, hkeyo⟩ := List.mem_map.1 hkey
        left
        by_cases hall : s.filter.nFlags &&& bloomUpdateMask = bloomUpdateAll
        · simp only [matched, if_pos hall] at ho
          exact hkeyo ▸ hmatched hall o ho
        · simp only [matched, if_neg hall] at ho
          exact absurd ho List.not_mem_nil
  | updateEmptyFull =>
    refine ⟨_, rfl, CBloomFilter.updateEmptyFull_sane, CBloomFilter.updateEmptyFull_isFull.1, ?_⟩
    intro vKey hmem
    change vKey ∈ s.inserted ++ s.matched.map keyOfOutPoint at hmem
    by_cases hv : s.filter.Vacuous
    · obtain ⟨hinserted, hmatched⟩ := he hv
      rw [hinserted, hmatched] at hmem
      exact absurd hmem List.not_mem_nil
    · exact CBloomFilter.updateEmptyFull_has h.full hv (h.keys vKey hmem)

theorem Source.inv (src : Source) : State.Inv ⟨src.filter, [], []⟩ :=
  ⟨src.filter_sane, src.filter_full, fun _ h => absurd h List.not_mem_nil⟩

theorem inv_run {s : State} (h : s.Inv) {es : List Event} (hes : Meets step Spared (some s) es) :
    ∃ s', run step (some s) es = some s' ∧ s'.Inv := by
  have hstep : ∀ (o : Option State) (e : Event), (∃ s', o = some s' ∧ s'.Inv) → Spared o e →
      ∃ s', step o e = some s' ∧ s'.Inv := by
    intro o e ho he
    obtain ⟨s', hs', hinv⟩ := ho
    subst hs'
    exact hinv.step he
  exact run_invariant (I := fun o => ∃ s', o = some s' ∧ s'.Inv) hstep ⟨s, rfl, h⟩ hes

/-- `UpdateEmptyFull` on a vacuous filter denies everything that was inserted. -/
theorem spared_of_good {s : State} {e : Event} (h : Good (step (some s) e)) :
    Spared (some s) e := by
  cases e with
  | insert => trivial
  | contains => trivial
  | isRelevantAndUpdate => trivial
  | updateEmptyFull =>
    intro hv
    obtain ⟨s', hs', hgood⟩ := h
    have heq : s' = { s with filter := s.filter.updateEmptyFull } := (Option.some.inj hs').symm
    have hempty : s'.filter.isEmpty = true := by
      rw [heq]
      exact CBloomFilter.updateEmptyFull_isEmpty.2 hv.2.2
    have hfull : s'.filter.isFull = false := by
      rw [← Bool.not_eq_true, heq]
      intro hf
      obtain ⟨byte, hbyte⟩ := List.exists_mem_of_ne_nil _ hv.2.1
      have hff := CBloomFilter.updateEmptyFull_isFull.1 hf byte hbyte
      rw [hv.2.2 byte hbyte] at hff
      exact absurd hff (by decide)
    constructor
    · -- an inserted key is not contained
      apply List.eq_nil_iff_forall_not_mem.2
      intro vKey hmem
      have hcontains := hgood.inserted vKey (heq ▸ hmem)
      rw [CBloomFilter.contains, hfull, hempty] at hcontains
      have hdenied : some false = some true := hcontains
      exact Bool.noConfusion (Option.some.inj hdenied)
    · -- no transaction is relevant
      apply List.eq_nil_iff_forall_not_mem.2
      intro o hmem
      let tx : CTransaction := ⟨0, 1, [⟨o, [], 0⟩], [], 0⟩
      obtain ⟨r, hr, hfound⟩ := hgood.spends o (heq ▸ hmem) tx List.mem_cons_self
      rw [CBloomFilter.isRelevantAndUpdate, hfull, hempty] at hr
      have hrr : (⟨s'.filter, false, []⟩ : CBloomFilter.Search) = r := Option.some.inj hr
      rw [← hrr] at hfound
      exact Bool.noConfusion hfound

theorem meets_of_good {es : List Event} {s : Option State} (hs : s.isSome)
    (h : ∀ pre, pre <+: es → Good (run step s pre)) : Meets step Spared s es := by
  induction es generalizing s with
  | nil => trivial
  | cons e es ih =>
    obtain ⟨s, rfl⟩ := Option.isSome_iff_exists.1 hs
    have hfirst : Good (step (some s) e) := h [e] (List.prefix_append [e] es)
    refine ⟨spared_of_good hfirst, ih ?_ ?_⟩
    · obtain ⟨s', hs', _⟩ := hfirst
      rw [hs']
      rfl
    · intro pre hpre
      exact h (e :: pre) ((List.prefix_cons_inj e).2 hpre)

/-- A filter gives no false negative and never divides by zero, all along a run, exactly when
`UpdateEmptyFull` is not called in it on a filter without hash functions and with nothing but zero
bytes, after an insertion. -/
theorem no_false_negative_iff (src : Source) (es : List Event) :
    (∀ pre, pre <+: es → Good (run step (some ⟨src.filter, [], []⟩) pre)) ↔
      Meets step Spared (some ⟨src.filter, [], []⟩) es := by
  constructor
  · exact meets_of_good rfl
  · intro hes pre hpre
    obtain ⟨rest, rfl⟩ := hpre
    obtain ⟨s', hs', hinv⟩ := inv_run src.inv (meets_append.1 hes).1
    exact ⟨s', hs', hinv.noFalseNegative⟩

/-- A filter of one zero byte without hash functions is loaded; a key is inserted, and denied after
`UpdateEmptyFull`. -/
theorem vacuous_filter_denies_key :
    ¬ Good (run step (some ⟨(Source.network [0] 0 0 0).filter, [], []⟩)
      [.insert [1], .updateEmptyFull]) := by
  intro ⟨s, hs, hgood⟩
  have heq : s = ⟨⟨[0], false, true, 0, 0, 0⟩, [[1]], []⟩ := (Option.some.inj hs).symm
  subst heq
  have hcontains := hgood.inserted [1] List.mem_cons_self
  exact absurd hcontains (by decide)

end Scrypta.Bloom
