import Mathlib.Algebra.BigOperators.Group.List.Basic
import Mathlib.Algebra.Order.BigOperators.Group.List
import Mathlib.Data.List.Dedup
import Mathlib.Tactic.Ring
import Scrypta.Primitives

/-! A client signs the final transaction of a mixing session. It looks for its inputs there, and
for the outputs of the entry that they belong to. -/

namespace Scrypta.Obfuscation

structure CTxDSIn extends CTxIn where
  prevPubKey : CScript
  deriving DecidableEq, Repr

structure CObfuScationEntry where
  sev : List CTxDSIn
  vout : List CTxOut
  deriving DecidableEq, Repr

structure CObfuscationPool where
  fMasterNode : Bool := false
  entries : List CObfuScationEntry

/-- What the loops over the outputs of the transaction and of the entry count. -/
structure Found where
  foundOutputs : ℕ
  nValue1 : CAmount
  deriving DecidableEq, Repr

def findOutputs (vout outs : List CTxOut) : Found :=
  vout.foldl (fun found v =>
    outs.foldl (fun found o =>
      if v = o then ⟨found.foundOutputs + 1, found.nValue1 + v.nValue⟩ else found) found) ⟨0, 0⟩

/-- The entry's outputs seem to be in the transaction. -/
def accepts (vout outs : List CTxOut) : Bool :=
  let found := findOutputs vout outs
  let nValue2 := outs.foldl (fun n o => n + o.nValue) 0
  !(decide (found.foundOutputs < outs.length) || decide (found.nValue1 ≠ nValue2))

/-- The place of an input in the transaction, the last one if there are several. -/
def findMine (vin : List CTxIn) (s : CTxDSIn) : Option ℕ :=
  (List.range vin.length).foldl (fun mine i =>
    if vin[i]? = some s.toCTxIn then some i else mine) none

/-- The state of the loops. `signedFor` notes the entries whose inputs were signed. -/
structure Signing where
  finalTransaction : CTransaction
  sigs : List CTxIn := []
  signedFor : List CObfuScationEntry := []

section Sign

variable (signSignature : CScript → CTransaction → ℕ → CScript)

/-- `SignSignature` changes the script of the input, whether it succeeds or not. -/
def signInput (n : Signing) (e : CObfuScationEntry) (s : CTxDSIn) (mine : ℕ) : Signing :=
  let scriptSig := signSignature s.prevPubKey n.finalTransaction mine
  let vin := n.finalTransaction.vin.modify mine fun i => { i with scriptSig := scriptSig }
  { finalTransaction := { n.finalTransaction with vin := vin }
    sigs := n.sigs ++ (vin[mine]?).toList
    signedFor := n.signedFor ++ [e] }

/-- The inputs of the entries in turn; `false` where the client refuses. -/
def signLoop : List (CObfuScationEntry × CTxDSIn) → Signing → Bool × Signing
  | [], n => (true, n)
  | (e, s) :: rest, n =>
    match findMine n.finalTransaction.vin s with
    | none => signLoop rest n
    | some mine =>
      if accepts n.finalTransaction.vout e.vout then
        signLoop rest (signInput signSignature n e s mine)
      else (false, n)

/-- The return value, the message to the masternode, and for which entries an input was signed. -/
structure Outcome where
  result : Bool
  dss : Option (List CTxIn) := none
  signedFor : List CObfuScationEntry := []

def signFinalTransaction (pool : CObfuscationPool) (finalTransactionNew : CTransaction) : Outcome :=
  if pool.fMasterNode then { result := false }
  else
    let n := signLoop signSignature (pool.entries.flatMap fun e => e.sev.map fun s => (e, s))
      { finalTransaction := finalTransactionNew }
    if n.1 then
      { result := true, dss := if n.2.sigs.isEmpty then none else some n.2.sigs
        signedFor := n.2.signedFor }
    else { result := false, signedFor := n.2.signedFor }

end Sign

/-! What the counts are. -/

section Counts

variable {vout outs : List CTxOut}

theorem findOutputs_eq (vout outs : List CTxOut) : findOutputs vout outs =
    ⟨(outs.map fun o => vout.count o).sum, (outs.map fun o => vout.count o * o.nValue).sum⟩ := by
  have hinner (v : CTxOut) (outs : List CTxOut) (found : Found) :
      outs.foldl (fun found o =>
        if v = o then ⟨found.foundOutputs + 1, found.nValue1 + v.nValue⟩ else found) found =
      ⟨found.foundOutputs + outs.count v, found.nValue1 + outs.count v * v.nValue⟩ := by
    induction outs generalizing found with
    | nil => simp
    | cons o outs ih =>
      rw [List.foldl_cons, ih]
      by_cases hv : v = o
      · subst hv
        simp only [if_true, List.count_cons_self, Found.mk.injEq]
        constructor
        · omega
        · push_cast
          ring
      · rw [if_neg hv, List.count_cons_of_ne (fun h => hv h.symm)]
  have hcons (v : CTxOut) (vout outs : List CTxOut) :
      (outs.map fun o => (v :: vout).count o).sum =
        (outs.map fun o => vout.count o).sum + outs.count v ∧
      (outs.map fun o => ((v :: vout).count o : ℤ) * o.nValue).sum =
        (outs.map fun o => (vout.count o : ℤ) * o.nValue).sum + outs.count v * v.nValue := by
    induction outs with
    | nil => simp
    | cons o outs ih =>
      obtain ⟨hcount, hvalue⟩ := ih
      simp only [List.map_cons, List.sum_cons, hcount, hvalue]
      by_cases hv : v = o
      · subst hv
        simp only [List.count_cons_self]
        constructor
        · omega
        · push_cast
          ring
      · rw [List.count_cons_of_ne hv, List.count_cons_of_ne (fun h => hv h.symm)]
        constructor
        · omega
        · ring
  have houter (vout : List CTxOut) (found : Found) :
      vout.foldl (fun found v =>
        outs.foldl (fun found o =>
          if v = o then ⟨found.foundOutputs + 1, found.nValue1 + v.nValue⟩ else found) found)
        found =
      ⟨found.foundOutputs + (outs.map fun o => vout.count o).sum,
        found.nValue1 + (outs.map fun o => (vout.count o : ℤ) * o.nValue).sum⟩ := by
    induction vout generalizing found with
    | nil => simp
    | cons v vout ih =>
      obtain ⟨hcount, hvalue⟩ := hcons v vout outs
      rw [List.foldl_cons, ih, hinner, hcount, hvalue, Found.mk.injEq]
      constructor
      · dsimp only
        omega
      · dsimp only
        ring
  rw [findOutputs, houter]
  simp

theorem accepts_iff : accepts vout outs = true ↔
    outs.length ≤ (outs.map fun o => vout.count o).sum ∧
      (outs.map fun o => (vout.count o : ℤ) * o.nValue).sum = (outs.map (·.nValue)).sum := by
  have hsum : outs.foldl (fun n o => n + o.nValue) 0 = (outs.map (·.nValue)).sum := by
    rw [List.sum_eq_foldl, List.foldl_map]
  rw [accepts, findOutputs_eq, hsum]
  simp

/-- The outputs differ from one another, and no choice of at least as many of them, some perhaps
more than once, has the same total without having them all. -/
structure Unmistakable (outs : List CTxOut) : Prop where
  nodup : outs.Nodup
  every : ∀ f : CTxOut → ℕ, outs.length ≤ (outs.map f).sum →
    (outs.map fun o => (f o : ℤ) * o.nValue).sum = (outs.map (·.nValue)).sum →
    ∀ o ∈ outs, f o ≠ 0

/-- The transaction has the outputs, as often as they are listed. -/
def Contains (vout outs : List CTxOut) : Prop := ∀ o, outs.count o ≤ vout.count o

theorem Unmistakable.contains (h : Unmistakable outs) (haccepts : accepts vout outs = true) :
    Contains vout outs := by
  obtain ⟨hcount, hvalue⟩ := accepts_iff.mp haccepts
  intro o
  by_cases ho : o ∈ outs
  · rw [List.count_eq_one_of_mem h.nodup ho]
    exact Nat.one_le_iff_ne_zero.mpr (h.every (fun o => vout.count o) hcount hvalue o ho)
  · rw [List.count_eq_zero_of_not_mem ho]
    exact Nat.zero_le _

/-- So many copies of each output. -/
def copies (outs : List CTxOut) (f : CTxOut → ℕ) : List CTxOut :=
  outs.dedup.flatMap fun o => List.replicate (f o) o

theorem count_copies (f : CTxOut → ℕ) {o : CTxOut} (ho : o ∈ outs) :
    (copies outs f).count o = f o := by
  have hall (l : List CTxOut) (hl : l.Nodup) :
      (l.flatMap fun x => List.replicate (f x) x).count o = if o ∈ l then f o else 0 := by
    induction l with
    | nil => rfl
    | cons x l ih =>
      obtain ⟨hx, hl⟩ := List.nodup_cons.mp hl
      rw [List.flatMap_cons, List.count_append, ih hl, List.count_replicate]
      by_cases hox : o = x
      · subst hox
        simp [hx]
      · simp [hox, Ne.symm hox]
  rw [copies, hall _ outs.nodup_dedup, if_pos (List.mem_dedup.mpr ho)]

/-- Where the entry could be mistaken, some transaction is accepted without having its outputs. -/
theorem unmistakable_of_accepts (h : ∀ vout, accepts vout outs = true → Contains vout outs) :
    Unmistakable outs := by
  have hcopies (f : CTxOut → ℕ) (hcount : outs.length ≤ (outs.map f).sum)
      (hvalue : (outs.map fun o => (f o : ℤ) * o.nValue).sum = (outs.map (·.nValue)).sum) :
      ∀ o ∈ outs, outs.count o ≤ f o := by
    intro o ho
    have hmap : outs.map (fun o => (copies outs f).count o) = outs.map f :=
      List.map_congr_left fun o ho => count_copies f ho
    have hmapValue : outs.map (fun o => ((copies outs f).count o : ℤ) * o.nValue) =
        outs.map fun o => (f o : ℤ) * o.nValue :=
      List.map_congr_left fun o ho => by rw [count_copies f ho]
    have hall := h (copies outs f) (accepts_iff.mpr ⟨hmap ▸ hcount, hmapValue ▸ hvalue⟩) o
    rwa [count_copies f ho] at hall
  constructor
  · rw [List.nodup_iff_count_le_one]
    intro o
    by_cases ho : o ∈ outs
    · exact hcopies (fun _ => 1) (by simp) (by simp) o ho
    · rw [List.count_eq_zero_of_not_mem ho]
      exact Nat.zero_le _
  · intro f hcount hvalue o ho
    have hone := List.count_pos_iff.mpr ho
    have hle := hcopies f hcount hvalue o ho
    omega

/-- What goes to the scripts of the outputs. -/
def paid (vout outs : List CTxOut) : CAmount :=
  ((vout.filter fun o => o.scriptPubKey ∈ outs.map (·.scriptPubKey)).map (·.nValue)).sum

theorem Contains.paid (h : Contains vout outs) (hvalue : ∀ o ∈ vout, 0 ≤ o.nValue) :
    (outs.map (·.nValue)).sum ≤ paid vout outs := by
  have hsub : outs.Subperm
      (vout.filter fun o => o.scriptPubKey ∈ outs.map (·.scriptPubKey)) := by
    refine List.subperm_ext_iff.mpr fun o ho => ?_
    rw [List.count_filter]
    · exact h o
    · exact decide_eq_true (List.mem_map_of_mem ho)
  obtain ⟨l, hperm, hsublist⟩ := hsub
  have hsum : (outs.map (·.nValue)).sum = (l.map (·.nValue)).sum :=
    (hperm.map _).sum_eq.symm
  rw [hsum]
  refine (hsublist.map _).sum_le_sum fun x hx => ?_
  obtain ⟨o, ho, rfl⟩ := List.mem_map.mp hx
  exact hvalue o (List.mem_of_mem_filter ho)

end Counts

/-! The loops. -/

section Loops

variable {signSignature : CScript → CTransaction → ℕ → CScript} {n : Signing}
  {e : CObfuScationEntry}

theorem mem_signInput {e' : CObfuScationEntry} {s : CTxDSIn} {mine : ℕ} :
    e ∈ (signInput signSignature n e' s mine).signedFor ↔ e ∈ n.signedFor ∨ e = e' := by
  rw [signInput, List.mem_append, List.mem_singleton]

/-- Every entry that an input was signed for had been accepted, and the outputs of the transaction
are those it arrived with. -/
theorem accepts_of_signLoop {vout : List CTxOut} {l : List (CObfuScationEntry × CTxDSIn)}
    (hvout : n.finalTransaction.vout = vout)
    (hsigned : ∀ e ∈ n.signedFor, accepts vout e.vout = true)
    (he : e ∈ (signLoop signSignature l n).2.signedFor) : accepts vout e.vout = true := by
  induction l generalizing n with
  | nil => exact hsigned e he
  | cons x l ih =>
    obtain ⟨e', s⟩ := x
    rw [signLoop] at he
    cases hmine : findMine n.finalTransaction.vin s with
    | none =>
      rw [hmine] at he
      exact ih hvout hsigned he
    | some mine =>
      rw [hmine] at he
      dsimp only at he
      split_ifs at he with haccepts
      · refine ih (n := signInput signSignature n e' s mine) hvout (fun e he => ?_) he
        rcases mem_signInput.mp he with he | rfl
        · exact hsigned e he
        · exact hvout ▸ haccepts
      · exact hsigned e he

theorem signedFor_signLoop (l : List (CObfuScationEntry × CTxDSIn)) (he : e ∈ n.signedFor) :
    e ∈ (signLoop signSignature l n).2.signedFor := by
  induction l generalizing n with
  | nil => exact he
  | cons x l ih =>
    rw [signLoop]
    split
    · exact ih he
    · split_ifs
      · exact ih (mem_signInput.mpr (.inl he))
      · exact he

/-- Only entries with inputs are signed for. -/
theorem sev_ne_nil_of_signLoop {l : List (CObfuScationEntry × CTxDSIn)}
    (hl : ∀ x ∈ l, x.1.sev ≠ []) (hsigned : ∀ e ∈ n.signedFor, e.sev ≠ [])
    (he : e ∈ (signLoop signSignature l n).2.signedFor) : e.sev ≠ [] := by
  induction l generalizing n with
  | nil => exact hsigned e he
  | cons x l ih =>
    have hrest := fun y hy => hl y (List.mem_cons_of_mem x hy)
    rw [signLoop] at he
    split at he
    · exact ih hrest hsigned he
    · split_ifs at he
      · refine ih hrest (fun e' he' => ?_) he
        rcases mem_signInput.mp he' with he' | rfl
        · exact hsigned e' he'
        · exact hl x List.mem_cons_self
      · exact hsigned e he

theorem findMine_self (s : CTxDSIn) : findMine [s.toCTxIn] s = some 0 := by
  simp [findMine, List.range_succ]

theorem signedFor_signFinalTransaction {pool : CObfuscationPool} {final : CTransaction}
    (h : pool.fMasterNode = false) :
    (signFinalTransaction signSignature pool final).signedFor = (signLoop signSignature
      (pool.entries.flatMap fun e => e.sev.map fun s => (e, s))
      { finalTransaction := final }).2.signedFor := by
  rw [signFinalTransaction, if_neg (by simp [h])]
  dsimp only
  split
  · rfl
  · rfl

end Loops

/-- A client of which `e` is an entry signs for `e` only where the transaction has its outputs,
in every pool, if and only if `e` has no input or cannot be mistaken. -/
theorem signed_entry_is_paid_iff (e : CObfuScationEntry) :
    (∀ (signSignature : CScript → CTransaction → ℕ → CScript) (pool : CObfuscationPool)
        (finalTransactionNew : CTransaction), e ∈ pool.entries →
      e ∈ (signFinalTransaction signSignature pool finalTransactionNew).signedFor →
        Contains finalTransactionNew.vout e.vout ∧
          ((∀ o ∈ finalTransactionNew.vout, 0 ≤ o.nValue) →
            (e.vout.map (·.nValue)).sum ≤ paid finalTransactionNew.vout e.vout)) ↔
    e.sev = [] ∨ Unmistakable e.vout := by
  constructor
  · intro h
    cases hsev : e.sev with
    | nil => exact .inl rfl
    | cons s sev =>
      refine .inr (unmistakable_of_accepts fun vout haccepts => ?_)
      -- the pool has this entry alone, and the transaction one of its inputs
      refine (h (fun _ _ _ => []) ⟨false, [e]⟩ ⟨0, 1, [s.toCTxIn], vout, 0⟩
        (List.mem_singleton_self e) ?_).1
      have hlist : ([e].flatMap fun e => e.sev.map fun s => (e, s)) =
          (e, s) :: sev.map fun s => (e, s) := by
        simp [hsev]
      have hstart : signLoop (fun _ _ _ => []) ((e, s) :: sev.map fun s => (e, s))
          { finalTransaction := ⟨0, 1, [s.toCTxIn], vout, 0⟩ } =
          signLoop (fun _ _ _ => []) (sev.map fun s => (e, s)) (signInput (fun _ _ _ => [])
            { finalTransaction := ⟨0, 1, [s.toCTxIn], vout, 0⟩ } e s 0) := by
        rw [signLoop]
        dsimp only
        rw [findMine_self]
        exact if_pos haccepts
      rw [signedFor_signFinalTransaction rfl, hlist, hstart]
      exact signedFor_signLoop _ (mem_signInput.mpr (.inr rfl))
  · rintro h signSignature pool final - he
    have hloop : e ∈ (signLoop signSignature
        (pool.entries.flatMap fun e => e.sev.map fun s => (e, s))
        { finalTransaction := final }).2.signedFor := by
      cases hmaster : pool.fMasterNode with
      | false => exact signedFor_signFinalTransaction hmaster ▸ he
      | true =>
        rw [signFinalTransaction, if_pos hmaster] at he
        exact absurd he List.not_mem_nil
    have haccepts : accepts final.vout e.vout = true :=
      accepts_of_signLoop rfl (fun e he => absurd he List.not_mem_nil) hloop
    have hsev : e.sev ≠ [] := by
      refine sev_ne_nil_of_signLoop (fun x hx => ?_) (fun e he => absurd he List.not_mem_nil) hloop
      obtain ⟨e', -, hx⟩ := List.mem_flatMap.mp hx
      obtain ⟨s, hs, rfl⟩ := List.mem_map.mp hx
      exact List.ne_nil_of_mem hs
    have hcontains := (h.resolve_left hsev).contains haccepts
    exact ⟨hcontains, hcontains.paid⟩

section Sample

private def mixedOut : CTxOut := ⟨1000100000, [0x51], -10⟩

private def mixedIn : CTxDSIn := { prevout := ⟨7, 0⟩, prevPubKey := [0x51] }

/-- An entry with two outputs that are alike is signed for when the transaction has one of
them. -/
theorem half_paid_entry_signed :
    ⟨[mixedIn], [mixedOut, mixedOut]⟩ ∈ (signFinalTransaction (fun _ _ _ => [0x51])
        ⟨false, [⟨[mixedIn], [mixedOut, mixedOut]⟩]⟩
        ⟨1, 1, [mixedIn.toCTxIn], [mixedOut], 0⟩).signedFor ∧
      ¬ Contains [mixedOut] [mixedOut, mixedOut] := by
  refine ⟨by decide, fun h => ?_⟩
  exact absurd (h mixedOut) (by decide)

end Sample

end Scrypta.Obfuscation
