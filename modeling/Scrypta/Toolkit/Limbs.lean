import Mathlib.Data.List.Basic
import Mathlib.Tactic.Ring

/-! Numbers in words of a fixed width, the lowest word first: the product with a word, the product
row by row, the quotient by shifting and subtracting, and shifts by any number of bits. -/

namespace Limbs

variable {w : ℕ}

def value : List (BitVec w) → ℕ
  | [] => 0
  | a :: as => a.toNat + 2 ^ w * value as

/-- The lowest words of a number. -/
def ofNat (w : ℕ) : ℕ → ℕ → List (BitVec w)
  | 0, _ => []
  | k + 1, n => BitVec.ofNat w n :: ofNat w k (n / 2 ^ w)

theorem length_ofNat (k n : ℕ) : (ofNat w k n).length = k := by
  induction k generalizing n with
  | zero => rfl
  | succ k ih => rw [ofNat, List.length_cons, ih]

theorem pow_words (k : ℕ) : 2 ^ (w * (k + 1)) = 2 ^ w * 2 ^ (w * k) := by
  rw [Nat.mul_succ, Nat.add_comm, Nat.pow_add]

theorem value_ofNat (k n : ℕ) : value (ofNat w k n) = n % 2 ^ (w * k) := by
  induction k generalizing n with
  | zero =>
    rw [Nat.mul_zero, Nat.pow_zero, Nat.mod_one]
    rfl
  | succ k ih => rw [ofNat, value, ih, BitVec.toNat_ofNat, pow_words, Nat.mod_mul]

/-- The lowest word of a sum and what is carried to the next. -/
theorem mod_words (n y k : ℕ) :
    (n + 2 ^ w * y) % 2 ^ (w * (k + 1)) = n % 2 ^ w + 2 ^ w * ((n / 2 ^ w + y) % 2 ^ (w * k)) := by
  have hpos : 0 < 2 ^ w := Nat.two_pow_pos w
  rw [pow_words, Nat.mod_mul, Nat.add_mul_mod_self_left, Nat.add_mul_div_left _ _ hpos]

/-- A product of two words, with what is there already and what is carried, in twice the width. -/
def productAdd (carry : BitVec (w + w)) (t a b : BitVec w) : BitVec (w + w) :=
  carry + t.setWidth (w + w) + a.setWidth (w + w) * b.setWidth (w + w)

theorem toNat_productAdd {carry : BitVec (w + w)} (h : carry.toNat < 2 ^ w) (t a b : BitVec w) :
    (productAdd carry t a b).toNat = carry.toNat + t.toNat + a.toNat * b.toNat := by
  have hpow : 2 ^ (w + w) = 2 ^ w * 2 ^ w := Nat.pow_add 2 w w
  have hle : 2 ^ w ≤ 2 ^ (w + w) := Nat.pow_le_pow_right (by decide) (Nat.le_add_right w w)
  have ht := t.isLt
  have ha := a.isLt
  have hb := b.isLt
  -- the largest value is the square of the base less one
  have hsum : carry.toNat + t.toNat + a.toNat * b.toNat < 2 ^ (w + w) := by
    have hprod : a.toNat * b.toNat ≤ (2 ^ w - 1) * (2 ^ w - 1) :=
      Nat.mul_le_mul (by omega) (by omega)
    have hsq : (2 ^ w - 1) * (2 ^ w - 1) + 2 * (2 ^ w - 1) + 1 = 2 ^ (w + w) := by
      obtain ⟨m, hm⟩ : ∃ m, 2 ^ w = m + 1 := ⟨2 ^ w - 1, by omega⟩
      rw [hpow, hm, Nat.add_sub_cancel]
      ring
    omega
  unfold productAdd
  rw [BitVec.toNat_add, BitVec.toNat_add, BitVec.toNat_mul, BitVec.toNat_setWidth,
    BitVec.toNat_setWidth, BitVec.toNat_setWidth, Nat.mod_eq_of_lt (ht.trans_le hle),
    Nat.mod_eq_of_lt (ha.trans_le hle), Nat.mod_eq_of_lt (hb.trans_le hle), Nat.mod_add_mod,
    Nat.add_mod_mod, Nat.mod_eq_of_lt hsum]

theorem toNat_low (n : BitVec (w + w)) : (n.setWidth w).toNat = n.toNat % 2 ^ w :=
  BitVec.toNat_setWidth w n

theorem toNat_high (n : BitVec (w + w)) : (n >>> w).toNat = n.toNat / 2 ^ w := by
  rw [BitVec.toNat_ushiftRight, Nat.shiftRight_eq_div_pow]

theorem high_lt (n : BitVec (w + w)) : (n >>> w).toNat < 2 ^ w := by
  rw [toNat_high]
  apply Nat.div_lt_of_lt_mul
  rw [← Nat.pow_add]
  exact n.isLt

/-- The loop over the words of a product with a single word. The last carry is lost. -/
def mulWord (b : BitVec w) : BitVec (w + w) → List (BitVec w) → List (BitVec w)
  | _, [] => []
  | carry, a :: as =>
    let n := productAdd carry 0#w b a
    n.setWidth w :: mulWord b (n >>> w) as

theorem length_mulWord (b : BitVec w) (carry : BitVec (w + w)) (as : List (BitVec w)) :
    (mulWord b carry as).length = as.length := by
  induction as generalizing carry with
  | nil => rfl
  | cons a as ih => rw [mulWord, List.length_cons, ih, List.length_cons]

theorem value_mulWord {b : BitVec w} {carry : BitVec (w + w)} (h : carry.toNat < 2 ^ w)
    (as : List (BitVec w)) :
    value (mulWord b carry as) = (carry.toNat + b.toNat * value as) % 2 ^ (w * as.length) := by
  induction as generalizing carry with
  | nil =>
    rw [List.length_nil, Nat.mul_zero, Nat.pow_zero, Nat.mod_one]
    rfl
  | cons a as ih =>
    have hn : (productAdd carry 0#w b a).toNat = carry.toNat + b.toNat * a.toNat := by
      rw [toNat_productAdd h, BitVec.toNat_zero, Nat.add_zero]
    have hsum : carry.toNat + b.toNat * value (a :: as) =
        carry.toNat + b.toNat * a.toNat + 2 ^ w * (b.toNat * value as) := by
      rw [value]
      ring
    rw [mulWord, value, ih (high_lt _), toNat_low, toNat_high, hn, List.length_cons, hsum,
      mod_words]

/-- One row of a product: the words are added to those that are there. -/
def mulRow (a : BitVec w) : BitVec (w + w) → List (BitVec w) → List (BitVec w) → List (BitVec w)
  | carry, t :: ts, b :: bs =>
    let n := productAdd carry t a b
    n.setWidth w :: mulRow a (n >>> w) ts bs
  | _, ts, _ => ts

theorem length_mulRow (a : BitVec w) (carry : BitVec (w + w)) (ts bs : List (BitVec w)) :
    (mulRow a carry ts bs).length = ts.length := by
  induction ts generalizing carry bs with
  | nil => cases bs <;> rfl
  | cons t ts ih =>
    cases bs with
    | nil => rfl
    | cons b bs => rw [mulRow, List.length_cons, ih, List.length_cons]

theorem value_mulRow {a : BitVec w} {carry : BitVec (w + w)} (h : carry.toNat < 2 ^ w)
    {ts bs : List (BitVec w)} (hlen : ts.length ≤ bs.length) :
    value (mulRow a carry ts bs) =
      (carry.toNat + value ts + a.toNat * value bs) % 2 ^ (w * ts.length) := by
  induction ts generalizing carry bs with
  | nil =>
    rw [List.length_nil, Nat.mul_zero, Nat.pow_zero, Nat.mod_one]
    cases bs <;> rfl
  | cons t ts ih =>
    cases bs with
    | nil => exact absurd hlen (Nat.not_succ_le_zero _)
    | cons b bs =>
      have hn := toNat_productAdd h t a b
      have hsum : carry.toNat + value (t :: ts) + a.toNat * value (b :: bs) =
          carry.toNat + t.toNat + a.toNat * b.toNat + 2 ^ w * (value ts + a.toNat * value bs) := by
        rw [value, value]
        ring
      rw [mulRow, value, ih (high_lt _) (Nat.le_of_succ_le_succ hlen), toNat_low, toNat_high, hn,
        List.length_cons, hsum, mod_words, Nat.add_assoc _ (value ts)]

/-- All rows, each one word further up. -/
def mulRows (bs : List (BitVec w)) : List (BitVec w) → List (BitVec w) → List (BitVec w)
  | a :: as, ts =>
    match mulRow a 0#(w + w) ts bs with
    | [] => []
    | t :: ts => t :: mulRows bs as ts
  | [], ts => ts

theorem length_mulRows (bs as ts : List (BitVec w)) :
    (mulRows bs as ts).length = ts.length := by
  induction as generalizing ts with
  | nil => rfl
  | cons a as ih =>
    have hlen := length_mulRow a 0#(w + w) ts bs
    rw [mulRows]
    split
    · rename_i hnil
      rw [← hlen, hnil]
    · rename_i hcons
      rw [List.length_cons, ih, ← hlen, hcons, List.length_cons]

theorem value_mulRows {as bs ts : List (BitVec w)} (has : as.length = ts.length)
    (hbs : ts.length ≤ bs.length) :
    value (mulRows bs as ts) = (value ts + value as * value bs) % 2 ^ (w * ts.length) := by
  induction as generalizing ts with
  | nil =>
    obtain rfl : ts = [] := List.eq_nil_of_length_eq_zero has.symm
    rw [List.length_nil, Nat.mul_zero, Nat.pow_zero, Nat.mod_one]
    rfl
  | cons a as ih =>
    have hzero : (0#(w + w)).toNat < 2 ^ w := by
      rw [BitVec.toNat_zero]
      exact Nat.two_pow_pos w
    have hrow := value_mulRow hzero hbs (a := a)
    have hlen := length_mulRow a 0#(w + w) ts bs
    rw [mulRows]
    cases hcons : mulRow a 0#(w + w) ts bs with
    | nil =>
      rw [hcons, ← has] at hlen
      cases hlen
    | cons t rest =>
      rw [hcons] at hrow hlen
      have hrest : as.length = rest.length := by
        rw [← has] at hlen
        exact (Nat.succ.inj hlen).symm
      have hle : rest.length ≤ bs.length := by
        rw [← hlen] at hbs
        exact (Nat.le_succ _).trans hbs
      have hnext := mod_words (w := w) t.toNat (value rest + value as * value bs) rest.length
      have ht : t.toNat / 2 ^ w = 0 := Nat.div_eq_of_lt t.isLt
      have htmod : t.toNat % 2 ^ w = t.toNat := Nat.mod_eq_of_lt t.isLt
      rw [ht, htmod, Nat.zero_add] at hnext
      have hsum : t.toNat + 2 ^ w * (value rest + value as * value bs) =
          value (t :: rest) + 2 ^ w * value as * value bs := by
        rw [value]
        ring
      have hall : value ts + value (a :: as) * value bs =
          (value ts + a.toNat * value bs) + 2 ^ w * value as * value bs := by
        rw [value]
        ring
      dsimp only
      rw [value, ih hrest hle, ← hnext, hsum, hrow, BitVec.toNat_zero, Nat.zero_add, ← hlen,
        List.length_cons, Nat.mod_add_mod, hall]

/-! The quotient. -/

variable {n : ℕ}

/-- The divisor moves down to where it stood first. The number counts the shifts that are left,
with the last one that subtracts without a shift. -/
def divideLoop : ℕ → BitVec n → BitVec n → BitVec n → BitVec n
  | 0, _, _, quotient => quotient
  | shift + 1, num, div, quotient =>
    if div ≤ num then divideLoop shift (num - div) (div >>> 1) (quotient ||| 1#n <<< shift)
    else divideLoop shift num (div >>> 1) quotient

/-- A bit below those that are set. -/
theorem toNat_setBit {quotient : BitVec n} {q shift : ℕ}
    (hquotient : quotient.toNat = q * 2 ^ (shift + 1)) (hfits : (q + 1) * 2 ^ (shift + 1) ≤ 2 ^ n) :
    (quotient ||| 1#n <<< shift).toNat = (2 * q + 1) * 2 ^ shift := by
  have hpow : 2 ^ (shift + 1) = 2 * 2 ^ shift := by rw [Nat.pow_succ, Nat.mul_comm]
  have hlt : 2 ^ shift < 2 ^ n := by
    have hone : 1 * 2 ^ (shift + 1) ≤ (q + 1) * 2 ^ (shift + 1) :=
      Nat.mul_le_mul_right _ (Nat.le_add_left 1 q)
    have hpos := Nat.two_pow_pos shift
    omega
  have hn : 0 < n := by
    apply Nat.pos_of_ne_zero
    rintro rfl
    have hpos := Nat.two_pow_pos shift
    omega
  have hbit : (1#n <<< shift).toNat = 2 ^ shift := by
    rw [BitVec.toNat_shiftLeft, BitVec.toNat_ofNat, Nat.shiftLeft_eq,
      Nat.mod_eq_of_lt (Nat.one_lt_two_pow hn.ne'), Nat.one_mul, Nat.mod_eq_of_lt hlt]
  have hor := Nat.shiftLeft_add_eq_or_of_lt (i := shift + 1) (b := 2 ^ shift)
    (by have hpos := Nat.two_pow_pos shift; omega) q
  rw [Nat.shiftLeft_eq] at hor
  rw [BitVec.toNat_or, hquotient, hbit, ← hor, hpow]
  ring

theorem toNat_divideLoop {num div quotient : BitVec n} {d q shift : ℕ} (hd : 0 < d)
    (hdiv : 0 < shift → div.toNat = d * 2 ^ (shift - 1)) (hnum : num.toNat < d * 2 ^ shift)
    (hquotient : quotient.toNat = q * 2 ^ shift) (hfits : (q + 1) * 2 ^ shift ≤ 2 ^ n) :
    (divideLoop shift num div quotient).toNat = quotient.toNat + num.toNat / d := by
  induction shift generalizing num div quotient q with
  | zero =>
    rw [Nat.pow_zero, Nat.mul_one] at hnum
    rw [divideLoop, Nat.div_eq_of_lt hnum, Nat.add_zero]
  | succ shift ih =>
    have hdiv := hdiv (Nat.succ_pos shift)
    rw [Nat.add_sub_cancel] at hdiv
    have hpow : 2 ^ (shift + 1) = 2 * 2 ^ shift := by rw [Nat.pow_succ, Nat.mul_comm]
    have hhalf : 0 < shift → (div >>> 1).toNat = d * 2 ^ (shift - 1) := by
      intro hpos
      obtain ⟨k, rfl⟩ : ∃ k, shift = k + 1 := ⟨shift - 1, by omega⟩
      rw [BitVec.toNat_ushiftRight, Nat.shiftRight_eq_div_pow, hdiv, Nat.pow_one,
        Nat.add_sub_cancel, Nat.pow_succ, ← Nat.mul_assoc, Nat.mul_div_cancel _ (by decide)]
    have hdouble : d * 2 ^ (shift + 1) = d * 2 ^ shift + d * 2 ^ shift := by
      rw [hpow]
      ring
    rw [divideLoop]
    split
    · rename_i hle
      have hle' : d * 2 ^ shift ≤ num.toNat := hdiv ▸ hle
      have hsub : (num - div).toNat = num.toNat - d * 2 ^ shift := by
        rw [BitVec.toNat_sub_of_le hle, hdiv]
      have hset := toNat_setBit hquotient hfits
      have hodd : (2 * q + 1 + 1) * 2 ^ shift = (q + 1) * 2 ^ (shift + 1) := by
        rw [hpow]
        ring
      have hquot : (num.toNat - d * 2 ^ shift) / d + 2 ^ shift = num.toNat / d := by
        rw [← Nat.add_mul_div_left _ _ hd, Nat.sub_add_cancel hle']
      rw [ih hhalf (by omega) hset (hodd.trans_le hfits), hset, hsub, hquotient, ← hquot, hpow]
      ring
    · rename_i hlt
      have hlt' : num.toNat < d * 2 ^ shift := hdiv ▸ BitVec.not_le.1 hlt
      have heven : quotient.toNat = 2 * q * 2 ^ shift := by
        rw [hquotient, hpow]
        ring
      refine ih hhalf hlt' heven ?_
      have hle : (2 * q + 1) * 2 ^ shift ≤ (q + 1) * 2 ^ (shift + 1) := by
        rw [hpow, ← Nat.mul_assoc]
        exact Nat.mul_le_mul_right _ (by omega)
      exact hle.trans hfits

/-- The divisor starts where its highest bit meets the one of the number. -/
theorem toNat_divideLoop_aligned {num div : BitVec n} {p shift : ℕ} (hlow : 2 ^ p ≤ div.toNat)
    (hhigh : div.toNat < 2 ^ (p + 1)) (hnum : num.toNat < 2 ^ (p + 1 + shift))
    (hfits : p + 1 + shift ≤ n) :
    (divideLoop (shift + 1) num (div <<< shift) 0#n).toNat = num.toNat / div.toNat := by
  have hpos : 0 < div.toNat := (Nat.two_pow_pos p).trans_le hlow
  have hshifted : div.toNat * 2 ^ shift < 2 ^ n := by
    have hlt : div.toNat * 2 ^ shift < 2 ^ (p + 1) * 2 ^ shift :=
      Nat.mul_lt_mul_of_pos_right hhigh (Nat.two_pow_pos shift)
    rw [← Nat.pow_add] at hlt
    exact hlt.trans_le (Nat.pow_le_pow_right (by decide) hfits)
  have hdiv : (div <<< shift).toNat = div.toNat * 2 ^ shift := by
    rw [BitVec.toNat_shiftLeft, Nat.shiftLeft_eq, Nat.mod_eq_of_lt hshifted]
  have hless : num.toNat < div.toNat * 2 ^ (shift + 1) := by
    have hpow : 2 ^ (p + 1 + shift) = 2 ^ p * 2 ^ (shift + 1) := by
      rw [← Nat.pow_add]
      congr 1
      omega
    rw [hpow] at hnum
    exact hnum.trans_le (Nat.mul_le_mul_right _ hlow)
  have hzero : (0#n).toNat = 0 * 2 ^ (shift + 1) := by rw [BitVec.toNat_zero, Nat.zero_mul]
  have hone : (0 + 1) * 2 ^ (shift + 1) ≤ 2 ^ n := by
    rw [Nat.zero_add, Nat.one_mul]
    exact Nat.pow_le_pow_right (by decide) (by omega)
  rw [toNat_divideLoop hpos (fun _ => hdiv) hless hzero hone, BitVec.toNat_zero, Nat.zero_add]

/-! The shifts. A word goes to two neighbouring places. -/

section Shifts

theorem zero_getLsbD (i : ℕ) : (0 : BitVec w).getLsbD i = false := BitVec.getLsbD_zero

def bit (as : List (BitVec w)) (i : ℕ) : Bool := (as.getD (i / w) 0).getLsbD (i % w)

theorem testBit_value (hw : 0 < w) (as : List (BitVec w)) (i : ℕ) :
    (value as).testBit i = bit as i := by
  induction as generalizing i with
  | nil => simp [value, bit]
  | cons a as ih =>
    rw [value, Nat.add_comm, Nat.testBit_two_pow_mul_add _ a.isLt]
    by_cases hi : i < w
    · rw [if_pos hi, bit, Nat.div_eq_of_lt hi, Nat.mod_eq_of_lt hi]
      rfl
    · have hdiv : i / w = (i - w) / w + 1 := Nat.div_eq_sub_div hw (not_lt.1 hi)
      rw [if_neg hi, ih, bit, bit, hdiv, Nat.mod_eq_sub_mod (not_lt.1 hi)]
      rfl

def orAt (ts : List (BitVec w)) (j : ℕ) (v : BitVec w) : List (BitVec w) :=
  ts.set j (ts.getD j 0 ||| v)

theorem length_orAt (ts : List (BitVec w)) (j : ℕ) (v : BitVec w) :
    (orAt ts j v).length = ts.length := List.length_set

theorem getD_orAt {ts : List (BitVec w)} {i : ℕ} (hi : i < ts.length) (j : ℕ) (v : BitVec w) :
    (orAt ts j v).getD i 0 = ts.getD i 0 ||| if i = j then v else 0 := by
  rw [orAt, List.getD_eq_getElem?_getD, List.getElem?_set]
  by_cases hij : i = j
  · subst hij
    rw [if_pos rfl, if_pos hi, if_pos rfl]
    rfl
  · rw [if_neg (Ne.symm hij), if_neg hij, ← List.getD_eq_getElem?_getD]
    exact (BitVec.or_zero).symm

/-- `operator<<=` -/
def shiftLeft (as : List (BitVec w)) (n : ℕ) : List (BitVec w) :=
  let k := n / w
  let shift := n % w
  (List.range as.length).foldl (fun pn i =>
    let pn := if i + k + 1 < as.length ∧ shift ≠ 0 then
        orAt pn (i + k + 1) (as.getD i 0 >>> (w - shift)) else pn
    if i + k < as.length then orAt pn (i + k) (as.getD i 0 <<< shift) else pn)
    (List.replicate as.length 0)

/-- `operator>>=` -/
def shiftRight (as : List (BitVec w)) (n : ℕ) : List (BitVec w) :=
  let k := n / w
  let shift := n % w
  (List.range as.length).foldl (fun pn i =>
    let pn := if k + 1 ≤ i ∧ shift ≠ 0 then
        orAt pn (i - k - 1) (as.getD i 0 <<< (w - shift)) else pn
    if k ≤ i then orAt pn (i - k) (as.getD i 0 >>> shift) else pn)
    (List.replicate as.length 0)

theorem mul_add_inj {i j b c : ℕ} (hb : b < w) (hc : c < w) (h : w * j + b = w * i + c) :
    j = i ∧ b = c := by
  have hw : 0 < w := Nat.zero_lt_of_lt hb
  have hdiv := congrArg (· / w) h
  have hmod := congrArg (· % w) h
  simp only [Nat.mul_add_div hw, Nat.div_eq_of_lt hb, Nat.div_eq_of_lt hc, Nat.add_zero] at hdiv
  simp only [Nat.mul_add_mod, Nat.mod_eq_of_lt hb, Nat.mod_eq_of_lt hc] at hmod
  exact ⟨hdiv, hmod⟩

theorem bit_mul_add {b : ℕ} (hb : b < w) (as : List (BitVec w)) (j : ℕ) :
    bit as (w * j + b) = (as.getD j 0).getLsbD b := by
  have hw : 0 < w := Nat.zero_lt_of_lt hb
  rw [bit, Nat.mul_add_div hw, Nat.div_eq_of_lt hb, Nat.mul_add_mod, Nat.mod_eq_of_lt hb,
    Nat.add_zero]

/-- A loop in which every turn adds bits gathers the bits of all turns. -/
theorem getLsbD_foldl_or {f : List (BitVec w) → ℕ → List (BitVec w)} {c : ℕ → ℕ → BitVec w}
    (hlen : ∀ ts i, (f ts i).length = ts.length)
    (hstep : ∀ ts i j, j < ts.length → (f ts i).getD j 0 = ts.getD j 0 ||| c i j) (m : ℕ)
    (ts : List (BitVec w)) {j : ℕ} (hj : j < ts.length) (b : ℕ) :
    (((List.range m).foldl f ts).getD j 0).getLsbD b = true ↔
      (ts.getD j 0).getLsbD b = true ∨ ∃ i < m, (c i j).getLsbD b = true := by
  have hall : ∀ m, ((List.range m).foldl f ts).length = ts.length := by
    intro m
    induction m with
    | zero => rfl
    | succ m ih =>
      rw [List.range_succ, List.foldl_append, List.foldl_cons, List.foldl_nil, hlen, ih]
  induction m with
  | zero => simp
  | succ m ih =>
    rw [List.range_succ, List.foldl_append, List.foldl_cons, List.foldl_nil,
      hstep _ _ _ (by rwa [hall]), BitVec.getLsbD_or, Bool.or_eq_true]
    refine (or_congr_left ih).trans (or_assoc.trans (or_congr_right ⟨?_, ?_⟩))
    · rintro (⟨i, hi, hbit⟩ | hbit)
      · exact ⟨i, by omega, hbit⟩
      · exact ⟨m, by omega, hbit⟩
    · rintro ⟨i, hi, hbit⟩
      rcases Nat.lt_succ_iff_lt_or_eq.1 hi with hlt | rfl
      · exact Or.inl ⟨i, hlt, hbit⟩
      · exact Or.inr hbit

theorem getLsbD_ite {P : Prop} [Decidable P] {v : BitVec w} {b : ℕ} :
    (if P then v else 0).getLsbD b = true ↔ P ∧ v.getLsbD b = true := by
  split
  · next h => rw [and_iff_right h]
  · next h => exact iff_of_false (by simp) fun hand => h hand.1

theorem lt_length_of_getLsbD {as : List (BitVec w)} {i b : ℕ}
    (h : (as.getD i 0).getLsbD b = true) : i < as.length := by
  by_contra hge
  rw [List.getD_eq_getElem?_getD, List.getElem?_eq_none (not_lt.1 hge), Option.getD_none,
    zero_getLsbD] at h
  cases h

theorem getD_replicate_zero (n j : ℕ) : (List.replicate n (0 : BitVec w)).getD j 0 = 0 := by
  rw [List.getD_eq_getElem?_getD, List.getElem?_replicate]
  split
  · rfl
  · rfl

theorem length_ite_orAt {P : Prop} [Decidable P] (ts : List (BitVec w)) (p : ℕ) (v : BitVec w) :
    (if P then orAt ts p v else ts).length = ts.length := by
  split
  · exact length_orAt ts p v
  · rfl

theorem getD_ite_orAt {P : Prop} [Decidable P] {ts : List (BitVec w)} {j : ℕ} (hj : j < ts.length)
    (p : ℕ) (v : BitVec w) : (if P then orAt ts p v else ts).getD j 0 =
      ts.getD j 0 ||| if P ∧ j = p then v else 0 := by
  by_cases h : P
  · simp only [h, if_true, true_and]
    exact getD_orAt hj p v
  · simp only [h, if_false, false_and]
    exact (BitVec.or_zero).symm

/-- A loop whose turns write at most two words, from no bits at all. -/
theorem getLsbD_foldl_orAt {m n j b : ℕ} (hj : j < n) {P Q : ℕ → Prop} [DecidablePred P]
    [DecidablePred Q] (p q : ℕ → ℕ) (u v : ℕ → BitVec w) :
    (((List.range m).foldl (fun pn i =>
        let pn := if P i then orAt pn (p i) (u i) else pn
        if Q i then orAt pn (q i) (v i) else pn) (List.replicate n 0)).getD j 0).getLsbD b = true ↔
      ∃ i < m, (P i ∧ j = p i) ∧ (u i).getLsbD b = true ∨
        (Q i ∧ j = q i) ∧ (v i).getLsbD b = true := by
  rw [getLsbD_foldl_or (c := fun i j => (if P i ∧ j = p i then u i else 0) |||
    if Q i ∧ j = q i then v i else 0)]
  · rw [getD_replicate_zero, zero_getLsbD]
    simp only [Bool.false_eq_true, false_or, BitVec.getLsbD_or, Bool.or_eq_true, getLsbD_ite]
  · intro ts i
    dsimp only
    rw [length_ite_orAt, length_ite_orAt]
  · intro ts i j hj
    dsimp only
    rw [getD_ite_orAt (by rwa [length_ite_orAt]), getD_ite_orAt hj, BitVec.or_assoc]
  · rwa [List.length_replicate]

theorem bit_shiftLeft (hw : 0 < w) (as : List (BitVec w)) (n : ℕ) {x : ℕ}
    (hx : x < w * as.length) :
    bit (shiftLeft as n) x = (decide (n ≤ x) && bit as (x - n)) := by
  obtain ⟨k, s, hs, hk, hmod, rfl⟩ : ∃ k s, s < w ∧ n / w = k ∧ n % w = s ∧ n = w * k + s :=
    ⟨n / w, n % w, Nat.mod_lt _ hw, rfl, rfl, (Nat.div_add_mod n w).symm⟩
  obtain ⟨j, b, hb, rfl⟩ : ∃ j b, b < w ∧ x = w * j + b :=
    ⟨x / w, x % w, Nat.mod_lt _ hw, (Nat.div_add_mod x w).symm⟩
  have hj : j < as.length :=
    Nat.lt_of_mul_lt_mul_left (Nat.lt_of_le_of_lt (Nat.le_add_right _ b) hx)
  rw [Bool.eq_iff_iff, bit_mul_add hb, shiftLeft, hk, hmod, getLsbD_foldl_orAt hj, Bool.and_eq_true,
    decide_eq_true_iff]
  constructor
  · rintro ⟨i, hi, ⟨⟨⟨-, hpos⟩, rfl⟩, hbit⟩ | ⟨⟨-, rfl⟩, hbit⟩⟩
    · rw [BitVec.getLsbD_ushiftRight] at hbit
      have hlt := BitVec.lt_of_getLsbD hbit
      have heq : w * (i + k + 1) + b = w * i + (w - s + b) + (w * k + s) := by
        rw [Nat.mul_succ, Nat.mul_add]
        omega
      rw [heq, Nat.add_sub_cancel, bit_mul_add hlt]
      exact ⟨Nat.le_add_left _ _, hbit⟩
    · rw [BitVec.getLsbD_shiftLeft, Bool.and_eq_true, Bool.and_eq_true, Bool.not_eq_true',
        decide_eq_false_iff_not, not_lt] at hbit
      obtain ⟨⟨-, hle⟩, hbit⟩ := hbit
      have heq : w * (i + k) + b = w * i + (b - s) + (w * k + s) := by
        rw [Nat.mul_add]
        omega
      rw [heq, Nat.add_sub_cancel, bit_mul_add (by omega)]
      exact ⟨Nat.le_add_left _ _, hbit⟩
  · rintro ⟨hle, hbit⟩
    obtain ⟨i, c, hc, hsub⟩ : ∃ i c, c < w ∧ w * j + b - (w * k + s) = w * i + c :=
      ⟨_, _, Nat.mod_lt _ hw, (Nat.div_add_mod _ w).symm⟩
    rw [hsub, bit_mul_add hc] at hbit
    have heq : w * j + b = w * (i + k) + (c + s) := by
      rw [Nat.mul_add]
      omega
    -- the bit stays in its word or goes on to the next one
    rcases Nat.lt_or_ge (c + s) w with hlt | hge
    · obtain ⟨rfl, rfl⟩ := mul_add_inj hb hlt heq
      refine ⟨i, by omega, Or.inr ⟨⟨hj, rfl⟩, ?_⟩⟩
      rw [BitVec.getLsbD_shiftLeft, Nat.add_sub_cancel, hbit, Bool.and_true, Bool.and_eq_true,
        Bool.not_eq_true', decide_eq_false_iff_not, decide_eq_true_iff]
      exact ⟨hb, by omega⟩
    · have hnext : w * (i + k) + (c + s) = w * (i + k + 1) + (c + s - w) := by
        rw [Nat.mul_succ]
        omega
      obtain ⟨rfl, rfl⟩ := mul_add_inj hb (by omega) (heq.trans hnext)
      refine ⟨i, by omega, Or.inl ⟨⟨⟨hj, by omega⟩, rfl⟩, ?_⟩⟩
      have hback : w - s + (c + s - w) = c := by omega
      rw [BitVec.getLsbD_ushiftRight, hback, hbit]

theorem bit_shiftRight (hw : 0 < w) (as : List (BitVec w)) (n : ℕ) {x : ℕ}
    (hx : x < w * as.length) : bit (shiftRight as n) x = bit as (x + n) := by
  obtain ⟨k, s, hs, hk, hmod, rfl⟩ : ∃ k s, s < w ∧ n / w = k ∧ n % w = s ∧ n = w * k + s :=
    ⟨n / w, n % w, Nat.mod_lt _ hw, rfl, rfl, (Nat.div_add_mod n w).symm⟩
  obtain ⟨j, b, hb, rfl⟩ : ∃ j b, b < w ∧ x = w * j + b :=
    ⟨x / w, x % w, Nat.mod_lt _ hw, (Nat.div_add_mod x w).symm⟩
  have hj : j < as.length :=
    Nat.lt_of_mul_lt_mul_left (Nat.lt_of_le_of_lt (Nat.le_add_right _ b) hx)
  rw [Bool.eq_iff_iff, bit_mul_add hb, shiftRight, hk, hmod, getLsbD_foldl_orAt hj]
  constructor
  · rintro ⟨i, hi, ⟨⟨⟨hle, hpos⟩, rfl⟩, hbit⟩ | ⟨⟨hle, rfl⟩, hbit⟩⟩
    · rw [BitVec.getLsbD_shiftLeft, Bool.and_eq_true, Bool.and_eq_true, Bool.not_eq_true',
        decide_eq_false_iff_not, not_lt] at hbit
      obtain ⟨⟨-, hlow⟩, hbit⟩ := hbit
      obtain ⟨m, rfl⟩ : ∃ m, i = m + k + 1 := ⟨i - (k + 1), by omega⟩
      have hm : m + k + 1 - k - 1 = m := by omega
      have heq : w * m + b + (w * k + s) = w * (m + k + 1) + (b - (w - s)) := by
        rw [Nat.mul_succ, Nat.mul_add]
        omega
      rw [hm, heq, bit_mul_add (by omega)]
      exact hbit
    · rw [BitVec.getLsbD_ushiftRight] at hbit
      have hlt := BitVec.lt_of_getLsbD hbit
      obtain ⟨m, rfl⟩ : ∃ m, i = m + k := ⟨i - k, by omega⟩
      have heq : w * m + b + (w * k + s) = w * (m + k) + (s + b) := by
        rw [Nat.mul_add]
        omega
      rw [Nat.add_sub_cancel, heq, bit_mul_add hlt]
      exact hbit
  · intro hbit
    have heq : w * j + b + (w * k + s) = w * (j + k) + (s + b) := by
      rw [Nat.mul_add]
      omega
    rw [heq] at hbit
    rcases Nat.lt_or_ge (s + b) w with hlt | hge
    · rw [bit_mul_add hlt] at hbit
      refine ⟨j + k, lt_length_of_getLsbD hbit, Or.inr ⟨⟨by omega, by omega⟩, ?_⟩⟩
      rw [BitVec.getLsbD_ushiftRight]
      exact hbit
    · have hnext : w * (j + k) + (s + b) = w * (j + k + 1) + (s + b - w) := by
        rw [Nat.mul_succ]
        omega
      rw [hnext, bit_mul_add (by omega)] at hbit
      refine ⟨j + k + 1, lt_length_of_getLsbD hbit,
        Or.inl ⟨⟨⟨by omega, by omega⟩, by omega⟩, ?_⟩⟩
      have hback : b - (w - s) = s + b - w := by omega
      rw [BitVec.getLsbD_shiftLeft, hback, hbit, Bool.and_true, Bool.and_eq_true, Bool.not_eq_true',
        decide_eq_false_iff_not, decide_eq_true_iff]
      exact ⟨hb, by omega⟩

/-! The place of the highest bit. -/

/-- The inner loop of `bits()`, which does not look at the lowest bit. -/
def wordBits (a : BitVec w) : ℕ → ℕ
  | 0 => 1
  | bits + 1 => if a &&& (1#w <<< (bits + 1)) ≠ 0 then bits + 2 else wordBits a bits

/-- `bits()`, from the words below a place. -/
def bitLength (as : List (BitVec w)) : ℕ → ℕ
  | 0 => 0
  | pos + 1 =>
    let a := as.getD pos 0
    if a ≠ 0 then w * pos + wordBits a (w - 1) else bitLength as pos

theorem and_one_shiftLeft_ne_zero (a : BitVec w) (i : ℕ) :
    a &&& (1#w <<< i) ≠ 0 ↔ a.getLsbD i = true := by
  rw [← BitVec.twoPow_eq, BitVec.and_twoPow]
  cases hbit : a.getLsbD i with
  | false => simp
  | true =>
    have hlt := BitVec.lt_of_getLsbD hbit
    rw [if_pos rfl]
    refine iff_of_true (fun h0 => ?_) rfl
    have htrue : (BitVec.twoPow w i).getLsbD i = true := by simp [hlt]
    rw [h0, zero_getLsbD] at htrue
    cases htrue

theorem wordBits_spec {a : BitVec w} {b : ℕ} (h : ∃ c ≤ b, a.getLsbD c = true) :
    ∃ c ≤ b, wordBits a b = c + 1 ∧ a.getLsbD c = true ∧ ∀ d ≤ b, c < d → a.getLsbD d = false := by
  induction b with
  | zero =>
    obtain ⟨c, hc, hbit⟩ := h
    obtain rfl := Nat.le_zero.1 hc
    exact ⟨0, Nat.le_refl 0, rfl, hbit, fun d hd hlt => by omega⟩
  | succ b ih =>
    rw [wordBits]
    cases htop : a.getLsbD (b + 1) with
    | true =>
      rw [if_pos ((and_one_shiftLeft_ne_zero a _).2 htop)]
      exact ⟨b + 1, Nat.le_refl _, rfl, htop, fun d hd hlt => by omega⟩
    | false =>
      rw [if_neg fun hne => Bool.false_ne_true
        (htop.symm.trans ((and_one_shiftLeft_ne_zero a _).1 hne))]
      obtain ⟨c, hc, hbit⟩ := h
      have hne : c ≠ b + 1 := by
        rintro rfl
        exact Bool.false_ne_true (htop.symm.trans hbit)
      obtain ⟨c', hc', hbits, htrue, hfalse⟩ := ih ⟨c, by omega, hbit⟩
      refine ⟨c', by omega, hbits, htrue, fun d hd hlt => ?_⟩
      rcases Nat.le_succ_iff.1 hd with hle | rfl
      · exact hfalse d hle hlt
      · exact htop

theorem log2_of_testBit {n x : ℕ} (h : n.testBit x = true)
    (habove : ∀ i, x < i → n.testBit i = false) : n ≠ 0 ∧ n.log2 = x := by
  have hge := Nat.ge_two_pow_of_testBit h
  have hlt := Nat.lt_pow_two_of_testBit n fun i (hi : x + 1 ≤ i) => habove i hi
  have hne : n ≠ 0 := by
    have hpos := Nat.two_pow_pos x
    omega
  exact ⟨hne, (Nat.log2_eq_iff hne).2 ⟨hge, hlt⟩⟩

theorem bitLength_eq_of_above (hw : 0 < w) (as : List (BitVec w)) {pos : ℕ}
    (habove : ∀ i, w * pos ≤ i → bit as i = false) :
    bitLength as pos = if value as = 0 then 0 else (value as).log2 + 1 := by
  induction pos with
  | zero =>
    have hzero : value as = 0 := Nat.eq_of_testBit_eq fun i => by
      rw [testBit_value hw, habove i (by omega), Nat.zero_testBit]
    rw [if_pos hzero, bitLength]
  | succ pos ih =>
    rw [bitLength]
    by_cases hword : as.getD pos 0 = 0
    · rw [if_neg (not_not.2 hword)]
      refine ih fun i hi => ?_
      rcases Nat.lt_or_ge i (w * (pos + 1)) with hlt | hge
      · obtain ⟨b, rfl⟩ : ∃ b, i = w * pos + b := ⟨i - w * pos, by omega⟩
        have hb : b < w := by
          rw [Nat.mul_succ] at hlt
          omega
        rw [bit_mul_add hb, hword, zero_getLsbD]
      · exact habove i hge
    · rw [if_pos hword]
      have hsome : ∃ c ≤ w - 1, (as.getD pos 0).getLsbD c = true := by
        by_contra hnone
        refine hword (BitVec.eq_of_getLsbD_eq fun c hc => ?_)
        rw [zero_getLsbD, Bool.eq_false_iff]
        exact fun hbit => hnone ⟨c, by omega, hbit⟩
      obtain ⟨c, hc, hbits, htrue, hfalse⟩ := wordBits_spec hsome
      have htop : (value as).testBit (w * pos + c) = true := by
        rw [testBit_value hw, bit_mul_add (by omega), htrue]
      obtain ⟨hne, hlog⟩ := log2_of_testBit htop fun i hi => by
        rw [testBit_value hw]
        rcases Nat.lt_or_ge i (w * (pos + 1)) with hlt | hge
        · obtain ⟨b, rfl⟩ : ∃ b, i = w * pos + b := ⟨i - w * pos, by omega⟩
          have hb : b < w := by
            rw [Nat.mul_succ] at hlt
            omega
          rw [bit_mul_add hb]
          exact hfalse b (by omega) (by omega)
        · exact habove i hge
      rw [if_neg hne, hlog, hbits, Nat.add_assoc]

theorem bitLength_eq (hw : 0 < w) (as : List (BitVec w)) :
    bitLength as as.length = if value as = 0 then 0 else (value as).log2 + 1 := by
  refine bitLength_eq_of_above hw as fun i hi => ?_
  rw [Bool.eq_false_iff]
  intro hbit
  have hlt := lt_length_of_getLsbD hbit
  have hle : as.length ≤ i / w := (Nat.le_div_iff_mul_le hw).2 (by rwa [Nat.mul_comm])
  omega

end Shifts

/-! Values by their bits. -/

section Bits

theorem value_lt (as : List (BitVec w)) : value as < 2 ^ (w * as.length) := by
  induction as with
  | nil => exact Nat.one_pos.trans_le (Nat.one_le_two_pow)
  | cons a as ih =>
    have ha := a.isLt
    have hle : 2 ^ w * (value as + 1) ≤ 2 ^ w * 2 ^ (w * as.length) := Nat.mul_le_mul_left _ ih
    rw [value, List.length_cons, pow_words]
    rw [Nat.mul_add, Nat.mul_one] at hle
    omega

theorem testBit_value_of_le {as : List (BitVec w)} {i : ℕ} (h : w * as.length ≤ i) :
    (value as).testBit i = false :=
  Nat.testBit_lt_two_pow ((value_lt as).trans_le (Nat.pow_le_pow_right (by decide) h))

theorem length_foldl_orAt {P Q : ℕ → Prop} [DecidablePred P] [DecidablePred Q] (p q : ℕ → ℕ)
    (u v : ℕ → BitVec w) (is : List ℕ) (ts : List (BitVec w)) :
    (is.foldl (fun pn i =>
        let pn := if P i then orAt pn (p i) (u i) else pn
        if Q i then orAt pn (q i) (v i) else pn) ts).length = ts.length := by
  induction is generalizing ts with
  | nil => rfl
  | cons i is ih => rw [List.foldl_cons, ih, length_ite_orAt, length_ite_orAt]

theorem length_shiftLeft (as : List (BitVec w)) (n : ℕ) :
    (shiftLeft as n).length = as.length := by
  rw [shiftLeft, length_foldl_orAt, List.length_replicate]

theorem length_shiftRight (as : List (BitVec w)) (n : ℕ) :
    (shiftRight as n).length = as.length := by
  rw [shiftRight, length_foldl_orAt, List.length_replicate]

theorem value_shiftLeft (hw : 0 < w) (as : List (BitVec w)) (n : ℕ) :
    value (shiftLeft as n) = value as * 2 ^ n % 2 ^ (w * as.length) := by
  apply Nat.eq_of_testBit_eq
  intro i
  rw [Nat.testBit_mod_two_pow, Nat.testBit_mul_two_pow]
  by_cases hi : i < w * as.length
  · rw [testBit_value hw, bit_shiftLeft hw as n hi, decide_eq_true hi, Bool.true_and,
      testBit_value hw]
  · rw [testBit_value_of_le (by rw [length_shiftLeft]; exact not_lt.1 hi), decide_eq_false hi,
      Bool.false_and]

theorem value_shiftRight (hw : 0 < w) (as : List (BitVec w)) (n : ℕ) :
    value (shiftRight as n) = value as / 2 ^ n := by
  apply Nat.eq_of_testBit_eq
  intro i
  rw [Nat.testBit_div_two_pow]
  by_cases hi : i < w * as.length
  · rw [testBit_value hw, bit_shiftRight hw as n hi, testBit_value hw]
  · rw [testBit_value_of_le (by rw [length_shiftRight]; exact not_lt.1 hi),
      testBit_value_of_le (by omega)]

/-- A bit is set in the word that it belongs to. -/
theorem value_orAt_bit (hw : 0 < w) {ts : List (BitVec w)} {s : ℕ} (hs : s < w * ts.length) :
    value (orAt ts (s / w) (1#w <<< (s % w))) = value ts ||| 2 ^ s := by
  apply Nat.eq_of_testBit_eq
  intro i
  rw [Nat.testBit_or, Nat.testBit_two_pow, testBit_value hw, testBit_value hw]
  by_cases hi : i / w < ts.length
  · rw [bit, bit, getD_orAt hi, BitVec.getLsbD_or]
    congr 1
    rw [Bool.eq_iff_iff, getLsbD_ite, ← BitVec.twoPow_eq, BitVec.getLsbD_twoPow,
      Bool.and_eq_true, decide_eq_true_iff, decide_eq_true_iff, decide_eq_true_iff]
    constructor
    · rintro ⟨hdiv, -, hmod⟩
      rw [← Nat.div_add_mod i w, ← Nat.div_add_mod s w, hdiv, hmod]
    · rintro rfl
      exact ⟨rfl, Nat.mod_lt _ hw, rfl⟩
  · have hge : w * ts.length ≤ i := by
      have hle : ts.length * w ≤ i := (Nat.le_div_iff_mul_le hw).1 (not_lt.1 hi)
      rwa [Nat.mul_comm]
    have hne : s ≠ i := by omega
    have hout : ∀ as : List (BitVec w), as.length = ts.length → bit as i = false := by
      intro as hlen
      rw [← testBit_value hw, testBit_value_of_le (by rwa [hlen])]
    rw [hout _ (length_orAt _ _ _), hout ts rfl, decide_eq_false hne, Bool.false_or]

end Bits

/-! Sums, differences and the order. -/

section Sums

/-- `operator+=` -/
def addWords : BitVec (w + w) → List (BitVec w) → List (BitVec w) → List (BitVec w)
  | carry, a :: as, b :: bs =>
    let n := carry + a.setWidth (w + w) + b.setWidth (w + w)
    n.setWidth w :: addWords (n >>> w) as bs
  | _, as, _ => as

/-- `operator++` -/
def increment : List (BitVec w) → List (BitVec w)
  | [] => []
  | a :: as => (a + 1) :: if a + 1 = 0 then increment as else as

/-- `operator-` of a single number -/
def negate (as : List (BitVec w)) : List (BitVec w) := increment (as.map (~~~ ·))

/-- `operator-=` -/
def subWords (as bs : List (BitVec w)) : List (BitVec w) := addWords 0#(w + w) as (negate bs)

/-- `CompareTo`, from the words below a place. -/
def compareWords (as bs : List (BitVec w)) : ℕ → ℤ
  | 0 => 0
  | pos + 1 =>
    if as.getD pos 0 < bs.getD pos 0 then -1
    else if bs.getD pos 0 < as.getD pos 0 then 1
    else compareWords as bs pos

theorem length_addWords (carry : BitVec (w + w)) (as bs : List (BitVec w)) :
    (addWords carry as bs).length = as.length := by
  induction as generalizing carry bs with
  | nil => cases bs <;> rfl
  | cons a as ih =>
    cases bs with
    | nil => rfl
    | cons b bs => rw [addWords, List.length_cons, ih, List.length_cons]

theorem toNat_addWord {carry : BitVec (w + w)} (hw : 0 < w) (h : carry.toNat < 2 ^ w)
    (a b : BitVec w) : (carry + a.setWidth (w + w) + b.setWidth (w + w)).toNat =
      carry.toNat + a.toNat + b.toNat := by
  have hone : (1#w).toNat = 1 := by
    rw [BitVec.toNat_ofNat]
    exact Nat.mod_eq_of_lt (Nat.one_lt_two_pow hw.ne')
  have hwide : (1#w).setWidth (w + w) = 1#(w + w) := by
    apply BitVec.eq_of_toNat_eq
    rw [BitVec.toNat_setWidth, hone, BitVec.toNat_ofNat]
  have hsum := toNat_productAdd h a b 1#w
  rwa [productAdd, hwide, BitVec.mul_one, hone, Nat.mul_one] at hsum

theorem value_addWords (hw : 0 < w) {carry : BitVec (w + w)} (h : carry.toNat < 2 ^ w)
    {as bs : List (BitVec w)} (hlen : as.length ≤ bs.length) :
    value (addWords carry as bs) =
      (carry.toNat + value as + value bs) % 2 ^ (w * as.length) := by
  induction as generalizing carry bs with
  | nil =>
    rw [List.length_nil, Nat.mul_zero, Nat.pow_zero, Nat.mod_one]
    cases bs <;> rfl
  | cons a as ih =>
    cases bs with
    | nil => exact absurd hlen (Nat.not_succ_le_zero _)
    | cons b bs =>
      have hn := toNat_addWord hw h a b
      have hsum : carry.toNat + value (a :: as) + value (b :: bs) =
          carry.toNat + a.toNat + b.toNat + 2 ^ w * (value as + value bs) := by
        rw [value, value]
        ring
      rw [addWords, value, ih (high_lt _) (Nat.le_of_succ_le_succ hlen), toNat_low, toNat_high, hn,
        List.length_cons, hsum, mod_words, Nat.add_assoc _ (value as)]

theorem length_increment (as : List (BitVec w)) : (increment as).length = as.length := by
  induction as with
  | nil => rfl
  | cons a as ih =>
    rw [increment, List.length_cons, List.length_cons]
    split
    · rw [ih]
    · rfl

theorem value_increment (as : List (BitVec w)) :
    value (increment as) = (value as + 1) % 2 ^ (w * as.length) := by
  induction as with
  | nil =>
    rw [List.length_nil, Nat.mul_zero, Nat.pow_zero, Nat.mod_one]
    rfl
  | cons a as ih =>
    have hnext : (a + 1).toNat = (a.toNat + 1) % 2 ^ w := by
      rw [BitVec.toNat_add]
      exact Nat.add_mod_mod _ _ _
    have hlt := a.isLt
    have hsum : value (a :: as) + 1 = a.toNat + 1 + 2 ^ w * value as := by
      rw [value]
      ring
    rw [increment, value, List.length_cons, hsum, mod_words, hnext]
    congr 2
    by_cases hzero : a + 1 = 0
    · have hmod : (a.toNat + 1) % 2 ^ w = 0 := by
        rw [← hnext, hzero]
        rfl
      have hfull : a.toNat + 1 = 2 ^ w := by
        rcases Nat.lt_or_eq_of_le (Nat.succ_le_of_lt hlt) with hl | heq
        · rw [Nat.mod_eq_of_lt hl] at hmod
          cases hmod
        · exact heq
      rw [if_pos hzero, ih, hfull, Nat.div_self (Nat.two_pow_pos w), Nat.add_comm]
    · have hl : a.toNat + 1 < 2 ^ w := by
        refine Nat.lt_of_le_of_ne (Nat.succ_le_of_lt hlt) fun heq => hzero ?_
        apply BitVec.eq_of_toNat_eq
        rw [hnext, heq, Nat.mod_self]
        rfl
      rw [if_neg hzero, Nat.div_eq_of_lt hl, Nat.zero_add, Nat.mod_eq_of_lt (value_lt as)]

theorem value_map_not (as : List (BitVec w)) :
    value (as.map (~~~ ·)) + value as + 1 = 2 ^ (w * as.length) := by
  induction as with
  | nil => rfl
  | cons a as ih =>
    have ha := a.isLt
    have hsum : 2 ^ w * value (as.map (~~~ ·)) + 2 ^ w * value as + 2 ^ w =
        2 ^ w * 2 ^ (w * as.length) := by
      rw [← ih]
      ring
    rw [List.map_cons, value, value, BitVec.toNat_not, List.length_cons, pow_words]
    omega

theorem length_negate (as : List (BitVec w)) : (negate as).length = as.length := by
  rw [negate, length_increment, List.length_map]

theorem value_negate (as : List (BitVec w)) :
    value (negate as) = (2 ^ (w * as.length) - value as) % 2 ^ (w * as.length) := by
  have hnot := value_map_not as
  rw [negate, value_increment, List.length_map]
  congr 1
  omega

theorem length_subWords (as bs : List (BitVec w)) : (subWords as bs).length = as.length :=
  length_addWords _ _ _

theorem value_subWords (hw : 0 < w) {as bs : List (BitVec w)} (hlen : as.length = bs.length)
    (hle : value bs ≤ value as) : value (subWords as bs) = value as - value bs := by
  have hzero : (0#(w + w)).toNat = 0 := BitVec.toNat_zero
  have has := value_lt as
  have hbs := value_lt bs
  rw [subWords, value_addWords hw (by rw [hzero]; exact Nat.two_pow_pos w)
    (by rw [length_negate, hlen]), hzero, Nat.zero_add, value_negate, ← hlen, Nat.add_mod_mod]
  rw [← hlen] at hbs
  have hsum : value as + (2 ^ (w * as.length) - value bs) =
      value as - value bs + 2 ^ (w * as.length) := by omega
  rw [hsum, Nat.add_mod_right, Nat.mod_eq_of_lt (by omega)]

theorem value_take_succ (as : List (BitVec w)) (pos : ℕ) :
    value (as.take (pos + 1)) = value (as.take pos) + 2 ^ (w * pos) * (as.getD pos 0).toNat := by
  induction as generalizing pos with
  | nil => simp [value]
  | cons a as ih =>
    cases pos with
    | zero => simp [value]
    | succ pos =>
      rw [List.take_succ_cons, List.take_succ_cons, value, value, ih, List.getD_cons_succ,
        pow_words]
      ring

theorem value_take_lt (as : List (BitVec w)) (pos : ℕ) : value (as.take pos) < 2 ^ (w * pos) :=
  (value_lt _).trans_le (Nat.pow_le_pow_right (by decide)
    (Nat.mul_le_mul_left w (List.length_take_le pos as)))

/-- The highest word that differs decides. -/
theorem add_mul_lt_add_mul {x y a b m : ℕ} (hx : x < m) (h : a < b) :
    x + m * a < y + m * b := by
  have hle : m * (a + 1) ≤ m * b := Nat.mul_le_mul_left m h
  rw [Nat.mul_add, Nat.mul_one] at hle
  omega

theorem compareWords_eq (as bs : List (BitVec w)) (pos : ℕ) : compareWords as bs pos =
    if value (as.take pos) < value (bs.take pos) then -1
    else if value (bs.take pos) < value (as.take pos) then 1 else 0 := by
  induction pos with
  | zero => rfl
  | succ pos ih =>
    have has := value_take_lt as pos
    have hbs := value_take_lt bs pos
    rw [compareWords, value_take_succ, value_take_succ, ih]
    simp only [BitVec.lt_def]
    rcases Nat.lt_trichotomy (as.getD pos 0).toNat (bs.getD pos 0).toNat with h | h | h
    · rw [if_pos h, if_pos (add_mul_lt_add_mul has h)]
    · rw [h]
      simp only [Nat.lt_irrefl, if_false, Nat.add_lt_add_iff_right]
    · have hlt := add_mul_lt_add_mul (y := value (as.take pos)) hbs h
      rw [if_neg h.not_gt, if_pos h, if_neg hlt.not_gt, if_pos hlt]

theorem compareWords_all {as bs : List (BitVec w)} (hlen : as.length = bs.length) :
    compareWords as bs as.length =
      if value as < value bs then -1 else if value bs < value as then 1 else 0 := by
  rw [compareWords_eq, List.take_length, hlen, List.take_length]

end Sums

/-! The quotient, word by word. -/

section Quotient

def divideWords : ℕ → List (BitVec w) → List (BitVec w) → List (BitVec w) → List (BitVec w)
  | 0, _, _, quotient => quotient
  | shift + 1, num, div, quotient =>
    if 0 ≤ compareWords num div num.length then
      divideWords shift (subWords num div) (shiftRight div 1)
        (orAt quotient (shift / w) (1#w <<< (shift % w)))
    else divideWords shift num (shiftRight div 1) quotient

theorem length_divideWords (shift : ℕ) (num div quotient : List (BitVec w)) :
    (divideWords shift num div quotient).length = quotient.length := by
  induction shift generalizing num div quotient with
  | zero => rfl
  | succ shift ih =>
    rw [divideWords]
    split
    · rw [ih, length_orAt]
    · exact ih _ _ _

def toBits (k : ℕ) (as : List (BitVec w)) : BitVec (w * k) := BitVec.ofNat (w * k) (value as)

theorem toNat_toBits {k : ℕ} {as : List (BitVec w)} (hlen : as.length = k) :
    (toBits k as).toNat = value as := by
  rw [toBits, BitVec.toNat_ofNat]
  exact Nat.mod_eq_of_lt (hlen ▸ value_lt as)

/-- The loop over words is the one over numbers of so many bits. -/
theorem toBits_divideWords (hw : 0 < w) {k shift : ℕ} {num div quotient : List (BitVec w)}
    (hnum : num.length = k) (hdiv : div.length = k) (hquotient : quotient.length = k)
    (hshift : shift ≤ w * k) : toBits k (divideWords shift num div quotient) =
      divideLoop shift (toBits k num) (toBits k div) (toBits k quotient) := by
  induction shift generalizing num div quotient with
  | zero => rfl
  | succ shift ih =>
    have hhalf : toBits k (shiftRight div 1) = toBits k div >>> 1 := by
      apply BitVec.eq_of_toNat_eq
      rw [toNat_toBits ((length_shiftRight _ _).trans hdiv), value_shiftRight hw,
        BitVec.toNat_ushiftRight, toNat_toBits hdiv, Nat.shiftRight_eq_div_pow]
    have hle : 0 ≤ compareWords num div num.length ↔ toBits k div ≤ toBits k num := by
      rw [compareWords_all (hnum.trans hdiv.symm), BitVec.le_def, toNat_toBits hdiv,
        toNat_toBits hnum]
      split_ifs <;> omega
    have hdiv' := (length_shiftRight div 1).trans hdiv
    rw [divideWords, divideLoop, if_congr hle rfl rfl]
    split
    · rename_i hcmp
      have hvalue : value div ≤ value num := by
        rwa [BitVec.le_def, toNat_toBits hdiv, toNat_toBits hnum] at hcmp
      have hsub : toBits k (subWords num div) = toBits k num - toBits k div := by
        apply BitVec.eq_of_toNat_eq
        rw [BitVec.toNat_sub_of_le hcmp, toNat_toBits ((length_subWords _ _).trans hnum),
          value_subWords hw (hnum.trans hdiv.symm) hvalue, toNat_toBits hnum, toNat_toBits hdiv]
      have hset : toBits k (orAt quotient (shift / w) (1#w <<< (shift % w))) =
          toBits k quotient ||| 1#(w * k) <<< shift := by
        apply BitVec.eq_of_toNat_eq
        rw [toNat_toBits ((length_orAt _ _ _).trans hquotient),
          value_orAt_bit hw (by rw [hquotient]; omega), BitVec.toNat_or, toNat_toBits hquotient,
          ← BitVec.twoPow_eq, BitVec.toNat_twoPow,
          Nat.mod_eq_of_lt (Nat.pow_lt_pow_right (by decide) (by omega))]
      rw [ih ((length_subWords _ _).trans hnum) hdiv' ((length_orAt _ _ _).trans hquotient)
        (by omega), hsub, hhalf, hset]
    · rw [ih hnum hdiv' hquotient (by omega), hhalf]

end Quotient

end Limbs
