import Mathlib.Algebra.Order.Field.Rat
import Mathlib.Tactic.FieldSimp
import Mathlib.Tactic.Ring
import Scrypta.CStrings
import Scrypta.CoinSelection

/-! Amounts of money as texts: `FormatMoney` and `ParseMoney`. -/

namespace Scrypta.Money

open CoinSelection (cent)

/-- The trimming loop of `FormatMoney` on the text read from its end: a zero goes when the character
two places before it is a digit. -/
def trimZeros : List Char → List Char
  | c :: a :: b :: str => if c = '0' && b.isDigit then trimZeros (a :: b :: str)
    else c :: a :: b :: str
  | str => str

def formatMoney (n : CAmount) (fPlus : Bool) : List Char :=
  let nAbs := if 0 < n then n else -n
  let quotient := (nAbs / coin).toNat
  let remainder := (nAbs % coin).toNat
  let str := Nat.toDigits 10 quotient ++
    '.' :: (Nat.toDigits 10 remainder).leftpad 8 '0'
  let str := (trimZeros str.reverse).reverse
  if n < 0 then '-' :: str else if fPlus && 0 < n then '+' :: str else str

/-- The digits after the point, and what follows them. -/
def unitsLoop (nUnits nMult : ℤ) : List Char → ℤ × List Char
  | [] => (nUnits, [])
  | c :: p =>
    if c.isDigit && 0 < nMult then
      unitsLoop (nUnits + nMult * (c.toNat - '0'.toNat : ℕ)) (nMult / 10) p
    else (nUnits, c :: p)

/-- The main loop of `ParseMoney`: the digits before the point, the units, and what follows. -/
def wholeLoop (strWhole : List Char) : List Char → Option (List Char × ℤ × List Char)
  | [] => some (strWhole, 0, [])
  | c :: p =>
    if c = '.' then
      let units := unitsLoop 0 (cent * 10) p
      some (strWhole, units.1, units.2)
    else if isSpace c then some (strWhole, 0, c :: p)
    else if !c.isDigit then none
    else wholeLoop (strWhole ++ [c]) p

/-- `strtoll` on a text of decimal digits. -/
def atoi64 (str : List Char) : ℤ := min (Nat.ofDigitChars 10 str 0 : ℕ) (2 ^ 63 - 1)

/-- `ParseMoney` on a text that ends before its first NUL, with what it leaves in `nRet`. -/
def parseMoneyPsz (pszIn : List Char) (nRet : CAmount) : Bool × CAmount :=
  match wholeLoop [] (pszIn.dropWhile isSpace) with
  | none => (false, nRet)
  | some (strWhole, nUnits, p) =>
    if !p.all isSpace then (false, nRet)
    else if 10 < strWhole.length then (false, nRet)
    else if nUnits < 0 || coin < nUnits then (false, nRet)
    else (true, toInt64 (toInt64 (atoi64 strWhole * coin) + nUnits))

def parseMoney (str : List Char) (nRet : CAmount) : Bool × CAmount :=
  parseMoneyPsz (cStr str).val nRet

/-- A decimal number with at most ten digits before and eight after the point, in white space. -/
structure MoneyText where
  before : List Char
  whole : List Char
  frac : Option (List Char)
  after : List Char
  before_space : ∀ c ∈ before, isSpace c = true
  whole_digit : ∀ c ∈ whole, c.isDigit = true
  whole_le : whole.length ≤ 10
  frac_digit : ∀ ds, frac = some ds → ∀ c ∈ ds, c.isDigit = true
  frac_le : ∀ ds, frac = some ds → ds.length ≤ 8
  after_space : ∀ c ∈ after, isSpace c = true

namespace MoneyText

/-- The point and the digits after it. -/
def tail (m : MoneyText) : List Char := m.frac.elim [] ('.' :: ·)

def text (m : MoneyText) : List Char := m.before ++ (m.whole ++ (m.tail ++ m.after))

/-- The number that the text denotes. -/
def amount (m : MoneyText) : ℚ :=
  (Nat.ofDigitChars 10 m.whole 0 : ℚ) +
    m.frac.elim 0 fun ds => (Nat.ofDigitChars 10 ds 0 : ℚ) / 10 ^ ds.length

/-- The part of the amount after the point, in units. -/
def units (m : MoneyText) : ℕ :=
  m.frac.elim 0 fun ds => Nat.ofDigitChars 10 ds 0 * 10 ^ (8 - ds.length)

def value (m : MoneyText) : ℕ := Nat.ofDigitChars 10 m.whole 0 * 10 ^ 8 + m.units

end MoneyText

section Digits

theorem digit_lt {c : Char} (h : c.isDigit = true) : c.toNat - '0'.toNat < 10 := by
  simp only [Char.isDigit, Bool.and_eq_true, decide_eq_true_eq, UInt32.le_iff_toNat_le] at h
  have hle : c.val.toNat ≤ 57 := h.2
  have hval : c.toNat = c.val.toNat := rfl
  have hzero : '0'.toNat = 48 := rfl
  omega

theorem ofDigitChars_cons_zero (c : Char) (ds : List Char) :
    Nat.ofDigitChars 10 (c :: ds) 0 =
      10 ^ ds.length * (c.toNat - '0'.toNat) + Nat.ofDigitChars 10 ds 0 := by
  rw [Nat.ofDigitChars_cons, Nat.ofDigitChars_eq_ofDigitChars_zero, Nat.mul_zero, Nat.zero_add]

theorem ofDigitChars_lt {ds : List Char} (h : ∀ c ∈ ds, c.isDigit = true) :
    Nat.ofDigitChars 10 ds 0 < 10 ^ ds.length := by
  induction ds with
  | nil => simp
  | cons c ds ih =>
    have hc := digit_lt (h c List.mem_cons_self)
    have hds := ih fun d hd => h d (List.mem_cons_of_mem _ hd)
    rw [ofDigitChars_cons_zero, List.length_cons, Nat.pow_succ]
    have hmul : 10 ^ ds.length * (c.toNat - '0'.toNat) ≤ 10 ^ ds.length * 9 :=
      Nat.mul_le_mul_left _ (by omega)
    omega

theorem isDigit_ne_dot {c : Char} (h : c.isDigit = true) : c ≠ '.' := by
  intro hdot
  subst hdot
  exact absurd h (by decide)

theorem isDigit_not_space {c : Char} (h : c.isDigit = true) : isSpace c = false := by
  by_contra hspace
  simp only [isSpace, Bool.not_eq_false, Bool.or_eq_true, decide_eq_true_eq] at hspace
  rcases hspace with ((((rfl | rfl) | rfl) | rfl) | rfl) | rfl <;> exact absurd h (by decide)

theorem isSpace_not_digit {c : Char} (h : isSpace c = true) : c.isDigit = false := by
  by_contra hdigit
  rw [isDigit_not_space (Bool.not_eq_false _ ▸ hdigit)] at h
  exact Bool.false_ne_true h

theorem isSpace_ne_dot {c : Char} (h : isSpace c = true) : c ≠ '.' := by
  intro hdot
  subst hdot
  exact absurd h (by decide)

end Digits

section Parsing

/-- The weight of the next digit when `k` digits may still follow the point. -/
theorem unitsLoop_eq (k : ℕ) (nUnits : ℤ) (ds p : List Char) (hds : ∀ c ∈ ds, c.isDigit = true)
    (hlen : ds.length ≤ k) (hp : ds.length = k ∨ ∀ c ∈ p.head?, c.isDigit = false) :
    unitsLoop nUnits ((10 ^ k / 10 : ℕ) : ℤ) (ds ++ p) =
      (nUnits + (Nat.ofDigitChars 10 ds 0 * 10 ^ (k - ds.length) : ℕ), p) := by
  induction ds generalizing k nUnits with
  | nil =>
    cases p with
    | nil => simp [unitsLoop]
    | cons c p =>
      rcases hp with rfl | hc
      · simp [unitsLoop]
      · simp [unitsLoop, hc c rfl]
  | cons c ds ih =>
    obtain ⟨k, rfl⟩ : ∃ j, k = j + 1 := Nat.exists_eq_succ_of_ne_zero (by
      rw [List.length_cons] at hlen
      omega)
    rw [List.length_cons, Nat.add_le_add_iff_right] at hlen
    have hnext := ih k (nUnits + (10 ^ k : ℕ) * (c.toNat - '0'.toNat : ℕ))
      (fun d hd => hds d (List.mem_cons_of_mem _ hd)) hlen (by simpa using hp)
    have hweight : (10 ^ (k + 1) / 10 : ℕ) = 10 ^ k := by
      rw [Nat.pow_succ, Nat.mul_div_cancel _ (by decide)]
    have hpos : (0 : ℤ) < ((10 ^ k : ℕ) : ℤ) := Int.natCast_pos.mpr (Nat.pow_pos (by decide))
    have hdiv : ((10 ^ k : ℕ) : ℤ) / 10 = ((10 ^ k / 10 : ℕ) : ℤ) := by norm_cast
    rw [hweight, List.cons_append, unitsLoop, hds c List.mem_cons_self,
      if_pos (by rw [Bool.true_and, decide_eq_true hpos]), hdiv, hnext,
      ofDigitChars_cons_zero, List.length_cons, Nat.add_sub_add_right]
    have hsplit : 10 ^ ds.length * (c.toNat - '0'.toNat) * 10 ^ (k - ds.length) =
        10 ^ k * (c.toNat - '0'.toNat) := by
      rw [Nat.mul_right_comm, ← Nat.pow_add, Nat.add_sub_of_le hlen]
    rw [Nat.add_mul, hsplit, Nat.cast_add, Nat.cast_mul (10 ^ k), add_assoc]

theorem wholeLoop_digits (acc ds p : List Char) (hds : ∀ c ∈ ds, c.isDigit = true) :
    wholeLoop acc (ds ++ p) = wholeLoop (acc ++ ds) p := by
  induction ds generalizing acc with
  | nil => rw [List.nil_append, List.append_nil]
  | cons c ds ih =>
    have hc := hds c List.mem_cons_self
    rw [List.cons_append, wholeLoop, if_neg (isDigit_ne_dot hc), isDigit_not_space hc,
      if_neg Bool.false_ne_true, hc, Bool.not_true, if_neg Bool.false_ne_true,
      ih _ fun d hd => hds d (List.mem_cons_of_mem _ hd), List.append_assoc,
      List.singleton_append]

theorem head?_space {p : List Char} (h : ∀ c ∈ p, isSpace c = true) :
    ∀ c ∈ p.head?, c.isDigit = false :=
  fun c hc => isSpace_not_digit (h c (List.mem_of_mem_head? hc))

theorem wholeLoop_space (acc : List Char) {p : List Char} (h : ∀ c ∈ p, isSpace c = true) :
    wholeLoop acc p = some (acc, 0, p) := by
  cases p with
  | nil => rfl
  | cons c p =>
    have hc := h c List.mem_cons_self
    rw [wholeLoop, if_neg (isSpace_ne_dot hc), if_pos hc]

/-- The main loop on a well-formed text. -/
theorem wholeLoop_text (m : MoneyText) :
    wholeLoop [] (m.whole ++ (m.tail ++ m.after)) = some (m.whole, (m.units : ℤ), m.after) := by
  rw [wholeLoop_digits _ _ _ m.whole_digit, List.nil_append]
  cases hfrac : m.frac with
  | none => simp [MoneyText.tail, MoneyText.units, hfrac, wholeLoop_space _ m.after_space]
  | some ds =>
    have hunits := unitsLoop_eq 8 0 ds m.after (m.frac_digit ds hfrac) (m.frac_le ds hfrac)
      (.inr (head?_space m.after_space))
    have hmult : cent * 10 = ((10 ^ 8 / 10 : ℕ) : ℤ) := rfl
    simp only [MoneyText.tail, MoneyText.units, hfrac, Option.elim_some, List.cons_append,
      wholeLoop, if_true, hmult, hunits, zero_add]

/-- White space before the text goes; where nothing but white space follows, all of it goes. -/
theorem dropWhile_text (m : MoneyText) :
    m.text.dropWhile isSpace = m.whole ++ (m.tail ++ m.after) ∨
      m.text.dropWhile isSpace = [] ∧ m.whole = [] ∧ m.frac = none := by
  have hskip := dropWhile_space (p := m.whole ++ (m.tail ++ m.after)) m.before_space
  cases hwhole : m.whole with
  | cons c ds =>
    rw [← hwhole]
    refine .inl (hskip fun d hd => ?_)
    rw [hwhole, List.cons_append, List.head?_cons, Option.mem_some] at hd
    exact hd ▸ isDigit_not_space (m.whole_digit c (hwhole ▸ List.mem_cons_self))
  | nil =>
    cases hfrac : m.frac with
    | some ds =>
      rw [← hwhole]
      refine .inl (hskip fun d hd => ?_)
      rw [hwhole, MoneyText.tail, hfrac, Option.elim_some, List.nil_append, List.cons_append,
        List.head?_cons, Option.mem_some] at hd
      exact hd ▸ (by decide)
    | none =>
      have htext : m.text = m.before ++ m.after := by
        simp [MoneyText.text, MoneyText.tail, hwhole, hfrac]
      refine .inr ⟨List.dropWhile_eq_nil_iff.mpr fun c hc => ?_, rfl, rfl⟩
      rw [htext, List.mem_append] at hc
      exact hc.elim (m.before_space c) (m.after_space c)

theorem value_lt (m : MoneyText) : m.value < 10 ^ 18 ∧ m.units < 10 ^ 8 := by
  have hwhole : Nat.ofDigitChars 10 m.whole 0 < 10 ^ 10 :=
    (ofDigitChars_lt m.whole_digit).trans_le (Nat.pow_le_pow_right (by decide) m.whole_le)
  have hunits : m.units < 10 ^ 8 := by
    cases hfrac : m.frac with
    | none => simp [MoneyText.units, hfrac]
    | some ds =>
      have hds := ofDigitChars_lt (m.frac_digit ds hfrac)
      calc m.units = Nat.ofDigitChars 10 ds 0 * 10 ^ (8 - ds.length) := by
            simp [MoneyText.units, hfrac]
        _ < 10 ^ ds.length * 10 ^ (8 - ds.length) :=
            Nat.mul_lt_mul_of_pos_right hds (Nat.pow_pos (by decide))
        _ = 10 ^ 8 := by rw [← Nat.pow_add, Nat.add_sub_of_le (m.frac_le ds hfrac)]
  refine ⟨?_, hunits⟩
  unfold MoneyText.value
  omega

theorem parseMoneyPsz_text (m : MoneyText) (nRet : CAmount) :
    parseMoneyPsz m.text nRet = (true, (m.value : ℤ)) := by
  obtain ⟨hvalue, hunits⟩ := value_lt m
  have hloop : ∃ p, wholeLoop [] (m.text.dropWhile isSpace) =
      some (m.whole, (m.units : ℤ), p) ∧ ∀ c ∈ p, isSpace c = true := by
    rcases dropWhile_text m with hrest | ⟨hrest, hwhole, hfrac⟩
    · exact ⟨m.after, hrest ▸ wholeLoop_text m, m.after_space⟩
    · refine ⟨[], ?_, fun c hc => absurd hc List.not_mem_nil⟩
      simp [hrest, hwhole, MoneyText.units, hfrac, wholeLoop]
  obtain ⟨p, hloop, hp⟩ := hloop
  have hwhole : atoi64 m.whole * coin = (Nat.ofDigitChars 10 m.whole 0 * 10 ^ 8 : ℕ) := by
    unfold MoneyText.value at hvalue
    rw [atoi64, min_eq_left (by omega), coin]
    push_cast
    rfl
  have hsum : (m.value : ℤ) = (Nat.ofDigitChars 10 m.whole 0 * 10 ^ 8 : ℕ) + (m.units : ℤ) :=
    Nat.cast_add _ _
  have hrange : ¬((m.units : ℤ) < 0 ∨ coin < m.units) :=
    not_or.mpr ⟨by omega, not_lt.mpr (show (m.units : ℤ) ≤ 100000000 by omega)⟩
  simp only [parseMoneyPsz, hloop, List.all_eq_true.mpr hp, Bool.not_true, Bool.false_eq_true,
    if_false, if_neg (Nat.not_lt.mpr m.whole_le), Bool.or_eq_true, decide_eq_true_eq,
    hrange, hwhole]
  rw [toInt64_eq_self (x := (Nat.ofDigitChars 10 m.whole 0 * 10 ^ 8 : ℕ)) (by omega) (by omega),
    ← hsum, toInt64_eq_self (by omega) (by omega)]

theorem unitsLoop_split {nUnits u : ℤ} {k : ℕ} {p r : List Char}
    (h : unitsLoop nUnits ((10 ^ k / 10 : ℕ) : ℤ) p = (u, r)) :
    ∃ ds, p = ds ++ r ∧ (∀ c ∈ ds, c.isDigit = true) ∧ ds.length ≤ k := by
  induction p generalizing nUnits k with
  | nil =>
    obtain ⟨-, rfl⟩ := Prod.mk.inj h
    exact ⟨[], rfl, fun c hc => absurd hc List.not_mem_nil, Nat.zero_le k⟩
  | cons c p ih =>
    rw [unitsLoop] at h
    split at h
    · rename_i hguard
      obtain ⟨hc, hpos⟩ := Bool.and_eq_true_iff.mp hguard
      cases k with
      | zero => exact absurd hpos (by simp)
      | succ k =>
        have hdiv : ((10 ^ (k + 1) / 10 : ℕ) : ℤ) / 10 = ((10 ^ k / 10 : ℕ) : ℤ) := by
          rw [Nat.pow_succ, Nat.mul_div_cancel _ (by decide)]
          norm_cast
        rw [hdiv] at h
        obtain ⟨ds, rfl, hds, hlen⟩ := ih h
        exact ⟨c :: ds, rfl, List.forall_mem_cons.mpr ⟨hc, hds⟩, Nat.succ_le_succ hlen⟩
    · obtain ⟨-, rfl⟩ := Prod.mk.inj h
      exact ⟨[], rfl, fun d hd => absurd hd List.not_mem_nil, Nat.zero_le k⟩

theorem wholeLoop_split {acc strWhole p r : List Char} {u : ℤ}
    (h : wholeLoop acc p = some (strWhole, u, r)) :
    ∃ ds frac, strWhole = acc ++ ds ∧ p = ds ++ (Option.elim frac [] ('.' :: ·) ++ r) ∧
      (∀ c ∈ ds, c.isDigit = true) ∧
      ∀ xs, frac = some xs → (∀ c ∈ xs, c.isDigit = true) ∧ xs.length ≤ 8 := by
  induction p generalizing acc with
  | nil =>
    simp only [wholeLoop, Option.some.injEq, Prod.mk.injEq] at h
    obtain ⟨rfl, -, rfl⟩ := h
    exact ⟨[], none, (List.append_nil _).symm, rfl, by simp, by simp⟩
  | cons c p ih =>
    rw [wholeLoop] at h
    split_ifs at h with hdot hspace hdigit
    · simp only [Option.some.injEq, Prod.mk.injEq] at h
      obtain ⟨rfl, hu, hr⟩ := h
      obtain ⟨xs, hp, hxs, hlen⟩ := unitsLoop_split (k := 8) (Prod.ext hu hr)
      refine ⟨[], some xs, (List.append_nil _).symm, ?_, by simp, ?_⟩
      · rw [hdot, hp]
        rfl
      · intro ys hys
        exact Option.some.inj hys ▸ ⟨hxs, hlen⟩
    · simp only [Option.some.injEq, Prod.mk.injEq] at h
      obtain ⟨rfl, -, rfl⟩ := h
      exact ⟨[], none, (List.append_nil _).symm, rfl, by simp, by simp⟩
    · obtain ⟨ds, frac, hwhole, hp, hds, hfrac⟩ := ih h
      refine ⟨c :: ds, frac, ?_, ?_, List.forall_mem_cons.mpr ⟨?_, hds⟩, hfrac⟩
      · rw [hwhole, List.append_assoc, List.singleton_append]
      · rw [hp, List.cons_append]
      · simpa using hdigit

/-- What `ParseMoney` accepts is a well-formed text. -/
theorem text_of_parseMoneyPsz {str : List Char} {nRet v : CAmount}
    (h : parseMoneyPsz str nRet = (true, v)) : ∃ m : MoneyText, m.text = str := by
  unfold parseMoneyPsz at h
  split at h
  · exact absurd (Prod.mk.inj h).1 Bool.false_ne_true
  · rename_i strWhole nUnits p hloop
    split_ifs at h with hspace hlen hrange
    · exact absurd (Prod.mk.inj h).1 Bool.false_ne_true
    · exact absurd (Prod.mk.inj h).1 Bool.false_ne_true
    · exact absurd (Prod.mk.inj h).1 Bool.false_ne_true
    · obtain ⟨ds, frac, hwhole, hp, hds, hfrac⟩ := wholeLoop_split hloop
      rw [List.nil_append] at hwhole
      subst hwhole
      refine ⟨⟨str.takeWhile isSpace, strWhole, frac, p, fun c hc => List.mem_takeWhile_imp hc, hds,
        Nat.le_of_not_lt hlen, fun xs hxs => (hfrac xs hxs).1, fun xs hxs => (hfrac xs hxs).2,
        by simpa using hspace⟩, ?_⟩
      rw [MoneyText.text, MoneyText.tail, ← hp, List.takeWhile_append_dropWhile]

theorem parseMoneyPsz_iff {str : List Char} {nRet v : CAmount} :
    parseMoneyPsz str nRet = (true, v) ↔ ∃ m : MoneyText, m.text = str ∧ (m.value : ℤ) = v := by
  constructor
  · intro h
    obtain ⟨m, rfl⟩ := text_of_parseMoneyPsz h
    rw [parseMoneyPsz_text] at h
    exact ⟨m, rfl, (Prod.mk.inj h).2⟩
  · rintro ⟨m, rfl, rfl⟩
    exact parseMoneyPsz_text m nRet

/-- A refused text leaves the amount as it was. -/
theorem parseMoneyPsz_refused {str : List Char} {nRet : CAmount}
    (h : (parseMoneyPsz str nRet).1 = false) : parseMoneyPsz str nRet = (false, nRet) := by
  unfold parseMoneyPsz at h ⊢
  split
  · rfl
  · split_ifs <;> first | rfl | simp_all

theorem value_eq_amount (m : MoneyText) : (m.value : ℚ) = m.amount * coin := by
  have hcoin : ((coin : ℤ) : ℚ) = 10 ^ 8 := by norm_num [coin]
  cases hfrac : m.frac with
  | none =>
    simp only [MoneyText.value, MoneyText.units, MoneyText.amount, hfrac, Option.elim_none, hcoin,
      add_zero, Nat.cast_mul, Nat.cast_pow, Nat.cast_ofNat]
  | some ds =>
    have hsplit : (10 : ℚ) ^ 8 = 10 ^ (8 - ds.length) * 10 ^ ds.length := by
      rw [← pow_add, Nat.sub_add_cancel (m.frac_le ds hfrac)]
    simp only [MoneyText.value, MoneyText.units, MoneyText.amount, hfrac, Option.elim_some, hcoin,
      Nat.cast_add, Nat.cast_mul, Nat.cast_pow, Nat.cast_ofNat, add_mul]
    rw [hsplit]
    field_simp

end Parsing

section Formatting

theorem trimZeros_fraction (ds w : List Char) (hds : ∀ c ∈ ds, c.isDigit = true)
    (hlen : 2 ≤ ds.length) :
    ∃ k ds', ds = List.replicate k '0' ++ ds' ∧ trimZeros (ds ++ '.' :: w) = ds' ++ '.' :: w := by
  induction ds with
  | nil => exact absurd hlen (by decide)
  | cons c ds ih =>
    match ds with
    | [] => exact absurd hlen (by simp)
    | [a] => exact ⟨0, [c, a], rfl, by simp [trimZeros]⟩
    | a :: b :: ds =>
      have hb : b.isDigit = true := hds b (by simp)
      by_cases hc : c = '0'
      · obtain ⟨k, ds', hsplit, htrim⟩ :=
          ih (fun d hd => hds d (List.mem_cons_of_mem _ hd)) (by simp)
        refine ⟨k + 1, ds', ?_, ?_⟩
        · rw [hsplit, hc, List.replicate_succ, List.cons_append]
        · rw [← htrim]
          simp [trimZeros, hc, hb]
      · exact ⟨0, c :: a :: b :: ds, rfl, by simp [trimZeros, hc]⟩

/-- The eight digits after the point. -/
theorem leftpad_digits {r : ℕ} (hr : r < 10 ^ 8) :
    ((Nat.toDigits 10 r).leftpad 8 '0').length = 8 ∧
      (∀ c ∈ (Nat.toDigits 10 r).leftpad 8 '0', c.isDigit = true) ∧
      Nat.ofDigitChars 10 ((Nat.toDigits 10 r).leftpad 8 '0') 0 = r := by
  have hlen : (Nat.toDigits 10 r).length ≤ 8 :=
    (Nat.length_toDigits_le_iff (by decide) (by decide)).mpr hr
  refine ⟨?_, fun c hc => ?_, ?_⟩
  · rw [List.length_leftpad, max_eq_left hlen]
  · rw [List.leftpad, List.mem_append, List.mem_replicate] at hc
    rcases hc with ⟨-, rfl⟩ | hc
    · rfl
    · exact Nat.isDigit_of_mem_toDigits (by decide) (by decide) hc
  · rw [List.leftpad, Nat.ofDigitChars_append, Nat.ofDigitChars_replicate_zero, Nat.mul_zero,
      Nat.ofDigitChars_ten_toDigits]

/-- The text of an amount that is not negative: trimming takes zeros from the end of the eight
digits after the point and leaves the number as it was. -/
theorem formatMoney_text {n : ℤ} (h0 : 0 ≤ n) (hn : n < 10 ^ 18) :
    ∃ m : MoneyText, m.text = formatMoney n false ∧ (m.value : ℤ) = n := by
  lift n to ℕ using h0
  have hquotient : ((n : ℤ) / coin).toNat = n / 10 ^ 8 := by
    rw [show coin = ((10 ^ 8 : ℕ) : ℤ) from rfl, ← Int.natCast_div, Int.toNat_natCast]
  have hremainder : ((n : ℤ) % coin).toNat = n % 10 ^ 8 := by
    rw [show coin = ((10 ^ 8 : ℕ) : ℤ) from rfl, ← Int.natCast_mod, Int.toNat_natCast]
  have habs : (if (0 : ℤ) < n then (n : ℤ) else -n) = n := by
    split_ifs <;> omega
  obtain ⟨hlen, hdigits, hvalue⟩ := leftpad_digits (Nat.mod_lt n (show 0 < 10 ^ 8 by decide))
  obtain ⟨k, ds, hsplit, htrim⟩ := trimZeros_fraction
    ((Nat.toDigits 10 (n % 10 ^ 8)).leftpad 8 '0').reverse (Nat.toDigits 10 (n / 10 ^ 8)).reverse
    (fun c hc => hdigits c (List.mem_reverse.mp hc)) (by rw [List.length_reverse, hlen]; decide)
  have hfrac : (Nat.toDigits 10 (n % 10 ^ 8)).leftpad 8 '0' =
      ds.reverse ++ List.replicate k '0' := by
    rw [← List.reverse_reverse ((Nat.toDigits 10 (n % 10 ^ 8)).leftpad 8 '0'), hsplit,
      List.reverse_append, List.reverse_replicate]
  rw [hfrac, List.length_append, List.length_replicate] at hlen
  rw [hfrac, Nat.ofDigitChars_append, Nat.ofDigitChars_replicate_zero] at hvalue
  refine ⟨⟨[], Nat.toDigits 10 (n / 10 ^ 8), some ds.reverse, [], by simp,
    fun c hc => Nat.isDigit_of_mem_toDigits (by decide) (by decide) hc,
    (Nat.length_toDigits_le_iff (by decide) (by decide)).mpr (by omega), ?_, ?_, by simp⟩, ?_, ?_⟩
  · intro xs hxs c hc
    rw [← Option.some.inj hxs] at hc
    exact hdigits c (hfrac ▸ List.mem_append_left _ hc)
  · intro xs hxs
    rw [← Option.some.inj hxs]
    omega
  · simp only [formatMoney, habs, hquotient, hremainder, List.reverse_append, List.reverse_cons,
      List.append_assoc, List.singleton_append, htrim, Bool.false_and, Bool.false_eq_true, if_false,
      if_neg (Int.not_lt.mpr (Int.natCast_nonneg n)), List.reverse_reverse]
    simp [MoneyText.text, MoneyText.tail]
  · have hk : 8 - ds.reverse.length = k := by omega
    simp only [MoneyText.value, MoneyText.units, Option.elim_some, Nat.ofDigitChars_ten_toDigits,
      hk]
    rw [Nat.mul_comm _ (10 ^ k), hvalue, Nat.div_add_mod']

end Formatting

section Texts

theorem nul_notMem_text (m : MoneyText) : '\x00' ∉ m.text := by
  have hfrac : '\x00' ∉ m.tail := by
    cases hf : m.frac with
    | none => simp [MoneyText.tail, hf]
    | some ds =>
      intro h
      rw [MoneyText.tail, hf, Option.elim_some, List.mem_cons] at h
      rcases h with h | h
      · exact absurd h (by decide)
      · exact absurd (m.frac_digit ds hf _ h) (by decide)
  simp only [MoneyText.text, List.mem_append, not_or]
  exact ⟨fun h => absurd (m.before_space _ h) (by decide),
    fun h => absurd (m.whole_digit _ h) (by decide), hfrac,
    fun h => absurd (m.after_space _ h) (by decide)⟩

/-- A text is read as the number that it denotes, and a text that denotes none leaves the amount as
it was. -/
def ParsesText (str : List Char) : Prop :=
  (∀ nRet v, parseMoney str nRet = (true, v) ↔
      ∃ m : MoneyText, m.text = str ∧ (v : ℚ) = m.amount * coin) ∧
    ∀ nRet, (parseMoney str nRet).1 = false → parseMoney str nRet = (false, nRet)

theorem amount_eq_iff {m : MoneyText} {v : CAmount} :
    (v : ℚ) = m.amount * coin ↔ (m.value : ℤ) = v := by
  rw [← value_eq_amount]
  constructor
  · intro h
    exact_mod_cast h.symm
  · intro h
    exact_mod_cast h.symm

theorem parsesText_iff {str : List Char} :
    ParsesText str ↔ '\x00' ∉ str ∨ ¬∃ m : MoneyText, m.text = (cStr str).val := by
  simp only [ParsesText, amount_eq_iff, parseMoney, parseMoneyPsz_iff]
  constructor
  · rintro ⟨hreads, -⟩
    by_contra hnot
    obtain ⟨hnul, m, hm⟩ := not_or.mp hnot |>.imp Decidable.of_not_not Classical.not_not.mp
    obtain ⟨m', hm', -⟩ := (hreads 0 m.value).mp ⟨m, hm, rfl⟩
    exact nul_notMem_text m' (hm' ▸ hnul)
  · intro hcond
    refine ⟨fun nRet v => ?_, fun nRet h => parseMoneyPsz_refused h⟩
    rcases hcond with hnul | hnone
    · rw [cStr_val_eq_self hnul]
    · constructor
      · rintro ⟨m, hm, -⟩
        exact absurd ⟨m, hm⟩ hnone
      · rintro ⟨m, hm, -⟩
        exact absurd ⟨m, by rw [← hm, cStr_val_eq_self (nul_notMem_text m)]⟩ hnone

/-- An amount below `10 ^ 18` comes back from its text. A text is read as the number that it denotes
exactly when no money text ends at a NUL inside of it, and what is read fits in 64 bits. -/
theorem money_texts (str : List Char) :
    (∀ n nRet : ℤ, 0 ≤ n → n < 10 ^ 18 → parseMoney (formatMoney n false) nRet = (true, n)) ∧
      (∀ m : MoneyText, m.value < 10 ^ 18) ∧
      (ParsesText str ↔ '\x00' ∉ str ∨ ¬∃ m : MoneyText, m.text = (cStr str).val) := by
  refine ⟨fun n nRet h0 hn => ?_, fun m => (value_lt m).1, parsesText_iff⟩
  obtain ⟨m, htext, hvalue⟩ := formatMoney_text h0 hn
  rw [parseMoney, ← htext, cStr_val_eq_self (nul_notMem_text m), parseMoneyPsz_text, hvalue]

theorem money_texts_trimmed :
    parseMoney (formatMoney 150000000 false) 7 = (true, 150000000) ∧
      ParsesText [' ', '1', '.', '5'] :=
  ⟨(money_texts []).1 150000000 7 (by decide) (by decide),
    (money_texts [' ', '1', '.', '5']).2.2.mpr (.inl (by decide))⟩

/-- What follows a NUL is not read. -/
theorem reads_before_nul : ¬∀ str, ParsesText str := by
  intro h
  obtain ⟨m, hm, -⟩ := ((h ['1', '\x00', 'x']).1 0 100000000).mp (by decide)
  exact nul_notMem_text m (hm ▸ by decide)

end Texts

end Scrypta.Money
