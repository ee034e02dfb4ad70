import Mathlib.Data.List.TakeWhile

/-! Texts as the C library reads them: white space and the terminating NUL. -/

namespace Scrypta

/-- `isspace` in the `C` locale. -/
def isSpace (c : Char) : Bool :=
  c = ' ' || c = '\t' || c = '\n' || c = '\x0b' || c = '\x0c' || c = '\x0d'

/-- A text before its terminator. -/
def CString := { s : List Char // '\x00' ∉ s }

/-- What `c_str` hands to a reader of a NUL-terminated text. -/
def cStr (str : List Char) : CString :=
  ⟨str.takeWhile (· ≠ '\x00'), fun h => absurd (List.mem_takeWhile_imp h) (by decide)⟩

theorem cStr_val_eq_self {str : List Char} (h : '\x00' ∉ str) : (cStr str).val = str := by
  rw [cStr, List.takeWhile_eq_self_iff]
  intro c hc
  exact decide_eq_true fun hnul => h (hnul ▸ hc)

theorem dropWhile_space {sp p : List Char} (hsp : ∀ c ∈ sp, isSpace c = true)
    (hp : ∀ c ∈ p.head?, isSpace c = false) : (sp ++ p).dropWhile isSpace = p := by
  induction sp with
  | nil =>
    cases p with
    | nil => rfl
    | cons c p => rw [List.nil_append, List.dropWhile_cons_of_neg (by simp [hp c rfl])]
  | cons c sp ih =>
    rw [List.cons_append, List.dropWhile_cons_of_pos (hsp c List.mem_cons_self),
      ih fun d hd => hsp d (List.mem_cons_of_mem _ hd)]

/-- A text without the white space around it. -/
def trim (str : List Char) : List Char :=
  ((str.dropWhile isSpace).reverse.dropWhile isSpace).reverse

theorem trim_eq {sp p sp' : List Char} (hsp : ∀ c ∈ sp, isSpace c = true)
    (hp : ∀ c ∈ p, isSpace c = false) (hsp' : ∀ c ∈ sp', isSpace c = true) :
    trim (sp ++ (p ++ sp')) = p := by
  have hback : ∀ c ∈ sp'.reverse, isSpace c = true := fun c hc => hsp' c (List.mem_reverse.mp hc)
  cases p with
  | nil =>
    have hall : (sp ++ ([] ++ sp')).dropWhile isSpace = [] := by
      rw [List.dropWhile_eq_nil_iff]
      intro c hc
      rw [List.nil_append, List.mem_append] at hc
      exact hc.elim (hsp c) (hsp' c)
    rw [trim, hall]
    rfl
  | cons c p =>
    rw [trim, dropWhile_space hsp fun d hd => ?_, List.reverse_append,
      dropWhile_space hback fun d hd => ?_, List.reverse_reverse]
    · exact hp d (List.mem_reverse.mp (List.mem_of_mem_head? hd))
    · rw [List.cons_append, List.head?_cons, Option.mem_some] at hd
      exact hp d (hd ▸ List.mem_cons_self)

end Scrypta
