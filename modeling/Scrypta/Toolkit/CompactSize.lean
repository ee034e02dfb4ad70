import Scrypta.Toolkit.LittleEndian

/-! Lengths as one, three, five or nine bytes: a length below 253 is its own byte, a marker byte
announces a longer one. -/

namespace CompactSize

open LittleEndian

def sizeOf (n : ℕ) : ℕ :=
  if n < 253 then 1
  else if n ≤ 0xffff then 3
  else if n ≤ 0xffffffff then 5
  else 9

def write (n : ℕ) : List UInt8 :=
  if n < 253 then [UInt8.ofNat n]
  else if n ≤ 0xffff then 253 :: encode 2 n
  else if n ≤ 0xffffffff then 254 :: encode 4 n
  else 255 :: encode 8 n

theorem length_write (n : ℕ) : (write n).length = sizeOf n := by
  unfold write sizeOf
  split
  · rfl
  · split
    · rw [List.length_cons, length_encode]
    · split <;> rw [List.length_cons, length_encode]

/-- One of the longer forms, which is not for a length below `least`. -/
def readLong (width least : ℕ) (bs : List UInt8) : Option (ℕ × List UInt8) :=
  if bs.length < width then none
  else if decode (bs.take width) < least then none
  else some (decode (bs.take width), bs.drop width)

/-- Only the shortest form of a length up to `maxSize` is read. -/
def read (maxSize : ℕ) : List UInt8 → Option (ℕ × List UInt8)
  | [] => none
  | b :: bs =>
    (if b.toNat < 253 then some (b.toNat, bs)
    else if b = 253 then readLong 2 253 bs
    else if b = 254 then readLong 4 0x10000 bs
    else readLong 8 0x100000000 bs).filter fun size => size.1 ≤ maxSize

/-- Read `n` values one after the other. -/
def readMany {α : Type*} (readOne : List UInt8 → Option (α × List UInt8)) :
    ℕ → List UInt8 → Option (List α × List UInt8)
  | 0, bs => some ([], bs)
  | n + 1, bs =>
    match readOne bs with
    | none => none
    | some (a, bs) =>
      match readMany readOne n bs with
      | none => none
      | some (as, bs) => some (a :: as, bs)

def writeVector {α : Type*} (writeOne : α → List UInt8) (as : List α) : List UInt8 :=
  write as.length ++ as.flatMap writeOne

def readVector {α : Type*} (maxSize : ℕ) (readOne : List UInt8 → Option (α × List UInt8))
    (bs : List UInt8) : Option (List α × List UInt8) :=
  match read maxSize bs with
  | none => none
  | some (n, bs) => readMany readOne n bs

theorem readLong_encode {width least n : ℕ} (hn : n < 256 ^ width) (hleast : least ≤ n)
    (bs : List UInt8) : readLong width least (encode width n ++ bs) = some (n, bs) := by
  have hlen := length_encode width n
  have hdec : decode ((encode width n ++ bs).take width) = n := by
    rw [List.take_left' hlen, decode_encode_of_lt hn]
  have hlong : ¬ (encode width n ++ bs).length < width := by
    simp [hlen]
  rw [readLong, if_neg hlong, hdec, if_neg (by omega), List.drop_left' hlen]

theorem read_write {maxSize n : ℕ} (hmax : n ≤ maxSize) (h64 : n < 2 ^ 64) (bs : List UInt8) :
    read maxSize (write n ++ bs) = some (n, bs) := by
  have hfilter : (some (n, bs)).filter (fun size => decide (size.1 ≤ maxSize)) = some (n, bs) := by
    simp [hmax]
  unfold write
  split
  · next h =>
    have hb : (UInt8.ofNat n).toNat = n := by
      simpa using Nat.mod_eq_of_lt (show n < 256 by omega)
    simp only [List.singleton_append, read, hb, if_pos h]
    exact hfilter
  · split
    · rw [List.cons_append, read, if_neg (by decide), if_pos rfl,
        readLong_encode (by omega) (by omega)]
      exact hfilter
    · split
      · rw [List.cons_append, read, if_neg (by decide), if_neg (by decide), if_pos rfl,
          readLong_encode (by omega) (by omega)]
        exact hfilter
      · rw [List.cons_append, read, if_neg (by decide), if_neg (by decide), if_neg (by decide),
          readLong_encode (by omega) (by omega)]
        exact hfilter

/-- A longer form that is read is the one of its length. -/
theorem eq_of_readLong {width least n : ℕ} {bs rest : List UInt8}
    (h : readLong width least bs = some (n, rest)) :
    least ≤ n ∧ n < 256 ^ width ∧ bs = encode width n ++ rest := by
  unfold readLong at h
  split at h
  · cases h
  · next hlong =>
    split at h
    · cases h
    · next hleast =>
      obtain ⟨rfl, rfl⟩ := Prod.mk.inj (Option.some.inj h)
      have hlen : (bs.take width).length = width := List.length_take_of_le (Nat.le_of_not_lt hlong)
      have hlt := decode_lt (bs.take width)
      have hencode := encode_decode (bs.take width)
      rw [hlen] at hlt hencode
      exact ⟨Nat.le_of_not_lt hleast, hlt, by rw [hencode, List.take_append_drop]⟩

/-- What is read as a length is what is written for it. -/
theorem eq_of_read {maxSize n : ℕ} {bs rest : List UInt8} (h : read maxSize bs = some (n, rest)) :
    n ≤ maxSize ∧ n < 2 ^ 64 ∧ bs = write n ++ rest := by
  cases bs with
  | nil => cases h
  | cons b bs =>
    obtain ⟨h, hmax⟩ := Option.filter_eq_some_iff.1 h
    refine ⟨of_decide_eq_true hmax, ?_⟩
    split at h
    · next hb =>
      obtain ⟨rfl, rfl⟩ := Prod.mk.inj (Option.some.inj h)
      have hbyte : UInt8.ofNat b.toNat = b := UInt8.ofNat_toNat
      exact ⟨by omega, by rw [write, if_pos hb, hbyte, List.singleton_append]⟩
    · split at h
      · next hb =>
        obtain ⟨hleast, hlt, rfl⟩ := eq_of_readLong h
        exact ⟨by omega, by rw [write, if_neg (by omega), if_pos (by omega), hb]; rfl⟩
      · split at h
        · next hb =>
          obtain ⟨hleast, hlt, rfl⟩ := eq_of_readLong h
          exact ⟨by omega,
            by rw [write, if_neg (by omega), if_neg (by omega), if_pos (by omega), hb]; rfl⟩
        · next h1 h2 h3 =>
          have hb : b = 255 := by
            have hlt := b.toNat_lt
            have h253 : b.toNat ≠ 253 := fun h => h2 (UInt8.toNat_inj.1 h)
            have h254 : b.toNat ≠ 254 := fun h => h3 (UInt8.toNat_inj.1 h)
            exact UInt8.toNat_inj.1 (show b.toNat = 255 by omega)
          obtain ⟨hleast, hlt, rfl⟩ := eq_of_readLong h
          exact ⟨by omega,
            by rw [write, if_neg (by omega), if_neg (by omega), if_neg (by omega), hb]; rfl⟩

theorem read_eq_some_iff {maxSize n : ℕ} {bs rest : List UInt8} :
    read maxSize bs = some (n, rest) ↔ n ≤ maxSize ∧ n < 2 ^ 64 ∧ bs = write n ++ rest := by
  constructor
  · exact eq_of_read
  · rintro ⟨hmax, h64, rfl⟩
    exact read_write hmax h64 rest

section Vectors

variable {α β : Type*} {readOne : List UInt8 → Option (α × List UInt8)} {writeOne : β → List UInt8}

/-- Each element is read back as `f` of it. -/
theorem readMany_write {f : β → α} {as : List β}
    (h : ∀ a ∈ as, ∀ bs, readOne (writeOne a ++ bs) = some (f a, bs)) (bs : List UInt8) :
    readMany readOne as.length (as.flatMap writeOne ++ bs) = some (as.map f, bs) := by
  induction as with
  | nil => rfl
  | cons a as ih =>
    have hrest := ih fun x hx => h x (List.mem_cons_of_mem _ hx)
    rw [List.flatMap_cons, List.append_assoc, List.length_cons, readMany,
      h a List.mem_cons_self]
    simp only [hrest, List.map_cons]

/-- A vector is read back when each of its elements is. -/
theorem readVector_write {maxSize : ℕ} {f : β → α} {as : List β} (hmax : as.length ≤ maxSize)
    (h64 : as.length < 2 ^ 64) (h : ∀ a ∈ as, ∀ bs, readOne (writeOne a ++ bs) = some (f a, bs))
    (bs : List UInt8) :
    readVector maxSize readOne (writeVector writeOne as ++ bs) = some (as.map f, bs) := by
  rw [readVector, writeVector, List.append_assoc, read_write hmax h64]
  exact readMany_write h bs

theorem exists_of_mem_readMany {n : ℕ} {bs bs' : List UInt8} {as : List α}
    (h : readMany readOne n bs = some (as, bs')) :
    ∀ a ∈ as, ∃ before after, readOne before = some (a, after) := by
  induction n generalizing bs as with
  | zero =>
    cases h
    exact fun a ha => nomatch ha
  | succ n ih =>
    rw [readMany] at h
    split at h
    · cases h
    · next hone =>
      split at h
      · cases h
      · next hmany =>
        cases h
        intro a ha
        rcases List.mem_cons.mp ha with rfl | ha
        · exact ⟨_, _, hone⟩
        · exact ih hmany a ha

/-- Every element of a vector was read by itself. -/
theorem exists_of_mem_readVector {maxSize : ℕ} {bs bs' : List UInt8} {as : List α}
    (h : readVector maxSize readOne bs = some (as, bs')) :
    ∀ a ∈ as, ∃ before after, readOne before = some (a, after) := by
  unfold readVector at h
  split at h
  · cases h
  · exact exists_of_mem_readMany h

end Vectors

end CompactSize
