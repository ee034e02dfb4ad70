import Mathlib.Data.Int.Notation
import Mathlib.Tactic.Ring
import Std.Data.String.ToInt

/-! Decimal numbers written one after the other without a separator, and all ways of reading such
a text back. -/

namespace Decimal

/-- The number with exactly this text. -/
def read (cs : List Char) : Option ℤ :=
  (String.ofList cs).toInt?.filter fun n => (toString n).toList = cs

theorem read_eq_some {cs : List Char} {n : ℤ} : read cs = some n ↔ (toString n).toList = cs := by
  unfold read
  rw [Option.filter_eq_some_iff]
  constructor
  · intro h
    simpa using h.2
  · intro h
    subst h
    rw [String.ofList_toList]
    exact ⟨Int.toInt?_repr n, by simp⟩

/-- The ways to cut a text in two. -/
def cuts (cs : List Char) : List (List Char × List Char) :=
  (List.range (cs.length + 1)).map fun i => (cs.take i, cs.drop i)

theorem mem_cuts {cs a b : List Char} : (a, b) ∈ cuts cs ↔ a ++ b = cs := by
  simp only [cuts, List.mem_map, List.mem_range, Prod.mk.injEq]
  constructor
  · intro h
    obtain ⟨i, _, rfl, rfl⟩ := h
    exact List.take_append_drop i cs
  · intro h
    subst h
    refine ⟨a.length, ?_, by simp, by simp⟩
    rw [List.length_append]
    omega

/-- The ways to read a text as two numbers. -/
def readTwo (cs : List Char) : List (ℤ × ℤ) :=
  (cuts cs).filterMap fun c => (read c.1).bind fun x => (read c.2).map fun y => (x, y)

/-- The ways to read a text as three numbers. -/
def readThree (cs : List Char) : List (ℤ × ℤ × ℤ) :=
  (cuts cs).flatMap fun c =>
    match read c.1 with
    | none => []
    | some x => (readTwo c.2).map fun yz => (x, yz)

theorem mem_readTwo {cs : List Char} {x y : ℤ} :
    (x, y) ∈ readTwo cs ↔ (toString x).toList ++ (toString y).toList = cs := by
  simp only [readTwo, List.mem_filterMap, Option.bind_eq_some_iff, Option.map_eq_some_iff,
    read_eq_some, Prod.mk.injEq]
  constructor
  · intro h
    obtain ⟨c, hc, x', hx, y', hy, rfl, rfl⟩ := h
    rw [hx, hy]
    exact mem_cuts.mp hc
  · intro h
    exact ⟨_, mem_cuts.mpr h, x, rfl, y, rfl, rfl, rfl⟩

theorem mem_readThree {cs : List Char} {x y z : ℤ} :
    (x, y, z) ∈ readThree cs ↔
      (toString x).toList ++ (toString y).toList ++ (toString z).toList = cs := by
  simp only [readThree, List.mem_flatMap]
  constructor
  · intro h
    obtain ⟨c, hc, h⟩ := h
    cases hx : read c.1 with
    | none => simp [hx] at h
    | some x' =>
      simp only [hx, List.mem_map, Prod.mk.injEq] at h
      obtain ⟨yz, hyz, rfl, rfl⟩ := h
      rw [List.append_assoc, mem_readTwo.mp hyz, read_eq_some.mp hx]
      exact mem_cuts.mp hc
  · intro h
    rw [List.append_assoc] at h
    refine ⟨_, mem_cuts.mpr h, ?_⟩
    rw [read_eq_some.mpr rfl]
    exact List.mem_map.mpr ⟨_, mem_readTwo.mpr rfl, rfl⟩

end Decimal
