import Mathlib.Data.List.Sort
import Mathlib.Order.Lattice

/-! Entries in the order of their values, where a value may stand any number of times. A new entry
goes behind those of its value. -/

structure Multimap (ν κ : Type*) [LinearOrder ν] where
  entries : List (ν × κ)
  sorted : entries.Pairwise fun a b => a.1 ≤ b.1

namespace Multimap

variable {ν κ : Type*} [LinearOrder ν]

def empty : Multimap ν κ := ⟨[], List.Pairwise.nil⟩

def insertEntry (a : ν × κ) : List (ν × κ) → List (ν × κ)
  | [] => [a]
  | b :: l => if a.1 < b.1 then a :: b :: l else b :: insertEntry a l

theorem perm_insertEntry (a : ν × κ) (l : List (ν × κ)) : (insertEntry a l).Perm (a :: l) := by
  induction l with
  | nil => exact List.Perm.refl _
  | cons b l ih =>
    rw [insertEntry]
    split
    · exact List.Perm.refl _
    · exact (ih.cons b).trans (List.Perm.swap a b l)

theorem pairwise_insertEntry (a : ν × κ) {l : List (ν × κ)}
    (h : l.Pairwise fun a b => a.1 ≤ b.1) :
    (insertEntry a l).Pairwise fun a b => a.1 ≤ b.1 := by
  induction l with
  | nil => exact List.pairwise_singleton _ a
  | cons b l ih =>
    obtain ⟨hb, hl⟩ := List.pairwise_cons.1 h
    rw [insertEntry]
    split
    · next hlt =>
      refine List.pairwise_cons.2 ⟨fun c hc => ?_, h⟩
      rcases List.mem_cons.1 hc with rfl | hc
      · exact hlt.le
      · exact hlt.le.trans (hb c hc)
    · next hge =>
      refine List.pairwise_cons.2 ⟨fun c hc => ?_, ih hl⟩
      rcases List.mem_cons.1 ((perm_insertEntry a l).mem_iff.1 hc) with rfl | hc
      · exact not_lt.1 hge
      · exact hb c hc

def insert (m : Multimap ν κ) (v : ν) (k : κ) : Multimap ν κ :=
  ⟨insertEntry (v, k) m.entries, pairwise_insertEntry (v, k) m.sorted⟩

def erase [DecidableEq κ] (m : Multimap ν κ) (v : ν) (k : κ) : Multimap ν κ :=
  ⟨m.entries.erase (v, k), m.sorted.sublist List.erase_sublist⟩

/-- The entries without the first one. -/
def eraseBegin (m : Multimap ν κ) : Multimap ν κ := ⟨m.entries.tail, m.sorted.tail⟩

theorem perm_insert (m : Multimap ν κ) (v : ν) (k : κ) :
    (m.insert v k).entries.Perm ((v, k) :: m.entries) := perm_insertEntry _ _

end Multimap
