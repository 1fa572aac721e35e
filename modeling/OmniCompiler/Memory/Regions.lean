import Mathlib.Data.List.Pairwise
import Mathlib.Tactic

/-!
# Regions of an address space

A region is given by its first address and its size. Objects that lie in regions are disjoint when
their regions are.
-/
namespace OmniCompiler.Memory

structure Region where
  ptr : ℕ
  size : ℕ
  deriving DecidableEq

namespace Region

variable {r t u : Region}

def Disjoint (r t : Region) : Prop := r.ptr + r.size ≤ t.ptr ∨ t.ptr + t.size ≤ r.ptr

def Within (r t : Region) : Prop := t.ptr ≤ r.ptr ∧ r.ptr + r.size ≤ t.ptr + t.size

instance (r t : Region) : Decidable (r.Disjoint t) := inferInstanceAs (Decidable (_ ∨ _))

instance (r t : Region) : Decidable (r.Within t) := inferInstanceAs (Decidable (_ ∧ _))

theorem Disjoint.symm (h : r.Disjoint t) : t.Disjoint r := Or.symm h

/-- A part of a region is disjoint from what the region is disjoint from. -/
theorem Disjoint.mono (h : t.Disjoint u) (hr : r.Within t) : r.Disjoint u := by
  obtain ⟨hbegin, hend⟩ := hr
  rcases h with h | h
  · exact Or.inl (hend.trans h)
  · exact Or.inr (h.trans hbegin)

theorem not_disjoint_of_ptr_eq (hr : 0 < r.size) (ht : 0 < t.size) (h : r.ptr = t.ptr) :
    ¬ r.Disjoint t := by
  unfold Disjoint
  omega

theorem Disjoint.ptr_ne (h : r.Disjoint t) (hr : 0 < r.size) (ht : 0 < t.size) : r.ptr ≠ t.ptr :=
  fun heq => not_disjoint_of_ptr_eq hr ht heq h

end Region

variable {α : Type*} {R : α → α → Prop} {l : List α} {x : α}

/-- In a list of objects that are pairwise disjoint, the others are disjoint from the one that is
taken out. -/
theorem related_of_mem_erase [DecidableEq α] (hsymm : ∀ {a b}, R a b → R b a) (h : l.Pairwise R)
    (hx : x ∈ l) : ∀ y ∈ l.erase x, R x y := by
  have hperm := List.perm_cons_erase hx
  have hcons := (hperm.pairwise_iff hsymm).mp h
  exact (List.pairwise_cons.mp hcons).1

theorem related_of_ne [DecidableEq α] (hsymm : ∀ {a b}, R a b → R b a) (h : l.Pairwise R) {y : α}
    (hx : x ∈ l) (hy : y ∈ l) (hne : y ≠ x) : R x y :=
  related_of_mem_erase hsymm h hx y ((List.mem_erase_of_ne hne).mpr hy)

end OmniCompiler.Memory
