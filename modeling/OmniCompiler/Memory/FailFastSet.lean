import Mathlib.Data.List.Nodup
import Mathlib.Tactic

/-!
# Sets with fail-fast iterators

A set keeps its elements in some order and counts its modifications. An iterator visits them in this
order and fails when it is advanced after a modification that was not made through it.
-/
namespace OmniCompiler.Memory

/-- A set with the order in which an iterator visits its elements. -/
structure FailFastSet (α : Type*) where
  elements : List α
  nodup : elements.Nodup
  modCount : ℕ

structure FailFastIterator (α : Type*) where
  rest : List α
  expectedModCount : ℕ

inductive IteratorError
  | concurrentModification

namespace FailFastSet

variable {α : Type*} [DecidableEq α]

instance : Membership α (FailFastSet α) := ⟨fun s x => x ∈ s.elements⟩

def remove (s : FailFastSet α) (x : α) : FailFastSet α :=
  if x ∈ s.elements then
    { elements := s.elements.erase x
      nodup := s.nodup.erase x
      modCount := s.modCount + 1 }
  else s

omit [DecidableEq α] in
def iterator (s : FailFastSet α) : FailFastIterator α := ⟨s.elements, s.modCount⟩

omit [DecidableEq α] in
/-- The next element and the advanced iterator, `none` behind the last element. -/
def next (s : FailFastSet α) (it : FailFastIterator α) :
    Except IteratorError (Option (α × FailFastIterator α)) :=
  match it.rest with
  | [] => .ok none
  | x :: rest =>
    if s.modCount = it.expectedModCount then .ok (some (x, { it with rest := rest }))
    else .error .concurrentModification

theorem mem_remove (s : FailFastSet α) (x y : α) : y ∈ s.remove x ↔ y ∈ s ∧ y ≠ x := by
  unfold remove
  split_ifs with hx
  · exact (s.nodup.mem_erase_iff).trans and_comm
  · constructor
    · intro hy
      refine ⟨hy, ?_⟩
      rintro rfl
      exact hx hy
    · intro hy
      exact hy.1

theorem modCount_remove {s : FailFastSet α} {x : α} (hx : x ∈ s) :
    (s.remove x).modCount = s.modCount + 1 := by
  rw [remove, if_pos (show x ∈ s.elements from hx)]

end FailFastSet

end OmniCompiler.Memory
