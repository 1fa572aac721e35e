import Mathlib.Data.List.Perm.Subperm
import Mathlib.Tactic

/-!
# What is held by one only

Each of several holders has a list of items, and no item is in two places: neither twice in a list
nor in the lists of two holders.
-/
namespace OmniCompiler.Holding

variable {ι α : Type*}

structure Apart (held : ι → List α) : Prop where
  nodup : ∀ i, (held i).Nodup
  holder : ∀ {i j x}, x ∈ held i → x ∈ held j → i = j

variable {held held' : ι → List α} {i : ι} {x : α}

theorem Apart.congr (h : Apart held) (heq : ∀ j, held' j = held j) : Apart held' :=
  (funext heq : held' = held) ▸ h

theorem Apart.shrink (h : Apart held) (i : ι) (hi : (held' i).Subperm (held i))
    (hj : ∀ j, j ≠ i → held' j = held j) : Apart held' := by
  have hsub : ∀ j, (held' j).Subperm (held j) := by
    intro j
    by_cases hji : j = i
    · exact hji ▸ hi
    · exact (hj j hji) ▸ List.Subperm.refl _
  refine ⟨fun j => ?_, fun {j k x} hxj hxk => h.holder ((hsub j).subset hxj) ((hsub k).subset hxk)⟩
  obtain ⟨l, hperm, hl⟩ := hsub j
  exact hperm.nodup_iff.mp (hl.nodup (h.nodup j))

theorem Apart.add (h : Apart held) (i : ι) (hx : ∀ j, x ∉ held j)
    (hi : (held' i).Perm (x :: held i)) (hj : ∀ j, j ≠ i → held' j = held j) : Apart held' := by
  have hmem : ∀ {j y}, y ∈ held' j → y ∈ held j ∨ y = x ∧ j = i := by
    intro j y hy
    by_cases hji : j = i
    · subst hji
      exact (List.mem_cons.mp (hi.mem_iff.mp hy)).symm.imp id fun h => ⟨h, rfl⟩
    · exact .inl (hj j hji ▸ hy)
  constructor
  · intro j
    by_cases hji : j = i
    · subst hji
      exact hi.nodup_iff.mpr (List.nodup_cons.mpr ⟨hx j, h.nodup j⟩)
    · exact (hj j hji) ▸ h.nodup j
  · intro j k y hyj hyk
    obtain hyj | ⟨rfl, rfl⟩ := hmem hyj
    · obtain hyk | ⟨rfl, rfl⟩ := hmem hyk
      · exact h.holder hyj hyk
      · exact absurd hyj (hx j)
    · obtain hyk | ⟨-, rfl⟩ := hmem hyk
      · exact absurd hyk (hx k)
      · rfl

end OmniCompiler.Holding
