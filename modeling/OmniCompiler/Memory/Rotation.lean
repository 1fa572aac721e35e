import Mathlib.Data.List.Basic
import Mathlib.Tactic

/-!
# Rotation of a block in place

Two neighbouring blocks of an array change places by three reversals, each of which swaps entries
from both ends.
-/
namespace OmniCompiler.Memory

variable {α : Type*}

/-- Entries `l` and `r` change places. -/
def swapEntries (a : List α) (l r : ℕ) : List α :=
  match a[l]?, a[r]? with
  | some x, some y => (a.set r x).set l y
  | _, _ => a

/-- The entries from `l` to `r` in reverse order. -/
def reverseEntries (a : List α) (l r : ℕ) : List α :=
  if l < r then reverseEntries (swapEntries a l r) (l + 1) (r - 1) else a
termination_by r - l
decreasing_by omega

/-- The entries from `m` to `r` come before those from `l` to `m - 1`. -/
def rotateEntries (a : List α) (l m r : ℕ) : List α :=
  reverseEntries (reverseEntries (reverseEntries a l (m - 1)) m r) l r

theorem swapEntries_append (p q s : List α) (x y : α) :
    swapEntries (p ++ x :: (q ++ y :: s)) p.length (p.length + q.length + 1) =
      p ++ y :: (q ++ x :: s) := by
  have hx : (p ++ x :: (q ++ y :: s))[p.length]? = some x := by
    rw [List.getElem?_append_right le_rfl, Nat.sub_self, List.getElem?_cons_zero]
  have hy : (p ++ x :: (q ++ y :: s))[p.length + q.length + 1]? = some y := by
    rw [List.getElem?_append_right (by omega)]
    have hidx : p.length + q.length + 1 - p.length = q.length + 1 := by omega
    rw [hidx, List.getElem?_cons_succ, List.getElem?_append_right le_rfl, Nat.sub_self,
      List.getElem?_cons_zero]
  rw [swapEntries, hx, hy]
  have hidx : p.length + q.length + 1 - p.length = q.length + 1 := by omega
  simp only [List.set_append_right _ _ (show p.length ≤ p.length + q.length + 1 by omega), hidx,
    List.set_cons_succ, List.set_append_right _ _ (le_refl q.length), Nat.sub_self,
    List.set_cons_zero, List.set_append_right _ _ (le_refl p.length)]

theorem reverseEntries_append (p q s : List α) :
    reverseEntries (p ++ (q ++ s)) p.length (p.length + q.length - 1) = p ++ (q.reverse ++ s) := by
  induction hn : q.length using Nat.strong_induction_on generalizing p q s with
  | _ n ih =>
    cases q with
    | nil =>
      rw [reverseEntries, if_neg (by subst hn; simp)]
      rfl
    | cons x rest =>
      obtain rfl | ⟨mid, y, rfl⟩ := List.eq_nil_or_concat rest
      · rw [reverseEntries, if_neg (by subst hn; simp)]
        rfl
      · rw [List.length_cons, List.length_concat] at hn
        have hr : p.length + n - 1 = p.length + mid.length + 1 := by omega
        have hstep := swapEntries_append p mid s x y
        have hnext := ih mid.length (by omega) (p ++ [y]) mid (x :: s) rfl
        rw [List.length_append, List.length_singleton] at hnext
        have hidx : p.length + 1 + mid.length - 1 = p.length + mid.length + 1 - 1 := by omega
        rw [hidx] at hnext
        rw [reverseEntries, if_pos (by omega), hr]
        simp only [List.concat_eq_append, List.cons_append, List.append_assoc, List.nil_append,
          List.reverse_cons, List.reverse_append, List.reverse_nil] at hstep hnext ⊢
        rw [hstep, hnext]

theorem rotateEntries_append (p q₁ q₂ s : List α) :
    rotateEntries (p ++ (q₁ ++ (q₂ ++ s))) p.length (p.length + q₁.length)
      (p.length + q₁.length + q₂.length - 1) = p ++ (q₂ ++ (q₁ ++ s)) := by
  have hsecond := reverseEntries_append (p ++ q₁.reverse) q₂ s
  have hthird := reverseEntries_append p (q₁.reverse ++ q₂.reverse) s
  rw [List.length_append, List.length_reverse, List.append_assoc, List.append_assoc] at hsecond
  rw [List.length_append, List.length_reverse, List.length_reverse, List.reverse_append,
    List.reverse_reverse, List.reverse_reverse, List.append_assoc, List.append_assoc,
    ← Nat.add_assoc] at hthird
  rw [rotateEntries, reverseEntries_append, hsecond, hthird]

end OmniCompiler.Memory
