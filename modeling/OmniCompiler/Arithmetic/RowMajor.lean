import Mathlib.Algebra.BigOperators.Fin
import Mathlib.Algebra.Order.BigOperators.Ring.Finset
import Mathlib.Tactic

/-!
# Row-major offsets

The offset of an index vector in a box, last dimension fastest. A layout that gives each index of a
dimension a number places the vectors apart and inside the box when it does so in each dimension,
and only then if no dimension leaves room at the end.
-/
namespace OmniCompiler.RowMajor

open Finset

variable {k : ℕ}

def rowMajor (size v : Fin k → ℤ) : ℤ := ∑ i, v i * ∏ j ∈ Ioi i, size j

theorem rowMajor_succ (size v : Fin (k + 1) → ℤ) :
    rowMajor size v = v 0 * ∏ i : Fin k, size i.succ +
      rowMajor (fun i : Fin k => size i.succ) fun i : Fin k => v i.succ := by
  rw [rowMajor, Fin.sum_univ_succ, Fin.prod_Ioi_zero, rowMajor]
  simp only [Fin.prod_Ioi_succ]

theorem rowMajor_nonneg {size v : Fin k → ℤ} (hsize : ∀ i, 0 ≤ size i) (hv : ∀ i, 0 ≤ v i) :
    0 ≤ rowMajor size v :=
  sum_nonneg fun i _ => mul_nonneg (hv i) (prod_nonneg fun j _ => hsize j)

theorem rowMajor_lt {size v : Fin k → ℤ} (h : ∀ i, 0 ≤ v i ∧ v i < size i) :
    rowMajor size v < ∏ i, size i := by
  induction k with
  | zero => simp [rowMajor]
  | succ k ih =>
    have hrest := ih fun i : Fin k => h i.succ
    have hpos : (0 : ℤ) ≤ ∏ i : Fin k, size i.succ :=
      prod_nonneg fun i _ => (h i.succ).1.trans (h i.succ).2.le
    have hfirst : (v 0 + 1) * ∏ i : Fin k, size i.succ ≤ size 0 * ∏ i : Fin k, size i.succ :=
      mul_le_mul_of_nonneg_right (by have := (h 0).2; omega) hpos
    rw [rowMajor_succ, Fin.prod_univ_succ]
    linarith

theorem rowMajor_inj {size v v' : Fin k → ℤ} (h : ∀ i, 0 ≤ v i ∧ v i < size i)
    (h' : ∀ i, 0 ≤ v' i ∧ v' i < size i) (heq : rowMajor size v = rowMajor size v') : v = v' := by
  induction k with
  | zero => exact Subsingleton.elim _ _
  | succ k ih =>
    have hlt := rowMajor_lt fun i : Fin k => h i.succ
    have hlt' := rowMajor_lt fun i : Fin k => h' i.succ
    have hsize : ∀ i : Fin k, 0 ≤ size i.succ := fun i => (h i.succ).1.trans (h i.succ).2.le
    have hnn := rowMajor_nonneg hsize fun i : Fin k => (h i.succ).1
    have hnn' := rowMajor_nonneg hsize fun i : Fin k => (h' i.succ).1
    rw [rowMajor_succ, rowMajor_succ] at heq
    -- the first place is the quotient by the size of the rest
    have hfirst : v 0 = v' 0 := by
      have hq := congrArg (· / ∏ i : Fin k, size i.succ) heq
      rwa [add_comm, Int.add_mul_ediv_right _ _ (by omega), Int.ediv_eq_zero_of_lt hnn hlt,
        add_comm (v' 0 * _), Int.add_mul_ediv_right _ _ (by omega),
        Int.ediv_eq_zero_of_lt hnn' hlt', zero_add, zero_add] at hq
    have hrest := ih (fun i : Fin k => h i.succ) (fun i : Fin k => h' i.succ) (by
      rw [hfirst] at heq
      linarith)
    ext i
    refine Fin.cases hfirst (fun i => congrFun hrest i) i

theorem rowMajor_last (size : Fin k → ℤ) :
    rowMajor size (fun i => size i - 1) = ∏ i, size i - 1 := by
  induction k with
  | zero => simp [rowMajor]
  | succ k ih =>
    rw [rowMajor_succ, ih fun i : Fin k => size i.succ, Fin.prod_univ_succ]
    ring

theorem rowMajor_mono {size v v' : Fin k → ℤ} (hsize : ∀ i, 0 ≤ size i) (h : ∀ i, v i ≤ v' i) :
    rowMajor size v ≤ rowMajor size v' :=
  sum_le_sum fun i _ => mul_le_mul_of_nonneg_right (h i) (prod_nonneg fun j _ => hsize j)

/-- One place more moves the offset by the size of the places after it. -/
theorem rowMajor_update_succ (size v : Fin k → ℤ) (i : Fin k) :
    rowMajor size (Function.update v i (v i + 1)) = rowMajor size v + ∏ j ∈ Ioi i, size j := by
  rw [rowMajor, rowMajor, ← add_sum_erase _ _ (mem_univ i), ← add_sum_erase _ _ (mem_univ i),
    Function.update_self, sum_congr rfl fun j hj => by
      rw [Function.update_of_ne (ne_of_mem_erase hj)]]
  ring

/-- Numbers of the vectors of a product of sets: they are apart and inside the box exactly when the
numbers of each dimension are, provided that numbers which are apart reach the last place. -/
theorem layout_iff {S : Fin k → Set ℤ} {f : Fin k → ℤ → ℤ} {size : Fin k → ℤ}
    (hsize : ∀ i, 0 < size i) (hne : ∀ i, (S i).Nonempty) (hf : ∀ i, ∀ x ∈ S i, 0 ≤ f i x)
    (hroom : ∀ i, Set.InjOn (f i) (S i) → ∃ x ∈ S i, size i - 1 ≤ f i x) :
    (Set.InjOn (fun v : Fin k → ℤ => rowMajor size fun i => f i (v i)) {v | ∀ i, v i ∈ S i} ∧
        ∀ v : Fin k → ℤ, (∀ i, v i ∈ S i) → rowMajor size (fun i => f i (v i)) < ∏ i, size i) ↔
      ∀ i, Set.InjOn (f i) (S i) ∧ ∀ x ∈ S i, f i x < size i := by
  constructor
  · rintro ⟨hinj, hin⟩
    choose v₀ hv₀ using hne
    have hdim : ∀ i, Set.InjOn (f i) (S i) := by
      intro i x hx y hy hxy
      have hmem : ∀ z ∈ S i, Function.update v₀ i z ∈ {v : Fin k → ℤ | ∀ i, v i ∈ S i} := by
        intro z hz j
        rcases eq_or_ne j i with rfl | hji
        · rwa [Function.update_self]
        · rw [Function.update_of_ne hji]
          exact hv₀ j
      have heq : (fun j => f j (Function.update v₀ i x j)) =
          fun j => f j (Function.update v₀ i y j) := by
        funext j
        rcases eq_or_ne j i with rfl | hji
        · simpa using hxy
        · rw [Function.update_of_ne hji, Function.update_of_ne hji]
      have hvec := hinj (hmem x hx) (hmem y hy) (congrArg (rowMajor size) heq)
      simpa using congrFun hvec i
    refine fun i => ⟨hdim i, fun x hx => ?_⟩
    by_contra hout
    choose m hm hmax using fun j => hroom j (hdim j)
    -- the last place of every other dimension, one too far in this one
    have hle : ∀ j, Function.update (fun j => size j - 1) i (size i - 1 + 1) j ≤
        f j (Function.update m i x j) := by
      intro j
      rcases eq_or_ne j i with rfl | hji
      · simp only [Function.update_self]
        omega
      · rw [Function.update_of_ne hji, Function.update_of_ne hji]
        exact hmax j
    have hmono := rowMajor_mono (fun j => (hsize j).le) hle
    rw [rowMajor_update_succ size (fun j => size j - 1) i, rowMajor_last] at hmono
    have hlt := hin (Function.update m i x) fun j => by
      rcases eq_or_ne j i with rfl | hji
      · rwa [Function.update_self]
      · rw [Function.update_of_ne hji]
        exact hm j
    have hplace : (0 : ℤ) < ∏ j ∈ Ioi i, size j := prod_pos fun j _ => hsize j
    omega
  · intro h
    have hbox : ∀ v : Fin k → ℤ, (∀ i, v i ∈ S i) → ∀ i, 0 ≤ f i (v i) ∧ f i (v i) < size i :=
      fun v hv i => ⟨hf i _ (hv i), (h i).2 _ (hv i)⟩
    refine ⟨fun v hv v' hv' heq => ?_, fun v hv => rowMajor_lt (hbox v hv)⟩
    have hvec := rowMajor_inj (hbox v hv) (hbox v' hv') heq
    funext i
    exact (h i).1 (hv i) (hv' i) (congrFun hvec i)

end OmniCompiler.RowMajor
