import Mathlib.Tactic

/-!
# Sorted arrays

An array is a function of the index. Entries are inserted and removed by loops that
shift the entries behind them by one place, and looked up by binary search between
two sentinels.
-/
namespace OmniCompiler.Memory

variable {α : Type*}

/-- Moves the entries behind `idx` one place up, beginning with the last one at `i`. -/
def shiftUp (idx : ℕ) : ℕ → (ℕ → α) → ℕ → α
  | 0, t => t
  | i + 1, t => if idx < i + 1 then shiftUp idx i (Function.update t (i + 2) (t (i + 1))) else t

/-- Moves `k` entries one place down, the first of them to `i`. -/
def shiftDown : ℕ → ℕ → (ℕ → α) → ℕ → α
  | _, 0, t => t
  | i, k + 1, t => shiftDown (i + 1) k (Function.update t i (t (i + 1)))

theorem shiftUp_apply (idx i : ℕ) (t : ℕ → α) (j : ℕ) :
    shiftUp idx i t j = if idx + 1 < j ∧ j ≤ i + 1 then t (j - 1) else t j := by
  induction i generalizing t with
  | zero =>
    rw [shiftUp, if_neg (by omega)]
  | succ i ih =>
    rw [shiftUp]
    by_cases hidx : idx < i + 1
    · rw [if_pos hidx, ih]
      by_cases hlast : j = i + 2
      · rw [hlast, if_neg (by omega), if_pos (by omega), Function.update_self]
        rfl
      · by_cases hin : idx + 1 < j ∧ j ≤ i + 1
        · rw [if_pos hin, if_pos (by omega), Function.update_of_ne (by omega)]
        · rw [if_neg hin, if_neg (by omega), Function.update_of_ne hlast]
    · rw [if_neg hidx, if_neg (by omega)]

theorem shiftDown_apply (i k : ℕ) (t : ℕ → α) (j : ℕ) :
    shiftDown i k t j = if i ≤ j ∧ j < i + k then t (j + 1) else t j := by
  induction k generalizing i t with
  | zero =>
    rw [shiftDown, if_neg (by omega)]
  | succ k ih =>
    rw [shiftDown, ih]
    by_cases hfirst : j = i
    · rw [hfirst, if_neg (by omega), if_pos (by omega), Function.update_self]
    · by_cases hin : i + 1 ≤ j ∧ j < i + 1 + k
      · rw [if_pos hin, if_pos (by omega), Function.update_of_ne (by omega)]
      · rw [if_neg hin, if_neg (by omega), Function.update_of_ne hfirst]

/-- Binary search for `x` among the keys strictly between `idxLow` and `idxOver`. The index comes
with the answer whether its key is `x`. -/
def searchLoop (key : ℕ → ℕ) (x idxLow idxOver : ℕ) : ℕ × Bool :=
  let idx := (idxLow + idxOver) / 2
  if _h : idxLow < idx then
    if x = key idx then (idx, true)
    else if x < key idx then searchLoop key x idxLow idx
    else searchLoop key x idx idxOver
  else (idx, false)
termination_by idxOver - idxLow

/-- Where the search ends: at the key, or behind all smaller and before all larger ones. -/
structure SearchEnds (key : ℕ → ℕ) (x idxLow idxOver : ℕ) (r : ℕ × Bool) : Prop where
  hit : r.2 = true → idxLow < r.1 ∧ r.1 < idxOver ∧ x = key r.1
  low_le : idxLow ≤ r.1
  lt_over : r.1 < idxOver
  below : r.2 = false → r.1 = idxLow ∨ key r.1 < x
  above : r.2 = false → r.1 + 1 = idxOver ∨ x < key (r.1 + 1)

theorem searchLoop_ends (key : ℕ → ℕ) (x idxLow idxOver : ℕ) (hlt : idxLow < idxOver) :
    SearchEnds key x idxLow idxOver (searchLoop key x idxLow idxOver) := by
  fun_induction searchLoop key x idxLow idxOver with
  | case1 idxLow idxOver idx hidx heq =>
    exact ⟨fun _ => ⟨hidx, by omega, heq⟩, hidx.le, by omega, by simp, by simp⟩
  | case2 idxLow idxOver idx hidx hne hless ih =>
    have h := ih hidx
    constructor
    · intro hit
      obtain ⟨hlow, hover, hx⟩ := h.hit hit
      exact ⟨hlow, by omega, hx⟩
    · exact h.low_le
    · have := h.lt_over
      omega
    · exact h.below
    · intro hmiss
      obtain hend | habove := h.above hmiss
      · right
        rwa [hend]
      · exact Or.inr habove
  | case3 idxLow idxOver idx hidx hne hless ih =>
    have hover : idx < idxOver := by omega
    have h := ih hover
    constructor
    · intro hit
      obtain ⟨hlow, hover, hx⟩ := h.hit hit
      exact ⟨by omega, hover, hx⟩
    · have := h.low_le
      omega
    · exact h.lt_over
    · intro hmiss
      obtain hstart | hbelow := h.below hmiss
      · right
        rw [hstart]
        omega
      · exact Or.inr hbelow
    · exact h.above
  | case4 idxLow idxOver idx hidx =>
    have heq : idx = idxLow := by omega
    refine ⟨by simp, by omega, by omega, fun _ => Or.inl heq, fun _ => Or.inl ?_⟩
    show idx + 1 = idxOver
    omega

end OmniCompiler.Memory
