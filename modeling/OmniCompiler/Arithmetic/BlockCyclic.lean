import Mathlib.Tactic

/-!
# Block-cyclic layouts

Blocks of `w` consecutive integers are dealt to `P` places in turn. `owner` is the
place of an integer, `localIndex` its position among the integers of that place, and
`globalIndex` the inverse. Only `0 < w` and `0 < P` are assumed.
-/
namespace OmniCompiler.BlockCyclic

def owner (w P x : ℤ) : ℤ := x / w % P

def localIndex (w P x : ℤ) : ℤ := x / (P * w) * w + x % w

def globalIndex (w P r l : ℤ) : ℤ := (r + l / w * P) * w + l % w

variable {w P : ℤ}

theorem ediv_mul_add {q m : ℤ} (hm : 0 ≤ m) (hm' : m < w) : (q * w + m) / w = q := by
  rw [Int.ediv_eq_iff_of_pos (by omega)]
  constructor <;> linarith

theorem emod_mul_add {q m : ℤ} (hm : 0 ≤ m) (hm' : m < w) : (q * w + m) % w = m := by
  rw [add_comm, Int.add_mul_emod_self_right, Int.emod_eq_of_lt hm hm']

theorem localIndex_eq (hw : 0 < w) (x : ℤ) : localIndex w P x = x / w / P * w + x % w := by
  rw [localIndex, mul_comm P w, Int.ediv_ediv_of_nonneg hw.le]

theorem globalIndex_localIndex (hw : 0 < w) (x : ℤ) :
    globalIndex w P (owner w P x) (localIndex w P x) = x := by
  have h0 := Int.emod_nonneg x hw.ne'
  have h1 := Int.emod_lt_of_pos x hw
  have hb := Int.emod_add_mul_ediv (x / w) P
  have hx := Int.emod_add_mul_ediv x w
  rw [globalIndex, localIndex_eq hw, ediv_mul_add h0 h1, emod_mul_add h0 h1, owner,
    mul_comm (x / w / P) P, hb]
  linarith

theorem globalIndex_ediv (hw : 0 < w) (r l : ℤ) : globalIndex w P r l / w = r + l / w * P :=
  ediv_mul_add (Int.emod_nonneg l hw.ne') (Int.emod_lt_of_pos l hw)

theorem owner_globalIndex (hw : 0 < w) {r : ℤ} (h0 : 0 ≤ r) (h1 : r < P) (l : ℤ) :
    owner w P (globalIndex w P r l) = r := by
  rw [owner, globalIndex_ediv hw, Int.add_mul_emod_self_right, Int.emod_eq_of_lt h0 h1]

theorem localIndex_globalIndex (hw : 0 < w) {r : ℤ} (h0 : 0 ≤ r) (h1 : r < P) (l : ℤ) :
    localIndex w P (globalIndex w P r l) = l := by
  have hm0 := Int.emod_nonneg l hw.ne'
  have hm1 := Int.emod_lt_of_pos l hw
  rw [localIndex_eq hw, globalIndex_ediv hw, globalIndex, emod_mul_add hm0 hm1,
    Int.add_mul_ediv_right _ _ (by omega), Int.ediv_eq_zero_of_lt h0 h1, zero_add]
  have := Int.emod_add_mul_ediv l w
  linarith

theorem globalIndex_strictMono (hw : 0 < w) (hP : 0 < P) (r : ℤ) :
    StrictMono (globalIndex w P r) := by
  intro l l' hl
  have hm0 := Int.emod_nonneg l' hw.ne'
  have hm1 := Int.emod_lt_of_pos l hw
  have hd := Int.emod_add_mul_ediv l w
  have hd' := Int.emod_add_mul_ediv l' w
  rcases (Int.ediv_le_ediv hw hl.le).lt_or_eq with h | h
  · have hle : (l / w + 1) * P ≤ l' / w * P := Int.mul_le_mul_of_nonneg_right h hP.le
    have hle' := Int.mul_le_mul_of_nonneg_right hle hw.le
    have hPw : 1 * w ≤ P * w := Int.mul_le_mul_of_nonneg_right hP hw.le
    unfold globalIndex
    linarith
  · rw [← h] at hd'
    rw [globalIndex, globalIndex, ← h]
    linarith

theorem localIndex_lt_iff (hw : 0 < w) (hP : 0 < P) {x y : ℤ} (h : owner w P x = owner w P y) :
    localIndex w P x < localIndex w P y ↔ x < y := by
  conv_rhs => rw [← globalIndex_localIndex (P := P) hw x, ← globalIndex_localIndex (P := P) hw y, h]
  exact ((globalIndex_strictMono hw hP _).lt_iff_lt).symm

theorem localIndex_le_iff (hw : 0 < w) (hP : 0 < P) {x y : ℤ} (h : owner w P x = owner w P y) :
    localIndex w P x ≤ localIndex w P y ↔ x ≤ y := by
  rw [← not_lt, ← not_lt, localIndex_lt_iff hw hP h.symm]

theorem owner_eq_iff (hw : 0 < w) {r : ℤ} (h0 : 0 ≤ r) (h1 : r < P) (x : ℤ) :
    owner w P x = r ↔ ∃ k j : ℤ, 0 ≤ j ∧ j < w ∧ x = (r + k * P) * w + j := by
  constructor
  · intro h
    refine ⟨localIndex w P x / w, localIndex w P x % w, Int.emod_nonneg _ hw.ne',
      Int.emod_lt_of_pos _ hw, ?_⟩
    conv_lhs => rw [← globalIndex_localIndex (P := P) hw x, h, globalIndex]
  · rintro ⟨k, j, hj0, hj1, rfl⟩
    rw [owner, ediv_mul_add hj0 hj1, Int.add_mul_emod_self_right, Int.emod_eq_of_lt h0 h1]

/-- Nonnegative integers of place `r` lie in its blocks from the first on. -/
theorem owner_eq_iff_of_nonneg (hw : 0 < w) {r : ℤ} (h0 : 0 ≤ r) (h1 : r < P) {x : ℤ}
    (hx : 0 ≤ x) :
    owner w P x = r ↔ ∃ k j : ℤ, 0 ≤ k ∧ 0 ≤ j ∧ j < w ∧ x = (r + k * P) * w + j := by
  rw [owner_eq_iff hw h0 h1]
  constructor
  · rintro ⟨k, j, hj0, hj1, rfl⟩
    refine ⟨k, j, ?_, hj0, hj1, rfl⟩
    by_contra hc
    have h2 : (r + k * P) + 1 ≤ 0 := by nlinarith
    have h3 := mul_le_mul_of_nonneg_right h2 hw.le
    linarith
  · rintro ⟨k, j, -, hj0, hj1, hx⟩
    exact ⟨k, j, hj0, hj1, hx⟩

/-- Taking the remainder by a whole round first does not change the owner. -/
theorem emod_mul_ediv (hw : 0 < w) (hP : 0 < P) (x : ℤ) : x % (w * P) / w = owner w P x := by
  obtain ⟨r, hr⟩ : ∃ r, owner w P x = r := ⟨_, rfl⟩
  have hr0 : 0 ≤ r := hr ▸ Int.emod_nonneg _ hP.ne'
  have hr1 : r < P := hr ▸ Int.emod_lt_of_pos _ hP
  obtain ⟨k, j, hj0, hj1, hx⟩ := (owner_eq_iff hw hr0 hr1 x).mp hr
  have hlt : r * w + j < w * P := by
    have := mul_le_mul_of_nonneg_right (show r + 1 ≤ P by omega) hw.le
    linarith
  rw [hr, hx, show (r + k * P) * w + j = r * w + j + w * P * k by ring,
    Int.add_mul_emod_self_left, Int.emod_eq_of_lt (by positivity) hlt, ediv_mul_add hj0 hj1]

theorem localIndex_nonneg (hw : 0 < w) (hP : 0 < P) {x : ℤ} (hx : 0 ≤ x) :
    0 ≤ localIndex w P x := by
  have h0 := Int.emod_nonneg x hw.ne'
  have h1 := Int.ediv_nonneg hx (mul_pos hP hw).le
  rw [localIndex]
  positivity

theorem globalIndex_nonneg (hw : 0 < w) (hP : 0 < P) {r l : ℤ} (hr : 0 ≤ r) (hl : 0 ≤ l) :
    0 ≤ globalIndex w P r l := by
  have h0 := Int.emod_nonneg l hw.ne'
  have h1 := Int.ediv_nonneg hl hw.le
  rw [globalIndex]
  positivity

end OmniCompiler.BlockCyclic
