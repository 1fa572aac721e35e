import OmniCompiler.Arithmetic.OwnedCount
import OmniCompiler.Arithmetic.Runs

/-!
# Indices in a block-cyclic dimension

The elements that a rank owns, by round and column, and the indices that `_XMP_get_array_addr` gives
them: it takes the stride of the dimension, which is a whole round, for the number of nodes as well
as for the width of a block.
-/
namespace OmniCompiler.Xmp

open BlockCyclic OwnedCount Runs

/-- The index of position `x` in a block-cyclic dimension whose rounds have `W` elements. -/
def cellIdx (W x : ℤ) : ℤ := W * (x / (W * W)) + x % W

section Cells

variable {w P r Q l u : ℤ}

theorem cellIdx_cell (hw : 0 < w) (hr0 : 0 ≤ r) (hr1 : r < P) {a j : ℤ} (hj0 : 0 ≤ j)
    (hj1 : j < w) :
    cellIdx (P * w) (Q * (P * w) + r * w + a * (P * w) + j) =
      P * w * ((Q + a) / (P * w)) + (r * w + j) := by
  have hrw : 0 ≤ r * w := mul_nonneg hr0 hw.le
  have hlt : r * w + j < P * w := by
    have := mul_le_mul_of_nonneg_right (show r + 1 ≤ P by omega) hw.le
    linarith
  have hW : 0 ≤ P * w := by linarith
  have hx : Q * (P * w) + r * w + a * (P * w) + j = (Q + a) * (P * w) + (r * w + j) := by ring
  rw [cellIdx, hx, ← Int.ediv_ediv_of_nonneg hW, ediv_mul_add (by omega) hlt,
    emod_mul_add (by omega) hlt]

/-- Two cells of one column in successive rounds get different indices only across a multiple of
the round. -/
theorem dvd_of_cellIdx_ne (hw : 0 < w) (hr0 : 0 ≤ r) (hr1 : r < P) {a j : ℤ} (hj0 : 0 ≤ j)
    (hj1 : j < w)
    (hne : cellIdx (P * w) (Q * (P * w) + r * w + a * (P * w) + j) ≠
      cellIdx (P * w) (Q * (P * w) + r * w + (a + 1) * (P * w) + j)) :
    (Q + a + 1) % (P * w) = 0 := by
  have hW : 0 < P * w := mul_pos (by omega) hw
  rw [cellIdx_cell hw hr0 hr1 hj0 hj1, cellIdx_cell hw hr0 hr1 hj0 hj1, ← add_assoc Q] at hne
  rcases ediv_emod_succ hW (Q + a) with ⟨-, -, hmod⟩ | ⟨-, hdiv, -⟩
  · exact hmod
  · exact absurd (by rw [hdiv]) hne

theorem mem_runs_iff_cell (hw : 0 < w) (hP : 0 < P) {S : ℤ} (h2 : S + w ≤ l + P * w) {x : ℤ} :
    x ∈ runs w (P * w) S l u ↔
      l ≤ x ∧ x ≤ u ∧ ∃ a j, 0 ≤ a ∧ 0 ≤ j ∧ j < w ∧ x = S + a * (P * w) + j := by
  have hW : 0 < P * w := mul_pos hP hw
  have hwc : w ≤ P * w := le_mul_of_one_le_left hw.le hP
  constructor
  · intro hx
    have hS := start_le_of_mem_runs hw h2 hx
    refine ⟨hx.1, hx.2.1, (x - S) / (P * w), (x - S) % (P * w), ?_, ?_, hx.2.2, ?_⟩
    · exact Int.ediv_nonneg (by omega) hW.le
    · exact Int.emod_nonneg _ hW.ne'
    · have := Int.emod_add_mul_ediv (x - S) (P * w)
      linarith
  · rintro ⟨h0, h1, a, j, -, hj0, hj1, rfl⟩
    have hsplit : S + a * (P * w) + j - S = a * (P * w) + j := by ring
    exact ⟨h0, h1, by rw [hsplit, emod_mul_add hj0 (by omega)]; exact hj1⟩

/-- The size that `_XMP_align_array_BLOCK_CYCLIC` gives a rank whose first block starts at `S`. -/
def cellSize (w W S l u : ℤ) : ℤ :=
  let dist := (u - S) / W
  let diff := u - (max l S + dist * W + (w - 1))
  if 0 < diff then (dist + 1) * w else (dist + 1) * w + diff

/-- When the indices of a rank of a block-cyclic dimension suit its memory: it is the first of its
line; its elements lie in one block before `W ^ 2`, and a block that the array cuts is not short of
its width; or the array takes one round from within a block on; or there is one node, and the array
starts with the last round before `W ^ 2`. -/
def CellsFit (w P r S l u : ℤ) : Prop :=
  r = 0 ∧
    ((u < S + P * w ∧ S < P * w * (P * w) ∧ (l ≤ S ∨ l + w ≤ u + 1)) ∨
      (u + 1 = l + P * w ∧ S < l ∧ S + P * w < P * w * (P * w)) ∨
      (P = 1 ∧ l = S ∧ S + w = w * w ∧ S + w ≤ u ∧ u < S + 2 * w))

/-- One dimension, seen from the rank whose first block is in round `Q`. -/
structure CellDim (w P r Q S l u : ℤ) : Prop where
  width : 1 < w
  size : 0 < P
  rank_nonneg : 0 ≤ r
  rank_lt : r < P
  round : 0 ≤ Q
  start : S = Q * (P * w) + r * w
  lower_lt : l < S + w
  lower_ge : S + w ≤ l + P * w
  le : l ≤ u
  start_le : S ≤ u

namespace CellDim

variable {S : ℤ} (h : CellDim w P r Q S l u)

include h

theorem width_le : w ≤ P * w :=
  le_mul_of_one_le_left (by have := h.width; omega) (by have := h.size; omega)

theorem cellIdx_first {j : ℤ} (hj0 : 0 ≤ j) (hj1 : j < w) :
    cellIdx (P * w) (S + j) = P * w * (Q / (P * w)) + (r * w + j) := by
  have hcell :=
    @cellIdx_cell w P r Q (by have := h.width; omega) h.rank_nonneg h.rank_lt 0 j hj0 hj1
  rwa [zero_mul, add_zero, add_zero, ← h.start] at hcell

theorem cellIdx_second {j : ℤ} (hj0 : 0 ≤ j) (hj1 : j < w) :
    cellIdx (P * w) (S + P * w + j) = P * w * ((Q + 1) / (P * w)) + (r * w + j) := by
  have hcell :=
    @cellIdx_cell w P r Q (by have := h.width; omega) h.rank_nonneg h.rank_lt 1 j hj0 hj1
  rwa [one_mul, ← h.start] at hcell

theorem mem_first {j : ℤ} (hj0 : 0 ≤ j) (hj1 : j < w) (hl : l ≤ S + j) (hu : S + j ≤ u) :
    S + j ∈ runs w (P * w) S l u :=
  (mem_runs_iff_cell (by have := h.width; omega) h.size h.lower_ge).mpr
    ⟨hl, hu, 0, j, le_rfl, hj0, hj1, by ring⟩

theorem mem_second {j : ℤ} (hj0 : 0 ≤ j) (hj1 : j < w) (hu : S + P * w + j ≤ u) :
    S + P * w + j ∈ runs w (P * w) S l u := by
  have := h.lower_lt
  have := h.width_le
  exact (mem_runs_iff_cell (by have := h.width; omega) h.size h.lower_ge).mpr
    ⟨by omega, hu, 1, j, zero_le_one, hj0, hj1, by ring⟩

theorem mem_cases (hu : u < S + 2 * (P * w)) {x : ℤ} (hx : x ∈ runs w (P * w) S l u) :
    ∃ j, 0 ≤ j ∧ j < w ∧
      ((x = S + j ∧ cellIdx (P * w) x = P * w * (Q / (P * w)) + (r * w + j)) ∨
        (x = S + P * w + j ∧
          cellIdx (P * w) x = P * w * ((Q + 1) / (P * w)) + (r * w + j))) := by
  have hW : 0 < P * w := by have := h.width_le; have := h.width; omega
  obtain ⟨-, hxu, a, j, ha, hj0, hj1, hxa⟩ :=
    (mem_runs_iff_cell (by have := h.width; omega) h.size h.lower_ge).mp hx
  have hlt : a * (P * w) < 2 * (P * w) := by omega
  have ha2 : a < 2 := lt_of_mul_lt_mul_right hlt hW.le
  refine ⟨j, hj0, hj1, ?_⟩
  obtain rfl | rfl : a = 0 ∨ a = 1 := by omega
  · rw [zero_mul, add_zero] at hxa
    exact Or.inl ⟨hxa, hxa ▸ h.cellIdx_first hj0 hj1⟩
  · rw [one_mul] at hxa
    exact Or.inr ⟨hxa, hxa ▸ h.cellIdx_second hj0 hj1⟩

theorem lt_of_injOn (hinj : Set.InjOn (cellIdx (P * w)) (runs w (P * w) S l u)) :
    u < S + 2 * (P * w) := by
  have hw := h.width
  have hW := h.width_le
  have hl := h.lower_lt
  by_contra hu
  push Not at hu
  have hstep : ∀ a j, 0 ≤ a → 0 ≤ j → j < w → l ≤ S + a * (P * w) + j →
      S + (a + 1) * (P * w) + j ≤ u → (Q + a + 1) % (P * w) = 0 := by
    intro a j ha hj0 hj1 hla hau
    have hmem : ∀ b, 0 ≤ b → l ≤ S + b * (P * w) + j → S + b * (P * w) + j ≤ u →
        S + b * (P * w) + j ∈ runs w (P * w) S l u := fun b hb h0 h1 =>
      (mem_runs_iff_cell (by omega) h.size h.lower_ge).mpr ⟨h0, h1, b, j, hb, hj0, hj1, rfl⟩
    have hexp : S + (a + 1) * (P * w) + j = S + a * (P * w) + j + P * w := by ring
    refine dvd_of_cellIdx_ne (by omega) h.rank_nonneg h.rank_lt hj0 hj1 fun heq => ?_
    rw [← h.start] at heq
    have := hinj (hmem a ha hla (by omega)) (hmem (a + 1) (by omega) (by omega) hau) heq
    omega
  have h0 := hstep 0 (w - 1) le_rfl (by omega) (by omega) (by omega) (by omega)
  have h1 := hstep 1 0 zero_le_one le_rfl (by omega) (by omega) (by omega)
  rw [add_zero] at h0
  rcases ediv_emod_succ (show 0 < P * w by omega) (Q + 1) with ⟨hlast, -, -⟩ | ⟨-, -, hmod⟩
  · omega
  · omega

/-- Two rounds do not share a column, or a multiple of the round is between them. -/
theorem second_of_injOn (hinj : Set.InjOn (cellIdx (P * w)) (runs w (P * w) S l u))
    (hu : S + P * w ≤ u) : (Q + 1) % (P * w) = 0 ∨ (S < l ∧ u < l + P * w) := by
  have hw := h.width
  have hW := h.width_le
  have hl := h.lower_lt
  by_contra hno
  push Not at hno
  obtain ⟨hmod, hcol⟩ := hno
  have hj : ∃ j, 0 ≤ j ∧ j < w ∧ l ≤ S + j ∧ S + P * w + j ≤ u := by
    by_cases hSl : S < l
    · exact ⟨l - S, by omega, by omega, by omega, by have := hcol hSl; omega⟩
    · exact ⟨0, le_rfl, by omega, by omega, by omega⟩
  obtain ⟨j, hj0, hj1, hlj, hju⟩ := hj
  have hne :=
    @dvd_of_cellIdx_ne w P r Q (by omega) h.rank_nonneg h.rank_lt 0 j hj0 hj1 fun heq => by
    rw [zero_mul, zero_add, one_mul, add_zero, ← h.start] at heq
    have := hinj (h.mem_first hj0 hj1 hlj (by omega)) (h.mem_second hj0 hj1 hju) heq
    omega
  rw [add_zero] at hne
  exact hmod hne

theorem cellSize_first (hu : u < S + P * w) : cellSize w (P * w) S l u =
    if 0 < u - (max l S + (w - 1)) then w else w + (u - (max l S + (w - 1))) := by
  have hdiv : (u - S) / (P * w) = 0 := by
    have := h.start_le
    exact Int.ediv_eq_zero_of_lt (by omega) (by omega)
  simp only [cellSize, hdiv, zero_mul, add_zero, zero_add, one_mul]

omit h in
theorem cellSize_second (hu0 : S + P * w ≤ u) (hu1 : u < S + 2 * (P * w)) :
    cellSize w (P * w) S l u = if 0 < u - (max l S + P * w + (w - 1)) then 2 * w
      else 2 * w + (u - (max l S + P * w + (w - 1))) := by
  have hsplit : u - S = 1 * (P * w) + (u - S - P * w) := by ring
  have hdiv : (u - S) / (P * w) = 1 := by
    rw [hsplit]
    exact ediv_mul_add (by omega) (by omega)
  simp only [cellSize, hdiv, one_mul]
  norm_num

theorem place_facts : 0 ≤ r * w ∧ (r * w < 1 → r = 0) ∧ 0 ≤ P * w * (Q / (P * w)) ∧
    (P * w * (Q / (P * w)) < 1 → Q < P * w) := by
  have hw := h.width
  have hW := h.width_le
  have hr0 := h.rank_nonneg
  have hq := Int.ediv_nonneg h.round (show 0 ≤ P * w by omega)
  refine ⟨mul_nonneg hr0 (by omega), fun hlt => ?_, mul_nonneg (by omega) hq, fun hlt => ?_⟩
  · by_contra hne
    have := mul_le_mul_of_nonneg_right (show 1 ≤ r by omega) (show 0 ≤ w by omega)
    omega
  · by_contra hge
    have hone : 1 ≤ Q / (P * w) := (Int.le_ediv_iff_mul_le (by omega)).mpr (by omega)
    have := mul_le_mul_of_nonneg_left hone (show 0 ≤ P * w by omega)
    omega

theorem start_lt_iff (hr : r = 0) : S < P * w * (P * w) ↔ Q < P * w := by
  have hW : 0 < P * w := by have := h.width; have := h.width_le; omega
  have hS : S = Q * (P * w) := by rw [h.start, hr, zero_mul, add_zero]
  rw [hS]
  exact mul_lt_mul_iff_left₀ hW

/-- One round: the last element is the end of the block or of the array. -/
theorem one_round (hu : u < S + P * w) :
    (∃ x ∈ runs w (P * w) S l u, cellSize w (P * w) S l u - 1 ≤ cellIdx (P * w) x) ∧
      (Set.InjOn (cellIdx (P * w)) (runs w (P * w) S l u) ∧
        (∀ x ∈ runs w (P * w) S l u, cellIdx (P * w) x < cellSize w (P * w) S l u) ↔
          r = 0 ∧ S < P * w * (P * w) ∧ (l ≤ S ∨ l + w ≤ u + 1)) := by
  have hw := h.width
  have hl := h.lower_lt
  have hle := h.le
  have hSu := h.start_le
  obtain ⟨hR, hR0, hA, hA0⟩ := h.place_facts
  have hmem : ∀ x ∈ runs w (P * w) S l u, ∃ j, 0 ≤ j ∧ j < w ∧ x = S + j ∧
      cellIdx (P * w) x = P * w * (Q / (P * w)) + (r * w + j) := by
    intro x hx
    obtain ⟨j, hj0, hj1, hxj | hxj⟩ := h.mem_cases (by omega) hx
    · exact ⟨j, hj0, hj1, hxj⟩
    · have := hx.2.1
      omega
  have hsize := h.cellSize_first hu
  obtain ⟨j, hj⟩ : ∃ j, j = min (u - S) (w - 1) := ⟨_, rfl⟩
  have htop := h.mem_first (show 0 ≤ j by omega) (show j < w by omega) (by omega) (by omega)
  have hidx := h.cellIdx_first (show 0 ≤ j by omega) (show j < w by omega)
  refine ⟨⟨S + j, htop, ?_⟩, ?_⟩
  · rw [hidx, hsize]
    split_ifs <;> omega
  · constructor
    · rintro ⟨-, hin⟩
      have hlt := hin _ htop
      rw [hidx, hsize] at hlt
      have hr : r = 0 := hR0 (by split_ifs at hlt <;> omega)
      have hQ : Q < P * w := hA0 (by split_ifs at hlt <;> omega)
      refine ⟨hr, (h.start_lt_iff hr).mpr hQ, ?_⟩
      split_ifs at hlt <;> omega
    · rintro ⟨hr, hS, hfit⟩
      have hQ := Int.ediv_eq_zero_of_lt h.round ((h.start_lt_iff hr).mp hS)
      rw [hQ, hr] at hmem
      simp only [mul_zero, zero_mul, zero_add] at hmem
      constructor
      · intro x hx y hy hxy
        obtain ⟨jx, -, -, hxj, hxi⟩ := hmem x hx
        obtain ⟨jy, -, -, hyj, hyi⟩ := hmem y hy
        omega
      · intro x hx
        obtain ⟨jx, hj0, hj1, hxj, hxi⟩ := hmem x hx
        have := hx.2.1
        rw [hxi, hsize]
        split_ifs <;> omega

/-- Two rounds with a multiple of the round between them: the second takes all of its indices from
there on. -/
theorem two_rounds_across (hu0 : S + P * w ≤ u) (hu1 : u < S + 2 * (P * w))
    (hmod : (Q + 1) % (P * w) = 0) :
    (∃ x ∈ runs w (P * w) S l u, cellSize w (P * w) S l u - 1 ≤ cellIdx (P * w) x) ∧
      ((∀ x ∈ runs w (P * w) S l u, cellIdx (P * w) x < cellSize w (P * w) S l u) →
        r = 0 ∧ P = 1 ∧ l = S ∧ S + w = w * w) := by
  have hw := h.width
  have hW := h.width_le
  have hl := h.lower_lt
  have hlge := h.lower_ge
  have hQ := h.round
  obtain ⟨hR, hR0, -, -⟩ := h.place_facts
  have hge : P * w ≤ Q + 1 := Int.le_of_dvd (by omega) (Int.dvd_of_emod_eq_zero hmod)
  have hB : P * w * ((Q + 1) / (P * w)) = Q + 1 := Int.mul_ediv_cancel_of_emod_eq_zero hmod
  have hsize := cellSize_second (l := l) hu0 hu1
  obtain ⟨j, hj⟩ : ∃ j, j = min (u - S - P * w) (w - 1) := ⟨_, rfl⟩
  have htop := h.mem_second (show 0 ≤ j by omega) (show j < w by omega) (by omega)
  have hidx := h.cellIdx_second (show 0 ≤ j by omega) (show j < w by omega)
  rw [hB] at hidx
  refine ⟨⟨_, htop, ?_⟩, fun hin => ?_⟩
  · rw [hidx, hsize]
    split_ifs <;> omega
  · have hlt := hin _ htop
    rw [hidx, hsize] at hlt
    have hr : r = 0 := hR0 (by split_ifs at hlt <;> omega)
    have hround : P * w = w ∧ Q + 1 = w := by split_ifs at hlt <;> omega
    have hP : P = 1 := by
      have := (mul_eq_right₀ (show w ≠ 0 by omega)).mp hround.1
      exact this
    refine ⟨hr, hP, ?_, ?_⟩
    · split_ifs at hlt <;> omega
    · rw [h.start, hr, hround.1, zero_mul, add_zero]
      calc Q * w + w = (Q + 1) * w := by ring
        _ = w * w := by rw [hround.2]

theorem two_rounds_apart (hu0 : S + P * w ≤ u) (hu1 : u < S + 2 * (P * w))
    (hmod : (Q + 1) % (P * w) ≠ 0) (hSl : S < l) (hul : u < l + P * w) :
    (∃ x ∈ runs w (P * w) S l u, cellSize w (P * w) S l u - 1 ≤ cellIdx (P * w) x) ∧
      ((∀ x ∈ runs w (P * w) S l u, cellIdx (P * w) x < cellSize w (P * w) S l u) →
        r = 0 ∧ u + 1 = l + P * w ∧ S < l ∧ S + P * w < P * w * (P * w)) := by
  have hw := h.width
  have hW := h.width_le
  have hl := h.lower_lt
  obtain ⟨hR, hR0, hA, hA0⟩ := h.place_facts
  have hsize := cellSize_second (l := l) hu0 hu1
  rw [if_neg (by omega)] at hsize
  have htop := h.mem_first (show 0 ≤ w - 1 by omega) (show w - 1 < w by omega) (by omega) (by omega)
  have hidx := h.cellIdx_first (show 0 ≤ w - 1 by omega) (show w - 1 < w by omega)
  refine ⟨⟨_, htop, by omega⟩, fun hin => ?_⟩
  have hlt := hin _ htop
  rw [hidx, hsize] at hlt
  have hr : r = 0 := hR0 (by omega)
  have hQ : Q < P * w := hA0 (by omega)
  have hne : Q + 1 ≠ P * w := fun heq => hmod (by rw [heq, Int.emod_self])
  refine ⟨hr, by omega, hSl, ?_⟩
  have hS : S + P * w = (Q + 1) * (P * w) := by
    rw [h.start, hr]
    ring
  rw [hS]
  exact mul_lt_mul_of_pos_right (by omega) (by omega)

theorem two_rounds (hu0 : S + P * w ≤ u) (hu1 : u < S + 2 * (P * w)) :
    (Set.InjOn (cellIdx (P * w)) (runs w (P * w) S l u) →
      ∃ x ∈ runs w (P * w) S l u, cellSize w (P * w) S l u - 1 ≤ cellIdx (P * w) x) ∧
      (Set.InjOn (cellIdx (P * w)) (runs w (P * w) S l u) ∧
        (∀ x ∈ runs w (P * w) S l u, cellIdx (P * w) x < cellSize w (P * w) S l u) ↔
          r = 0 ∧ ((u + 1 = l + P * w ∧ S < l ∧ S + P * w < P * w * (P * w)) ∨
            (P = 1 ∧ l = S ∧ S + w = w * w))) := by
  have hw := h.width
  have hW := h.width_le
  have hQ := h.round
  have hsize := cellSize_second (l := l) hu0 hu1
  refine ⟨fun hinj => ?_, fun ⟨hinj, hin⟩ => ?_, ?_⟩
  · by_cases hmod : (Q + 1) % (P * w) = 0
    · exact (h.two_rounds_across hu0 hu1 hmod).1
    · obtain ⟨hSl, hul⟩ := (h.second_of_injOn hinj hu0).resolve_left hmod
      exact (h.two_rounds_apart hu0 hu1 hmod hSl hul).1
  · by_cases hmod : (Q + 1) % (P * w) = 0
    · obtain ⟨hr, hfit⟩ := (h.two_rounds_across hu0 hu1 hmod).2 hin
      exact ⟨hr, Or.inr hfit⟩
    · obtain ⟨hSl, hul⟩ := (h.second_of_injOn hinj hu0).resolve_left hmod
      obtain ⟨hr, hfit⟩ := (h.two_rounds_apart hu0 hu1 hmod hSl hul).2 hin
      exact ⟨hr, Or.inl hfit⟩
  · rintro ⟨hr, ⟨hround, hSl, hS⟩ | ⟨hP, hlS, hS⟩⟩
    · -- both rounds are before the first multiple
      have hS1 : S + P * w = (Q + 1) * (P * w) := by
        rw [h.start, hr]
        ring
      rw [hS1] at hS
      have hQ1 : Q + 1 < P * w := lt_of_mul_lt_mul_right hS (by omega)
      have hmem := fun {x : ℤ} => @mem_cases w P r Q l u S h hu1 x
      rw [Int.ediv_eq_zero_of_lt hQ (by omega), Int.ediv_eq_zero_of_lt (by omega) hQ1, hr] at hmem
      simp only [mul_zero, zero_mul, zero_add] at hmem
      rw [if_neg (by omega)] at hsize
      constructor
      · intro x hx y hy hxy
        have := hx.1
        have := hy.1
        have := hx.2.1
        have := hy.2.1
        obtain ⟨jx, -, -, ⟨hxj, hxi⟩ | ⟨hxj, hxi⟩⟩ := hmem hx <;>
          obtain ⟨jy, -, -, ⟨hyj, hyi⟩ | ⟨hyj, hyi⟩⟩ := hmem hy <;> omega
      · intro x hx
        obtain ⟨jx, -, hj1, ⟨-, hxi⟩ | ⟨-, hxi⟩⟩ := hmem hx <;> omega
    · -- the second round is the first one after a multiple
      subst hP
      rw [one_mul] at *
      have hQw : Q + 1 = w := by
        have hexp : (Q + 1) * w = w * w := by
          rw [← hS, h.start, hr]
          ring
        exact mul_right_cancel₀ (show w ≠ 0 by omega) hexp
      have hmem := fun {x : ℤ} => @mem_cases w 1 r Q l u S h (by rw [one_mul]; exact hu1) x
      simp only [one_mul] at hmem
      rw [Int.ediv_eq_zero_of_lt hQ (by omega), hQw, Int.ediv_self (by omega), hr] at hmem
      simp only [mul_zero, zero_mul, zero_add, mul_one] at hmem
      rw [if_neg (by omega)] at hsize
      constructor
      · intro x hx y hy hxy
        obtain ⟨jx, -, -, ⟨hxj, hxi⟩ | ⟨hxj, hxi⟩⟩ := hmem hx <;>
          obtain ⟨jy, -, -, ⟨hyj, hyi⟩ | ⟨hyj, hyi⟩⟩ := hmem hy <;> omega
      · intro x hx
        have := hx.2.1
        obtain ⟨jx, -, hj1, ⟨hxj, hxi⟩ | ⟨hxj, hxi⟩⟩ := hmem hx <;> omega

theorem fits_iff :
    (Set.InjOn (cellIdx (P * w)) (runs w (P * w) S l u) →
      ∃ x ∈ runs w (P * w) S l u, cellSize w (P * w) S l u - 1 ≤ cellIdx (P * w) x) ∧
      (Set.InjOn (cellIdx (P * w)) (runs w (P * w) S l u) ∧
        (∀ x ∈ runs w (P * w) S l u, cellIdx (P * w) x < cellSize w (P * w) S l u) ↔
          CellsFit w P r S l u) := by
  have hw := h.width
  have hW := h.width_le
  have hl := h.lower_lt
  rw [CellsFit]
  rcases lt_or_ge u (S + P * w) with hone | htwo
  · refine ⟨fun _ => (h.one_round hone).1, (h.one_round hone).2.trans ?_⟩
    refine and_congr_right fun hr => ⟨fun hfit => Or.inl ⟨hone, hfit⟩, ?_⟩
    rintro (⟨-, hfit⟩ | ⟨hfit, hSl, -⟩ | ⟨rfl, -, -, hfit, -⟩)
    · exact hfit
    · omega
    · omega
  · by_cases hu : u < S + 2 * (P * w)
    · refine ⟨(h.two_rounds htwo hu).1, (h.two_rounds htwo hu).2.trans ?_⟩
      refine and_congr_right fun hr => ⟨?_, ?_⟩
      · rintro (hfit | ⟨hP, hlS, hS⟩)
        · exact Or.inr (Or.inl hfit)
        · subst hP
          exact Or.inr (Or.inr ⟨rfl, hlS, hS, by omega, by omega⟩)
      · rintro (⟨hfit, -⟩ | hfit | ⟨hP, hlS, hS, -, -⟩)
        · omega
        · exact Or.inl hfit
        · exact Or.inr ⟨hP, hlS, hS⟩
    · have hno : ¬ Set.InjOn (cellIdx (P * w)) (runs w (P * w) S l u) := fun hinj =>
        hu (h.lt_of_injOn hinj)
      refine ⟨fun hinj => absurd hinj hno, iff_of_false (fun hinj => hno hinj.1) ?_⟩
      rintro ⟨-, ⟨hfit, -⟩ | ⟨hfit, -, -⟩ | ⟨rfl, -, -, -, hfit⟩⟩ <;> omega

end CellDim

end Cells

end OmniCompiler.Xmp
