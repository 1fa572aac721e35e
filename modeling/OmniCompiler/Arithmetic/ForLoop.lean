import Mathlib.Data.List.Sort
import Mathlib.Tactic

/-!
# Control values of counted `for` loops

`loopValues init cond step` lists the values taken by the control variable of
`for (i = init; step > 0 ? i < cond : i > cond; i += step)`. The list is built
by running the loop; the membership and order lemmas are what clients use.
-/
namespace OmniCompiler.ForLoop

/-- Values visited by `for (i = i₀; c i; i += step)`, running at most `fuel` iterations. -/
def forValues (c : ℤ → Bool) (step : ℤ) : ℕ → ℤ → List ℤ
  | 0, _ => []
  | fuel + 1, i => if c i then i :: forValues c step fuel (i + step) else []

/-- Every iteration moves the control variable by at least one, so the distance
between the bounds is enough fuel. -/
def loopValues (init cond step : ℤ) : List ℤ :=
  forValues (fun i => if 0 < step then i < cond else cond < i) step (cond - init).natAbs init

theorem mem_forValues_up {cond step : ℤ} (hs : 0 < step) (fuel : ℕ) (i : ℤ)
    (hf : cond - i ≤ fuel) (x : ℤ) :
    x ∈ forValues (fun i => if 0 < step then i < cond else cond < i) step fuel i ↔
      i ≤ x ∧ x < cond ∧ step ∣ x - i := by
  induction fuel generalizing i with
  | zero =>
    simp only [forValues, List.not_mem_nil, false_iff, not_and]
    intro h1 h2
    push_cast at hf
    omega
  | succ fuel ih =>
    by_cases hc : i < cond
    · rw [forValues, if_pos (by simpa [hs] using hc), List.mem_cons,
        ih (i + step) (by push_cast at hf; omega)]
      constructor
      · rintro (rfl | ⟨h1, h2, h3⟩)
        · exact ⟨le_rfl, hc, by simp⟩
        · refine ⟨by omega, h2, ?_⟩
          have := dvd_add h3 (dvd_refl step)
          rwa [show x - (i + step) + step = x - i by ring] at this
      · rintro ⟨h1, h2, h3⟩
        rcases eq_or_lt_of_le h1 with rfl | hlt
        · exact Or.inl rfl
        · have hle := Int.le_of_dvd (by omega) h3
          refine Or.inr ⟨by omega, h2, ?_⟩
          have := dvd_sub h3 (dvd_refl step)
          rwa [show x - i - step = x - (i + step) by ring] at this
    · rw [forValues, if_neg (by simpa [hs] using hc)]
      simp only [List.not_mem_nil, false_iff, not_and]
      intro h1 h2
      omega

theorem mem_forValues_down {cond step : ℤ} (hs : step < 0) (fuel : ℕ) (i : ℤ)
    (hf : i - cond ≤ fuel) (x : ℤ) :
    x ∈ forValues (fun i => if 0 < step then i < cond else cond < i) step fuel i ↔
      cond < x ∧ x ≤ i ∧ step ∣ x - i := by
  have hn : ¬ 0 < step := by omega
  induction fuel generalizing i with
  | zero =>
    simp only [forValues, List.not_mem_nil, false_iff, not_and]
    intro h1 h2
    push_cast at hf
    omega
  | succ fuel ih =>
    by_cases hc : cond < i
    · rw [forValues, if_pos (by simpa [hn] using hc), List.mem_cons]
      have hi := ih (i + step) (by push_cast at hf; omega)
      refine Iff.trans (or_congr_right hi) ?_
      constructor
      · rintro (rfl | ⟨h1, h2, h3⟩)
        · exact ⟨hc, le_rfl, by simp⟩
        · refine ⟨h1, by omega, ?_⟩
          have := dvd_add h3 (dvd_refl step)
          rwa [show x - (i + step) + step = x - i by ring] at this
      · rintro ⟨h1, h2, h3⟩
        rcases eq_or_lt_of_le h2 with rfl | hlt
        · exact Or.inl rfl
        · have hd : -step ∣ i - x := by
            rw [neg_dvd, ← dvd_neg, neg_sub]
            exact h3
          have hle := Int.le_of_dvd (by omega) hd
          refine Or.inr ⟨h1, by omega, ?_⟩
          have := dvd_sub h3 (dvd_refl step)
          rwa [show x - i - step = x - (i + step) by ring] at this
    · rw [forValues, if_neg (by simpa [hn] using hc)]
      simp only [List.not_mem_nil, false_iff, not_and]
      intro h1 h2
      omega

theorem mem_loopValues_of_pos {init cond step : ℤ} (hs : 0 < step) (x : ℤ) :
    x ∈ loopValues init cond step ↔ init ≤ x ∧ x < cond ∧ step ∣ x - init :=
  mem_forValues_up hs _ _ (by omega) x

theorem mem_loopValues_of_neg {init cond step : ℤ} (hs : step < 0) (x : ℤ) :
    x ∈ loopValues init cond step ↔ cond < x ∧ x ≤ init ∧ step ∣ x - init :=
  mem_forValues_down hs _ _ (by omega) x

/-- Each later value lies at a positive multiple of `step` from the current one. -/
theorem forValues_offset (c : ℤ → Bool) (step : ℤ) (fuel : ℕ) (i : ℤ) :
    ∀ x ∈ forValues c step fuel i, ∃ k : ℕ, x = i + k * step := by
  induction fuel generalizing i with
  | zero => simp [forValues]
  | succ fuel ih =>
    intro x hx
    unfold forValues at hx
    split_ifs at hx
    · rcases List.mem_cons.mp hx with rfl | hx
      · exact ⟨0, by simp⟩
      · obtain ⟨k, rfl⟩ := ih (i + step) x hx
        exact ⟨k + 1, by push_cast; ring⟩
    · simp at hx

theorem forValues_pairwise_lt {c : ℤ → Bool} {step : ℤ} (hs : 0 < step) (fuel : ℕ) (i : ℤ) :
    (forValues c step fuel i).Pairwise (· < ·) := by
  induction fuel generalizing i with
  | zero => simp [forValues]
  | succ fuel ih =>
    unfold forValues
    split_ifs
    · refine List.pairwise_cons.mpr ⟨fun x hx => ?_, ih (i + step)⟩
      obtain ⟨k, rfl⟩ := forValues_offset c step fuel (i + step) x hx
      have : 0 ≤ (k : ℤ) * step := by positivity
      omega
    · exact List.Pairwise.nil

theorem forValues_pairwise_gt {c : ℤ → Bool} {step : ℤ} (hs : step < 0) (fuel : ℕ) (i : ℤ) :
    (forValues c step fuel i).Pairwise (· > ·) := by
  induction fuel generalizing i with
  | zero => simp [forValues]
  | succ fuel ih =>
    unfold forValues
    split_ifs
    · refine List.pairwise_cons.mpr ⟨fun x hx => ?_, ih (i + step)⟩
      obtain ⟨k, rfl⟩ := forValues_offset c step fuel (i + step) x hx
      have : (k : ℤ) * step ≤ 0 := mul_nonpos_of_nonneg_of_nonpos (by positivity) hs.le
      omega
    · exact List.Pairwise.nil

theorem loopValues_pairwise_lt {init cond step : ℤ} (hs : 0 < step) :
    (loopValues init cond step).Pairwise (· < ·) :=
  forValues_pairwise_lt hs _ _

theorem loopValues_pairwise_gt {init cond step : ℤ} (hs : step < 0) :
    (loopValues init cond step).Pairwise (· > ·) :=
  forValues_pairwise_gt hs _ _

theorem loopValues_nodup {init cond step : ℤ} (hs : step ≠ 0) :
    (loopValues init cond step).Nodup := by
  rcases lt_or_gt_of_ne hs with h | h
  · exact (loopValues_pairwise_gt h).imp fun h => ne_of_gt h
  · exact (loopValues_pairwise_lt h).imp fun h => ne_of_lt h

/-- The first hit of a search along an ordered list precedes every other hit. -/
theorem find?_first {R : ℤ → ℤ → Prop} {p : ℤ → Bool} {l : List ℤ} (hl : l.Pairwise R) {x : ℤ}
    (hx : l.find? p = some x) : x ∈ l ∧ p x ∧ ∀ y ∈ l, p y → y = x ∨ R x y := by
  induction l with
  | nil => simp at hx
  | cons a l ih =>
    rw [List.pairwise_cons] at hl
    rw [List.find?_cons] at hx
    split at hx
    · next hp =>
      obtain rfl : a = x := by simpa using hx
      refine ⟨by simp, hp, fun y hy _ => ?_⟩
      rcases List.mem_cons.mp hy with rfl | hy
      · exact Or.inl rfl
      · exact Or.inr (hl.1 y hy)
    · next hp =>
      obtain ⟨h1, h2, h3⟩ := ih hl.2 hx
      refine ⟨List.mem_cons_of_mem _ h1, h2, fun y hy hpy => ?_⟩
      rcases List.mem_cons.mp hy with rfl | hy
      · simp [hp] at hpy
      · exact h3 y hy hpy

/-! ## Values by position -/

/-- Distance from `init` to `cond` in the direction of `step`. -/
def reach (init cond step : ℤ) : ℤ := if 0 < step then cond - init else init - cond

def loopCount (init cond step : ℤ) : ℕ :=
  ((reach init cond step + (step.natAbs - 1)) / step.natAbs).toNat

theorem lt_loopCount_iff {init cond step : ℤ} (hs : step ≠ 0) (k : ℕ) :
    k < loopCount init cond step ↔ k * (step.natAbs : ℤ) < reach init cond step := by
  have hpos : (0 : ℤ) < step.natAbs := by omega
  rw [loopCount, Int.lt_toNat, Int.lt_iff_add_one_le, Int.le_ediv_iff_mul_le hpos]
  constructor <;> intro h <;> nlinarith

theorem lt_loopCount_mul_iff {init cond step : ℤ} (hs : step ≠ 0) {C : ℕ} (hC : 1 ≤ C) (k : ℕ) :
    k < loopCount init cond (C * step) ↔ k * C < loopCount init cond step := by
  have hc : (C : ℤ) * step ≠ 0 := mul_ne_zero (by omega) hs
  have hpos : (0 : ℤ) < C * step ↔ 0 < step := mul_pos_iff_of_pos_left (by omega)
  rw [lt_loopCount_iff hc, lt_loopCount_iff hs, Int.natAbs_mul, Int.natAbs_natCast]
  unfold reach
  simp only [hpos]
  push_cast
  rw [mul_assoc]

theorem continues_iff {init cond step : ℤ} (k : ℕ) :
    (if 0 < step then init + k * step < cond else cond < init + k * step) ↔
      k * (step.natAbs : ℤ) < reach init cond step := by
  unfold reach
  split_ifs with h
  · rw [Int.natAbs_of_nonneg h.le]
    omega
  · rw [Int.ofNat_natAbs_of_nonpos (by omega)]
    constructor <;> intro h' <;> linarith

theorem forValues_eq_map {c : ℤ → Bool} {step : ℤ} {K fuel : ℕ} {i : ℤ} (hK : K ≤ fuel)
    (hrun : ∀ k < K, c (i + k * step)) (hstop : K < fuel → c (i + K * step) = false) :
    forValues c step fuel i = (List.range K).map fun k : ℕ => i + k * step := by
  induction K generalizing fuel i with
  | zero =>
    cases fuel with
    | zero => rfl
    | succ fuel =>
      have := hstop (by omega)
      rw [Nat.cast_zero, zero_mul, add_zero] at this
      simp [forValues, this]
  | succ K ih =>
    obtain ⟨fuel, rfl⟩ : ∃ m, fuel = m + 1 := ⟨fuel - 1, by omega⟩
    have hstep : ∀ k : ℕ, i + step + k * step = i + (k + 1 : ℕ) * step := by
      intro k
      push_cast
      ring
    have h0 := hrun 0 (by omega)
    rw [Nat.cast_zero, zero_mul, add_zero] at h0
    rw [forValues, if_pos h0, List.range_succ_eq_map, List.map_cons, List.map_map, ih (by omega)]
    · simp [hstep, Function.comp_def]
    · intro k hk
      rw [hstep]
      exact hrun (k + 1) (by omega)
    · intro hlt
      rw [hstep]
      exact hstop (by omega)

theorem loopValues_eq_map {init cond step : ℤ} (hs : step ≠ 0) :
    loopValues init cond step =
      (List.range (loopCount init cond step)).map fun k : ℕ => init + k * step := by
  have hlt := @lt_loopCount_iff init cond step hs
  unfold loopValues
  apply forValues_eq_map
  · by_contra hc
    have h := (hlt (cond - init).natAbs).mp (by omega)
    have hd : reach init cond step ≤ (cond - init).natAbs := by
      unfold reach
      split_ifs <;> omega
    have hpos : (1 : ℤ) ≤ step.natAbs := by omega
    nlinarith
  · intro k hk
    simpa using (continues_iff k).mpr ((hlt k).mp hk)
  · intro _
    have := (hlt (loopCount init cond step)).not.mp (lt_irrefl _)
    rw [← continues_iff] at this
    split_ifs at this ⊢ <;> exact decide_eq_false this

theorem loopValues_length {init cond step : ℤ} (hs : step ≠ 0) :
    (loopValues init cond step).length = loopCount init cond step := by
  simp [loopValues_eq_map hs]

theorem loopValues_eq_nil {init cond step : ℤ} (hs : step ≠ 0) (h : reach init cond step ≤ 0) :
    loopValues init cond step = [] := by
  have h0 := (@lt_loopCount_iff init cond step hs 0).not.mpr (by simpa using h)
  rw [loopValues_eq_map hs, Nat.eq_zero_of_not_pos h0]
  rfl

/-- The bound of the block of `w` iterations that starts at iteration `k`, cut at the bound
of the loop. -/
def blockEnd (init cond step : ℤ) (k w : ℕ) : ℤ :=
  if reach init cond step ≤ (k + w : ℕ) * (step.natAbs : ℤ) then cond else init + (k + w : ℕ) * step

theorem reach_block {init cond step : ℤ} (k w : ℕ) :
    reach (init + k * step) (blockEnd init cond step k w) step =
      min (w * (step.natAbs : ℤ)) (reach init cond step - k * step.natAbs) := by
  have habs : (step.natAbs : ℤ) = if 0 < step then step else -step := by
    split_ifs <;> omega
  unfold blockEnd
  split_ifs with h <;> unfold reach at h ⊢ <;> rw [habs] at h ⊢ <;> push_cast at h ⊢ <;>
    split_ifs at h ⊢ with hs <;> first | rw [min_eq_right (by linarith)]; ring |
      rw [min_eq_left (by linarith)]; ring

theorem loopValues_block {init cond step : ℤ} (hs : step ≠ 0) (k w : ℕ) :
    loopValues (init + k * step) (blockEnd init cond step k w) step =
      ((loopValues init cond step).drop k).take w := by
  have hpos : (0 : ℤ) < step.natAbs := by omega
  have hcount : loopCount (init + k * step) (blockEnd init cond step k w) step =
      min w (loopCount init cond step - k) := by
    apply eq_of_forall_lt_iff
    intro m
    rw [lt_loopCount_iff hs, reach_block, lt_min_iff, lt_min_iff, mul_lt_mul_iff_left₀ hpos,
      Nat.cast_lt, Nat.lt_sub_iff_add_lt, lt_loopCount_iff hs, Nat.cast_add, add_mul,
      lt_sub_iff_add_lt]
  rw [loopValues_eq_map hs, loopValues_eq_map hs, hcount]
  apply List.ext_getElem
  · simp
  · intro i h1 h2
    simp
    ring

end OmniCompiler.ForLoop
