import Mathlib.Tactic

/-!
# Finite arithmetic progressions

`strided lower upper stride` is the section `lower : upper : stride`. The upper bound need
not be an element.
-/
namespace OmniCompiler.Progression

/-- Every `stride`-th integer from `lower` to `upper`. -/
def strided (lower upper stride : ℤ) : Set ℤ := {x | lower ≤ x ∧ x ≤ upper ∧ stride ∣ x - lower}

instance (lower upper stride x : ℤ) : Decidable (x ∈ strided lower upper stride) :=
  inferInstanceAs (Decidable (_ ∧ _))

variable {l u s l' u' s' : ℤ}

theorem mem_strided_mul (hs : 0 < s) {q k : ℤ} :
    k * s + l ∈ strided l (q * s + l) s ↔ 0 ≤ k ∧ k ≤ q := by
  have h0 : 0 ≤ k * s ↔ 0 ≤ k := mul_nonneg_iff_of_pos_right hs
  have h1 : k * s ≤ q * s ↔ k ≤ q := mul_le_mul_iff_of_pos_right hs
  simp [strided, h0, h1]

theorem exists_mul_of_mem_strided {x : ℤ} (hx : x ∈ strided l u s) : ∃ k, x = k * s + l := by
  obtain ⟨-, -, k, hk⟩ := hx
  exact ⟨k, by linarith⟩

theorem left_mem_strided (h : l ≤ u) : l ∈ strided l u s := ⟨le_rfl, h, by simp⟩

theorem dvd_sub_of_mem {x y : ℤ} (hx : x ∈ strided l u s) (hy : y ∈ strided l u s) :
    s ∣ x - y := by
  have := dvd_sub hx.2.2 hy.2.2
  rwa [sub_sub_sub_cancel_right] at this

theorem mem_inter_iff_of_residue {i x : ℤ} (h : s ∣ i - l) (h' : s' ∣ i - l') :
    x ∈ strided l u s ∩ strided l' u' s' ↔
      (l ≤ x ∧ l' ≤ x) ∧ (x ≤ u ∧ x ≤ u') ∧ s ∣ x - i ∧ s' ∣ x - i := by
  have e : s ∣ x - l ↔ s ∣ x - i := by
    rw [← dvd_sub_left h, sub_sub_sub_cancel_right]
  have e' : s' ∣ x - l' ↔ s' ∣ x - i := by
    rw [← dvd_sub_left h', sub_sub_sub_cancel_right]
  simp only [strided, Set.mem_inter_iff, Set.mem_ofPred_eq, e, e']
  tauto

theorem strided_round (hs : 0 < s) (h : l ≤ u) :
    strided l (l + s * (u - l).tdiv s) s = strided l u s := by
  have hdm := Int.tmod_add_tdiv_mul (u - l) s
  have h0 := Int.tmod_nonneg s (show 0 ≤ u - l by omega)
  have h1 := Int.tmod_lt_of_pos (u - l) hs
  ext x
  constructor
  · rintro ⟨h2, h3, h4⟩
    exact ⟨h2, by linarith, h4⟩
  · rintro ⟨h2, h3, k, hk⟩
    refine ⟨h2, ?_, k, hk⟩
    have hle : k ≤ (u - l).tdiv s := by
      by_contra hc
      nlinarith
    nlinarith

/-! ## Where two progressions meet -/

/-- Some number has residue `l` modulo `s` and residue `c` modulo `m`. -/
def Meets (l s c m : ℤ) : Prop := (Int.gcd s m : ℤ) ∣ c - l

instance (l s c m : ℤ) : Decidable (Meets l s c m) := inferInstanceAs (Decidable (_ ∣ _))

def meet (l s c m : ℤ) : ℤ := l + s * (Int.gcdA s m * ((c - l) / Int.gcd s m))

/-- The first such number from `lo` on. -/
def firstMeet (l s c m lo : ℤ) : ℤ := lo + (meet l s c m - lo) % Int.lcm s m

/-- The last such number up to `hi`. -/
def lastMeet (l s c m hi : ℤ) : ℤ := hi - (hi - meet l s c m) % Int.lcm s m

section

variable {c m lo hi : ℤ}

theorem meet_spec (hs : s ≠ 0) (h : Meets l s c m) :
    s ∣ meet l s c m - l ∧ m ∣ meet l s c m - c := by
  have hg : (Int.gcd s m : ℤ) ≠ 0 := by
    exact_mod_cast (Int.gcd_pos_of_ne_zero_left m hs).ne'
  obtain ⟨k, hk⟩ := h
  have hbez := Int.gcd_eq_gcd_ab s m
  rw [meet, hk, Int.mul_ediv_cancel_left k hg]
  refine ⟨⟨Int.gcdA s m * k, by ring⟩, -(Int.gcdB s m * k), ?_⟩
  rw [show l + s * (Int.gcdA s m * k) - c = s * Int.gcdA s m * k - (c - l) by ring, hk, hbez]
  ring

/-- The numbers of both residues are those of one residue modulo the least common multiple. -/
theorem dvd_and_dvd_iff (hs : s ≠ 0) {x : ℤ} :
    s ∣ x - l ∧ m ∣ x - c ↔ Meets l s c m ∧ (Int.lcm s m : ℤ) ∣ x - meet l s c m := by
  constructor
  · rintro ⟨h1, h2⟩
    have hmeets : Meets l s c m := by
      have := dvd_sub ((Int.gcd_dvd_left ..).trans h1) ((Int.gcd_dvd_right ..).trans h2)
      rwa [sub_sub_sub_cancel_left] at this
    obtain ⟨h3, h4⟩ := meet_spec hs hmeets
    refine ⟨hmeets, Int.coe_lcm_dvd ?_ ?_⟩
    · have := dvd_sub h1 h3
      rwa [sub_sub_sub_cancel_right] at this
    · have := dvd_sub h2 h4
      rwa [sub_sub_sub_cancel_right] at this
  · rintro ⟨hmeets, h⟩
    obtain ⟨h3, h4⟩ := meet_spec hs hmeets
    obtain ⟨h1, h2⟩ := Int.coe_lcm_dvd_iff.mp h
    replace h1 := dvd_add h1 h3
    replace h2 := dvd_add h2 h4
    rw [sub_add_sub_cancel] at h1 h2
    exact ⟨h1, h2⟩

theorem lcm_cast_pos (hs : s ≠ 0) (hm : m ≠ 0) : (0 : ℤ) < Int.lcm s m := by
  exact_mod_cast Int.lcm_pos hs hm

theorem isLeast_firstMeet (hs : s ≠ 0) (hm : m ≠ 0) (h : Meets l s c m) (lo : ℤ) :
    IsLeast {x | lo ≤ x ∧ s ∣ x - l ∧ m ∣ x - c} (firstMeet l s c m lo) := by
  have hM := lcm_cast_pos hs hm
  have h0 := Int.emod_nonneg (meet l s c m - lo) hM.ne'
  have h1 := Int.emod_lt_of_pos (meet l s c m - lo) hM
  have hdvd := Int.dvd_self_sub_emod (x := meet l s c m - lo) (m := Int.lcm s m)
  refine ⟨⟨by unfold firstMeet; omega, (dvd_and_dvd_iff hs).mpr ⟨h, ?_⟩⟩, ?_⟩
  · rw [← dvd_neg] at hdvd
    rwa [show firstMeet l s c m lo - meet l s c m =
      -(meet l s c m - lo - (meet l s c m - lo) % Int.lcm s m) by unfold firstMeet; ring]
  · rintro y ⟨hy, hres⟩
    obtain ⟨-, hy'⟩ := (dvd_and_dvd_iff hs).mp hres
    have hdiff := dvd_add hy' hdvd
    by_contra hlt
    unfold firstMeet at hlt
    have hpos : 0 < -(y - meet l s c m +
        (meet l s c m - lo - (meet l s c m - lo) % Int.lcm s m)) := by omega
    have := Int.le_of_dvd hpos ((dvd_neg).mpr hdiff)
    omega

theorem isGreatest_lastMeet (hs : s ≠ 0) (hm : m ≠ 0) (h : Meets l s c m) (hi : ℤ) :
    IsGreatest {x | x ≤ hi ∧ s ∣ x - l ∧ m ∣ x - c} (lastMeet l s c m hi) := by
  have hM := lcm_cast_pos hs hm
  have h0 := Int.emod_nonneg (hi - meet l s c m) hM.ne'
  have h1 := Int.emod_lt_of_pos (hi - meet l s c m) hM
  have hdvd := Int.dvd_self_sub_emod (x := hi - meet l s c m) (m := Int.lcm s m)
  refine ⟨⟨by unfold lastMeet; omega, (dvd_and_dvd_iff hs).mpr ⟨h, ?_⟩⟩, ?_⟩
  · rwa [show lastMeet l s c m hi - meet l s c m =
      hi - meet l s c m - (hi - meet l s c m) % Int.lcm s m by unfold lastMeet; ring]
  · rintro y ⟨hy, hres⟩
    obtain ⟨-, hy'⟩ := (dvd_and_dvd_iff hs).mp hres
    have hdiff := dvd_sub hy' hdvd
    by_contra hlt
    unfold lastMeet at hlt
    have hpos : 0 < y - meet l s c m -
        (hi - meet l s c m - (hi - meet l s c m) % Int.lcm s m) := by omega
    have := Int.le_of_dvd hpos hdiff
    omega

/-- Between two bounds there is such a number if the first one from the lower bound on is. -/
theorem meets_between_iff (hs : s ≠ 0) (hm : m ≠ 0) :
    (∃ x, lo ≤ x ∧ x ≤ hi ∧ s ∣ x - l ∧ m ∣ x - c) ↔
      Meets l s c m ∧ firstMeet l s c m lo ≤ hi := by
  constructor
  · rintro ⟨x, h0, h1, h2⟩
    have hmeets := ((dvd_and_dvd_iff hs).mp h2).1
    exact ⟨hmeets, ((isLeast_firstMeet hs hm hmeets lo).2 ⟨h0, h2⟩).trans h1⟩
  · rintro ⟨hmeets, h⟩
    obtain ⟨h0, h2⟩ := (isLeast_firstMeet hs hm hmeets lo).1
    exact ⟨_, h0, h, h2⟩

theorem meets_between_iff_last (hs : s ≠ 0) (hm : m ≠ 0) :
    (∃ x, lo ≤ x ∧ x ≤ hi ∧ s ∣ x - l ∧ m ∣ x - c) ↔
      Meets l s c m ∧ lo ≤ lastMeet l s c m hi := by
  constructor
  · rintro ⟨x, h0, h1, h2⟩
    have hmeets := ((dvd_and_dvd_iff hs).mp h2).1
    exact ⟨hmeets, h0.trans ((isGreatest_lastMeet hs hm hmeets hi).2 ⟨h1, h2⟩)⟩
  · rintro ⟨hmeets, h⟩
    obtain ⟨h1, h2⟩ := (isGreatest_lastMeet hs hm hmeets hi).1
    exact ⟨_, h, h1, h2⟩

end

end OmniCompiler.Progression
