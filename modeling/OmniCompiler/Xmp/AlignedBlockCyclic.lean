import OmniCompiler.Arithmetic.Runs
import OmniCompiler.Xmp.AlignedParts

/-!
# The parts of a block-cyclic dimension

`_XMP_align_array_BLOCK_CYCLIC` computes the elements of a rank from the start of its first block. A
first block that the array cuts, and a rank without elements, are where it goes wrong.
-/
namespace OmniCompiler.Xmp

open MachineInt BlockCyclic OwnedCount Runs SmallFin

variable {k d n : ℕ}

/-- When the size of a rank without elements comes out as zero, where its next block starts `-y`
after the last element: the unsigned division leaves no remainder of the 64 bits, or one that makes
up for it. -/
def EmptyFits (w P y : ℤ) : Prop :=
  P * w ∣ 2 ^ 64 ∨ P ∣ 2 ^ 64 ∧ 0 < 2 ^ 64 % (P * w) ∧
    2 ^ 64 % (P * w) = P * (2 ^ 64 % (P * w) + y + 1)

theorem wrapped_division {c y : ℤ} (hc : 0 < c) (hy : -c < y) (hy' : y < 0) :
    (0 ≤ 2 ^ 64 % c + y ∧ (2 ^ 64 + y) / c = 2 ^ 64 / c ∧ (2 ^ 64 + y) % c = 2 ^ 64 % c + y) ∨
      (2 ^ 64 % c + y < 0 ∧ (2 ^ 64 + y) / c = 2 ^ 64 / c - 1 ∧
        (2 ^ 64 + y) % c = 2 ^ 64 % c + y + c) := by
  have hdm := Int.emod_add_mul_ediv (2 ^ 64) c
  have h0 := Int.emod_nonneg (2 ^ 64) hc.ne'
  have h1 := Int.emod_lt_of_pos (2 ^ 64) hc
  rcases le_or_gt 0 (2 ^ 64 % c + y) with hin | hout
  · refine Or.inl ⟨hin, ?_⟩
    exact (Int.ediv_emod_unique hc).mpr ⟨by linarith, hin, by omega⟩
  · refine Or.inr ⟨hout, ?_⟩
    exact (Int.ediv_emod_unique hc).mpr ⟨by linarith, by omega, by omega⟩

theorem emptySize_eq_zero_iff {w P y : ℤ} (hw : 0 < w) (hP : 0 < P) (hround : InInt (2 * (P * w)))
    (hy : w - P * w ≤ y) (hy' : y < 0) {dist diff : ℤ}
    (hdist : dist = toInt ((2 ^ 64 + y) / (P * w)))
    (hdiff : diff = y - toInt (dist * (P * w)) - (w - 1)) :
    toInt (if 0 < diff then (dist + 1) * w else (dist + 1) * w + diff) = 0 ↔ EmptyFits w P y := by
  obtain ⟨c, hc⟩ : ∃ c, c = P * w := ⟨_, rfl⟩
  have hwc : w ≤ c := hc ▸ le_mul_of_one_le_left hw.le hP
  have hPc : P ≤ c := hc ▸ le_mul_of_one_le_right hP.le hw
  have hc31 := hround.2
  rw [EmptyFits, ← hc]
  rw [← hc] at hdist hdiff hy hc31
  obtain ⟨Q, hQ⟩ : ∃ Q, Q = (2 ^ 64 + y) / c := ⟨_, rfl⟩
  obtain ⟨e, he⟩ : ∃ e, e = (2 ^ 64 + y) % c := ⟨_, rfl⟩
  obtain ⟨A, hA⟩ : ∃ A : ℤ, A = 2 ^ 64 / c := ⟨_, rfl⟩
  obtain ⟨e₀, he₀⟩ : ∃ e : ℤ, e = 2 ^ 64 % c := ⟨_, rfl⟩
  have hcases := wrapped_division (show 0 < c by omega) (by omega) hy'
  have hAe : e₀ + c * A = 2 ^ 64 := by rw [he₀, hA]; exact Int.emod_add_mul_ediv _ c
  have hQe : e + c * Q = 2 ^ 64 + y := by rw [he, hQ]; exact Int.emod_add_mul_ediv _ c
  have he0 : 0 ≤ e := he ▸ Int.emod_nonneg _ (by omega)
  have he1 : e < c := he ▸ Int.emod_lt_of_pos _ (by omega)
  have he₀0 : 0 ≤ e₀ := he₀ ▸ Int.emod_nonneg _ (by omega)
  have he₀1 : e₀ < c := he₀ ▸ Int.emod_lt_of_pos _ (by omega)
  have hcdvd : c ∣ 2 ^ 64 ↔ e₀ = 0 := by rw [he₀, Int.dvd_iff_emod_eq_zero]
  rw [← hQ, ← he, ← hA, ← he₀] at hcases
  rw [← hQ] at hdist
  rw [← he₀, hcdvd]
  -- modulo the range of `int` the quotient is that of the division
  have hdQ : 2 ^ 32 ∣ Q - dist := hdist ▸ dvd_sub_toInt Q
  have hback : toInt (dist * c) = y - e := by
    refine toInt_eq_of_dvd_sub ⟨by omega, by omega⟩ ?_
    have heq : dist * c - (y - e) = 2 ^ 64 - (Q - dist) * c := by linarith
    rw [heq]
    exact dvd_sub (by norm_num) (Dvd.dvd.mul_right hdQ c)
  have hdiff' : diff = e - (w - 1) := by rw [hdiff, hback]; ring
  have hmod : ∀ z, toInt ((dist + 1) * w + z) = 0 ↔ 2 ^ 32 ∣ (Q + 1) * w + z := by
    intro z
    have hsub := dvd_sub_toInt ((dist + 1) * w + z)
    have heq : (Q + 1) * w + z = (Q - dist) * w + ((dist + 1) * w + z) := by ring
    rw [heq, dvd_add_right (Dvd.dvd.mul_right hdQ w)]
    constructor
    · intro h
      rwa [h, sub_zero] at hsub
    · exact fun h => toInt_eq_of_dvd_sub ⟨by norm_num, by norm_num⟩ (by rwa [sub_zero])
  have hX : P * ((Q + 1) * w) = 2 ^ 64 + y - e + c := by
    rw [hc]
    rw [hc] at hQe
    linear_combination hQe
  have hXe : P * ((Q + 1) * w + (e - (w - 1))) = 2 ^ 64 + y - e + P * (e + 1) := by
    rw [mul_add, hX, hc]
    ring
  have hall : ∀ X, P * X = 2 ^ 64 → 2 ^ 32 ∣ X := by
    intro X hPX
    obtain ⟨p, hp⟩ := dvd_two_pow_of_le (k := 32) (Dvd.intro X hPX) (by omega) hP
    refine ⟨p, mul_left_cancel₀ hP.ne' ?_⟩
    rw [hPX]
    linear_combination (2 ^ 32 : ℤ) * hp
  rw [hdiff']
  rcases hcases with ⟨hin, hQA, heA⟩ | ⟨hout, hQA, heA⟩
  · split_ifs with hpos
    · have hlarge := mul_le_mul_of_nonneg_left (show w ≤ e + 1 by omega) hP.le
      rw [← add_zero ((dist + 1) * w), hmod, add_zero]
      constructor
      · intro h
        have := Dvd.dvd.mul_left h P
        omega
      · rintro (h | ⟨-, -, h⟩)
        · omega
        · rw [← heA] at h
          omega
    · have hsmall := mul_le_mul_of_nonneg_left (show e + 1 ≤ w by omega) hP.le
      have hsome := mul_pos hP (show 0 < e + 1 by omega)
      rw [hmod, ← heA]
      constructor
      · intro h
        have hPX := Dvd.dvd.mul_left h P
        have heq : e₀ = P * (e + 1) := by omega
        exact Or.inr ⟨⟨_, by rw [hXe]; omega⟩, by omega, heq⟩
      · rintro (h | ⟨-, -, h⟩)
        · omega
        · exact hall _ (by rw [hXe]; omega)
  · have hno : ¬ (P ∣ 2 ^ 64 ∧ 0 < e₀ ∧ e₀ = P * (e₀ + y + 1)) := by
      rintro ⟨-, h0, h1⟩
      have := mul_nonneg hP.le (show 0 ≤ -(e₀ + y + 1) by omega)
      rw [mul_neg] at this
      omega
    rw [or_iff_left hno]
    split_ifs with hpos
    · rw [← add_zero ((dist + 1) * w), hmod, add_zero]
      constructor
      · intro h
        have := Dvd.dvd.mul_left h P
        omega
      · exact fun h => hall _ (by omega)
    · have hsmall := mul_le_mul_of_nonneg_left (show e + 1 ≤ w by omega) hP.le
      have hsome := mul_pos hP (show 0 < e + 1 by omega)
      rw [hmod]
      constructor
      · intro h
        have := Dvd.dvd.mul_left h P
        omega
      · intro h
        omega

/-- The arithmetic of `_XMP_align_array_BLOCK_CYCLIC` is right about the runs when the first of them
starts in the interval or the interval ends in one. -/
theorem runs_right_iff {w c L U S : ℤ} (hw : 0 < w) (hwc : w ≤ c) (hLU : L ≤ U) (h1 : L < S + w)
    (h2 : S + w ≤ L + c) (hSU : S ≤ U) {number lower upper size : ℤ} (hnumber : number =
      (U - S) / c * w + min w ((U - S) % c + 1) - max 0 (L - S)) (hlower : lower = max L S)
    (hupper : upper = if 0 < U - (max L S + (U - S) / c * c + (w - 1)) then
      max L S + (U - S) / c * c + (w - 1) else U)
    (hsize : size = if 0 < U - (max L S + (U - S) / c * c + (w - 1)) then ((U - S) / c + 1) * w
      else ((U - S) / c + 1) * w + (U - (max L S + (U - S) / c * c + (w - 1)))) :
    (size = number ∧ IsLeast (runs w c S L U) lower ∧ IsGreatest (runs w c S L U) upper) ↔
      L ≤ S ∨ (U - S) % c < w := by
  have hc : 0 < c := by omega
  have hdm := Int.emod_add_mul_ediv (U - S) c
  have he0 := Int.emod_nonneg (U - S) hc.ne'
  have he1 := Int.emod_lt_of_pos (U - S) hc
  have hleast := isLeast_runs hw hwc hLU h1 h2 hSU
  have hgreatest := isGreatest_runs hw hwc h1 h2 hSU fun _ => hLU
  have hround : (U - S) / c * c = c * ((U - S) / c) := mul_comm _ _
  have hnext : ((U - S) / c + 1) * w = (U - S) / c * w + w := by ring
  rw [hnumber, hlower]
  generalize (U - S) / c = D at *
  generalize (U - S) % c = e at *
  rw [hround] at hupper hsize hgreatest
  rw [hnext] at hsize
  constructor
  · rintro ⟨-, -, hb⟩
    have heq := hb.unique hgreatest
    by_contra hbad
    push Not at hbad
    obtain ⟨hSL, hwe⟩ := hbad
    rw [hupper, if_neg (by omega)] at heq
    split_ifs at heq <;> omega
  · intro hgood
    refine ⟨?_, hleast, ?_⟩
    · rw [hsize]
      split_ifs <;> omega
    · have heq : upper = if e < w then U else S + c * D + (w - 1) := by
        rw [hupper]
        split_ifs <;> omega
      rw [heq]
      exact hgreatest

theorem setOf_owner_eq_runs {w lb sub L U S : ℤ} {P r : ℕ} (hw : 0 < w) (hr : r < P)
    (hS : S = ((L + sub - lb) / w + (r - (L + sub - lb) / w) % P) * w - sub + lb) :
    L < S + w ∧ S + w ≤ L + P * w ∧
      {g | L ≤ g ∧ g ≤ U ∧ owner w P (g + sub - lb) = r} = runs w (P * w) S L U := by
  have hP : (0 : ℤ) < P := by omega
  obtain ⟨l, hl⟩ : ∃ l, l = L + sub - lb := ⟨_, rfl⟩
  obtain ⟨q, hq⟩ : ∃ q, q = l / w := ⟨_, rfl⟩
  obtain ⟨m, hm⟩ : ∃ m, m = ((r : ℤ) - q) % P := ⟨_, rfl⟩
  rw [← hl, ← hq, ← hm] at hS
  have hm0 : 0 ≤ m := hm ▸ Int.emod_nonneg _ hP.ne'
  have hm1 : m < P := hm ▸ Int.emod_lt_of_pos _ hP
  have hmw : 0 ≤ m * w := mul_nonneg hm0 hw.le
  have hmP : (m + 1) * w ≤ P * w := mul_le_mul_of_nonneg_right (by omega) hw.le
  have hl0 := Int.emod_nonneg l hw.ne'
  have hl1 := Int.emod_lt_of_pos l hw
  have hlq : l % w + q * w = l := by
    rw [hq, mul_comm]
    exact Int.emod_add_mul_ediv l w
  have hSw : (q + m) * w = q * w + m * w := by ring
  have hexp : (m + 1) * w = m * w + w := by ring
  have hplace : (q + m) % P = r := by
    rw [hm, Int.add_emod_emod, add_sub_cancel, Int.emod_eq_of_lt (by omega) (by omega)]
  refine ⟨by omega, by omega, ?_⟩
  ext g
  have hrun := owner_eq_iff_run hw hP (q + m) (g + sub - lb)
  have heq : g + sub - lb - (q + m) * w = g - S := by rw [hS]; ring
  rw [hplace, heq] at hrun
  simp only [runs, Set.mem_ofPred_eq, hrun]

section BlockCyclic

/-- The members of a block-cyclic dimension are those of the elements of the rank. -/
structure BlockCyclicMembers (a : ArrayInfo d) (owned : ℤ → Prop) [DecidablePred owned]
    (lower upper : ℤ) : Prop where
  size : a.parSize = count owned lower (upper + 1)
  bounds : (∃ g, lower ≤ g ∧ g ≤ upper ∧ owned g) →
    IsLeast {g | lower ≤ g ∧ g ≤ upper ∧ owned g} a.parLower ∧
      IsGreatest {g | lower ≤ g ∧ g ≤ upper ∧ owned g} a.parUpper

theorem BlockCyclicMembers.congr {a b : ArrayInfo d} {owned : ℤ → Prop} [DecidablePred owned]
    {lower upper : ℤ} (h : a.parLower = b.parLower ∧ a.parUpper = b.parUpper ∧
      a.parStride = b.parStride ∧ a.parSize = b.parSize) :
    BlockCyclicMembers a owned lower upper ↔ BlockCyclicMembers b owned lower upper := by
  obtain ⟨h1, h2, -, h4⟩ := h
  constructor
  · rintro ⟨hsize, hbounds⟩
    exact ⟨by rw [← h4, hsize], by rw [← h1, ← h2]; exact hbounds⟩
  · rintro ⟨hsize, hbounds⟩
    exact ⟨by rw [h4, hsize], by rw [h1, h2]; exact hbounds⟩

variable {ti : TemplateInfo} {ai : ArrayInfo d} {chunk : TemplateChunk n} {sub w : ℤ} {P r : ℕ}

/-- The start of the first block of a rank that ends after `l`. -/
def firstStart (w P r l : ℤ) : ℤ := (l / w + (r - l / w) % P) * w

theorem le_firstStart_iff {w P r l : ℤ} (hw : 0 < w) (hr0 : 0 ≤ r) (hr1 : r < P) :
    l ≤ firstStart w P r l ↔ w ∣ l ∨ owner w P l ≠ r := by
  obtain ⟨q, hq⟩ : ∃ q, q = l / w := ⟨_, rfl⟩
  obtain ⟨m, hm⟩ : ∃ m, m = (r - q) % P := ⟨_, rfl⟩
  have hm0 : 0 ≤ m := hm ▸ Int.emod_nonneg _ (by omega)
  have hq1 := Int.ediv_mul_le l hw.ne'
  have hl1 := Int.lt_ediv_add_one_mul_self l hw
  rw [← hq] at hq1
  rw [← hq, add_mul, one_mul] at hl1
  have hown : owner w P l = r ↔ m = 0 := by
    rw [hm, owner, ← hq, ← Int.emod_eq_emod_iff_emod_sub_eq_zero, Int.emod_eq_of_lt hr0 hr1]
    exact eq_comm
  rw [firstStart, ← hq, ← hm, ne_eq, hown]
  rcases hm0.eq_or_lt with hzero | hpos
  · rw [← hzero, add_zero, eq_self, not_true_eq_false, or_false]
    constructor
    · intro hle
      exact ⟨q, by rw [mul_comm]; omega⟩
    · intro hdvd
      rw [hq, Int.ediv_mul_cancel hdvd]
  · have hmw : w ≤ m * w := le_mul_of_one_le_left hw.le hpos
    rw [add_mul]
    exact iff_of_true (by omega) (Or.inr hpos.ne')

/-- Where no block of the rank starts in between, the next block is the same one. -/
theorem firstStart_of_lt {w P r l u : ℤ} (hw : 0 < w) (hr0 : 0 ≤ r) (hr1 : r < P) (hlu : l ≤ u)
    (h : u < firstStart w P r l) : firstStart w P r u = firstStart w P r l := by
  obtain ⟨q, hq⟩ : ∃ q, q = l / w := ⟨_, rfl⟩
  obtain ⟨m, hm⟩ : ∃ m, m = (r - q) % P := ⟨_, rfl⟩
  have hm1 : m < P := hm ▸ Int.emod_lt_of_pos _ (by omega)
  have hplace : (q + m) % P = r := by
    rw [hm, Int.add_emod_emod, add_sub_cancel, Int.emod_eq_of_lt hr0 hr1]
  rw [firstStart, ← hq, ← hm] at h
  have hblock : u / w < q + m := Int.ediv_lt_of_lt_mul hw h
  have hfrom : q ≤ u / w := hq ▸ Int.ediv_le_ediv hw hlu
  rw [firstStart, firstStart, ← hq, ← hm, ← hplace, Int.emod_sub_emod,
    Int.emod_eq_of_lt (by omega) (by omega), add_sub_cancel]

/-- When a rank is described right: its elements start with a complete block or end with the array,
or it has none and its size comes out as zero. -/
def RankFits (w P l u r : ℤ) : Prop :=
  ((∃ x, l ≤ x ∧ x ≤ u ∧ owner w P x = r) ∧ (w ∣ l ∨ owner w P l ≠ r ∨ owner w P u = r)) ∨
    (¬ (∃ x, l ≤ x ∧ x ≤ u ∧ owner w P x = r) ∧ EmptyFits w P (u - firstStart w P r u))

theorem blockCyclicInfo_right_iff (hw : 0 < w) (hr : r < P) (hwidth : chunk.parWidth = w)
    (hstride : chunk.parStride = P * w) (hround : InInt (2 * (P * w))) (hsize : chunk.nodesSize = P)
    (hrank : chunk.nodesRank = r) (hlow : ti.serLower ≤ ai.serLower + sub)
    (hup : ai.serUpper + sub ≤ ti.serUpper) {l u : ℤ} (hl : l = ai.serLower + sub - ti.serLower)
    (hu : u = ai.serUpper + sub - ti.serLower) :
    BlockCyclicMembers (blockCyclicInfo ti ai chunk sub)
        (fun g => owner w P (g + sub - ti.serLower) = r) ai.serLower ai.serUpper ↔
      RankFits w P l u r := by
  have hP : (0 : ℤ) < P := by omega
  have hwc : w ≤ P * w := le_mul_of_one_le_left hw.le hP
  have hround' : InInt (P * w) := ⟨by omega, by have := hround.2; omega⟩
  have hle := ai.lower_le_upper
  obtain ⟨q, hq⟩ : ∃ q, q = l / w := ⟨_, rfl⟩
  obtain ⟨m, hm⟩ : ∃ m, m = ((r : ℤ) - q) % P := ⟨_, rfl⟩
  obtain ⟨S, hS⟩ : ∃ S, S = (q + m) * w - sub + ti.serLower := ⟨_, rfl⟩
  -- the runs of the rank
  obtain ⟨h1, h2, hset⟩ :=
    @setOf_owner_eq_runs w ti.serLower sub ai.serLower ai.serUpper S P r hw hr
    (by rw [hS, hm, hq, hl])
  have hplace : (q + m) % P = r := by
    rw [hm, Int.add_emod_emod, add_sub_cancel, Int.emod_eq_of_lt (by omega) (by omega)]
  have hrun : ∀ x, owner w P x = r ↔ (x + ti.serLower - sub - S) % (P * w) < w := by
    intro x
    have h := owner_eq_iff_run hw hP (q + m) x
    have heq : x - (q + m) * w = x + ti.serLower - sub - S := by rw [hS]; ring
    rwa [hplace, heq] at h
  have hnonempty := runs_nonempty_iff hw hwc hle h1 h2
  have hne : (∃ x, l ≤ x ∧ x ≤ u ∧ owner w P x = r) ↔ S ≤ ai.serUpper := by
    rw [← hnonempty, ← hset]
    constructor
    · rintro ⟨x, hx0, hx1, hx⟩
      refine ⟨x + ti.serLower - sub, by omega, by omega, ?_⟩
      rw [← hx]
      congr 1
      ring
    · rintro ⟨g, hg0, hg1, hg⟩
      exact ⟨_, by omega, by omega, hg⟩
  have hmembers : BlockCyclicMembers (blockCyclicInfo ti ai chunk sub)
      (fun g => owner w P (g + sub - ti.serLower) = r) ai.serLower ai.serUpper ↔
      (blockCyclicInfo ti ai chunk sub).parSize = count
          (fun g => owner w P (g + sub - ti.serLower) = r) ai.serLower (ai.serUpper + 1) ∧
        ((runs w (P * w) S ai.serLower ai.serUpper).Nonempty →
          IsLeast (runs w (P * w) S ai.serLower ai.serUpper)
              (blockCyclicInfo ti ai chunk sub).parLower ∧
            IsGreatest (runs w (P * w) S ai.serLower ai.serUpper)
              (blockCyclicInfo ti ai chunk sub).parUpper) := by
    rw [← hset]
    exact ⟨fun h => ⟨h.size, h.bounds⟩, fun h => ⟨h.1, h.2⟩⟩
  rw [hmembers, RankFits, hne, hnonempty]
  rcases lt_or_ge ai.serUpper S with hout | hin
  · -- no element
    obtain ⟨-, -, hps⟩ := blockCyclicInfo_members hw (by omega) hwidth hstride hround' hsize hrank
      hlow (S := S) (by rw [hS, hm, hq, hl])
    have hnone : count (fun g => owner w P (g + sub - ti.serLower) = r) ai.serLower
        (ai.serUpper + 1) = 0 := by
      refine count_eq_zero fun g h0 h1 hg => ?_
      have hx := hne.mp ⟨g + sub - ti.serLower, by omega, by omega, hg⟩
      omega
    have hnext : u - firstStart w P r u = ai.serUpper - S := by
      have hlast : u < firstStart w P r l := by
        rw [firstStart, ← hq, ← hm]
        omega
      rw [firstStart_of_lt hw (by omega) (by omega) (by omega) hlast, firstStart, ← hq, ← hm]
      omega
    have hwrap : toULL (ai.serUpper - S) = 2 ^ 64 + (ai.serUpper - S) := by
      have := hround.2
      unfold toULL
      omega
    have hmax : max ai.serLower S = S := max_eq_right (by omega)
    rw [hwrap, hmax] at hps
    have hempty := @emptySize_eq_zero_iff w P (ai.serUpper - S) hw hP hround (by omega) (by omega)
      _ _ rfl rfl
    have hdiff : ∀ z, ai.serUpper - (S + z + (w - 1)) = ai.serUpper - S - z - (w - 1) :=
      fun z => by ring
    simp only [hdiff] at hps
    rw [hps, hnone, hempty, hnext]
    have hno : ¬ S ≤ ai.serUpper := by omega
    simp [hno]
  · obtain ⟨hpl, hpu, hps⟩ :=
      blockCyclicInfo_members_of_le hw (by omega) hwidth hstride hround' hsize
      hrank hlow hup (S := S) (by rw [hS, hm, hq, hl]) hin
    have hend : u + 1 - 1 - (q + m) * w = ai.serUpper - S := by rw [hu, hS]; ring
    have hstart : l - (q + m) * w = ai.serLower - S := by rw [hl, hS]; ring
    have hnumber : count (fun g => owner w P (g + sub - ti.serLower) = r) ai.serLower
        (ai.serUpper + 1) = (ai.serUpper - S) / (P * w) * w +
          min w ((ai.serUpper - S) % (P * w) + 1) - max 0 (ai.serLower - S) := by
      rw [count_position (fun x => owner w P x = r), ← hl, ← hu,
        count_owner_from hw hP (by omega) (by omega) (by omega), ← hq, ← hm, hend, hstart]
    have hright := runs_right_iff hw hwc hle h1 h2 hin hnumber hpl hpu hps
    -- the two conditions in positions of the template
    have hcut : ai.serLower ≤ S ↔ w ∣ l ∨ owner w P l ≠ r := by
      rw [← le_firstStart_iff hw (by omega) (by omega), firstStart, ← hq, ← hm]
      omega
    have hlast : (ai.serUpper - S) % (P * w) < w ↔ owner w P u = r := by
      have heq : u + ti.serLower - sub - S = ai.serUpper - S := by rw [hu]; ring
      rw [hrun, heq]
    rw [hcut, hlast, or_assoc] at hright
    simp only [hin, true_imp_iff, true_and, not_true_eq_false, false_and, or_false]
    exact hright

end BlockCyclic

section BlockCyclicRanks

variable {t : Template d n} {ti : Fin d} {nodes : Nodes n} {j : Fin n} {w : ℤ}
  {tr : Fin (nodes.info j).size → Template d n} {i : Fin k} {sub lower upper : ℤ}
  {ar : Fin (nodes.info j).size → XmpArray k d n}

/-- When the parts of an interval `[l, u]` of positions in a template of size `T` are described on
all ranks: its first block is complete, or its last element is on the same rank; and the size comes
out as zero on a rank of the template without an element. -/
def BlockCyclicFits (w : ℤ) (P : ℕ) (T l u : ℤ) : Prop :=
  (w ∣ l ∨ owner w P l = owner w P u) ∧
    ∀ r : Fin P, ((r : ℕ) : ℤ) * w < T → (∃ x, l ≤ x ∧ x ≤ u ∧ owner w P x = (r : ℕ)) ∨
      EmptyFits w P (u - firstStart w P (r : ℕ) u)

/-- The `int` values that are computed for a rank are exact: two rounds, and the bounds of the array
moved by a round. -/
structure AlignInInt (w : ℤ) (P : ℕ) (lower upper : ℤ) : Prop where
  rounds : InInt (2 * (P * w))
  lower : InInt (lower - P * w)
  upper : InInt (upper + P * w)

theorem blockCyclicFits_iff {P : ℕ} {T l u : ℤ} (hw : 0 < w) (hP : 0 < P) (hl : 0 ≤ l) (hlu : l ≤ u)
    (hu : u < T) : BlockCyclicFits w P T l u ↔
      ∀ r : Fin P, ((r : ℕ) : ℤ) * w < T → RankFits w P l u (r : ℕ) := by
  have hP' : (0 : ℤ) < P := by omega
  constructor
  · rintro ⟨hfirst, hrest⟩ r hr
    by_cases hsome : ∃ x, l ≤ x ∧ x ≤ u ∧ owner w P x = (r : ℕ)
    · refine Or.inl ⟨hsome, ?_⟩
      rcases hfirst with hdvd | heq
      · exact Or.inl hdvd
      · rw [heq]
        exact Or.inr (ne_or_eq _ _)
    · exact Or.inr ⟨hsome, (hrest r hr).resolve_left hsome⟩
  · intro h
    refine ⟨?_, fun r hr => (h r hr).imp And.left And.right⟩
    -- the rank of the first element
    have h0 : 0 ≤ owner w P l := Int.emod_nonneg _ hP'.ne'
    have h1 : owner w P l < P := Int.emod_lt_of_pos _ hP'
    have hblock : owner w P l * w < T := by
      obtain ⟨k, j, hk, hj0, -, hx⟩ := (owner_eq_iff_of_nonneg hw h0 h1 hl).mp rfl
      have hround : 0 ≤ k * P * w := by positivity
      have hexp : (owner w P l + k * P) * w = owner w P l * w + k * P * w := by ring
      omega
    have hr : ((⟨(owner w P l).toNat, by omega⟩ : Fin P) : ℕ) = (owner w P l).toNat := rfl
    have hcast : ((owner w P l).toNat : ℤ) = owner w P l := Int.toNat_of_nonneg h0
    have hrank := h ⟨(owner w P l).toNat, by omega⟩ (by rw [hr, hcast]; exact hblock)
    rw [hr, hcast] at hrank
    rcases hrank with ⟨-, hdvd | hne | heq⟩ | ⟨hnone, -⟩
    · exact Or.inl hdvd
    · exact absurd rfl hne
    · exact Or.inr heq.symm
    · exact absurd ⟨l, le_rfl, hlu, rfl⟩ hnone

/-- The ranks of `p(2)` with `t(0:11)` dealt in blocks of three, on which `a(lower:upper)` is
aligned. -/
def blockCyclicLine (r : Fin 2) : Template 1 1 :=
  distTemplateBlockCyclic (initTemplateChunk (lineTemplate 0 11 (by decide)
    (lineNodes 2 (by decide))) ((lineNodes 2 (by decide)).onRank 0 r) fun _ => default) 0 0 3

def alignedBlockCyclicLine (lower upper : ℤ) (h : lower ≤ upper) (r : Fin 2) : XmpArray 1 1 1 :=
  (alignArrayBlockCyclic (lineArray blockCyclicLine lower upper h r) 0 0 0).toOption.getD
    (lineArray blockCyclicLine lower upper h r)

end BlockCyclicRanks

end OmniCompiler.Xmp
