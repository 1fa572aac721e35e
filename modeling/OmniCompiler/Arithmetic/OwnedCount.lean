import Mathlib.Algebra.BigOperators.Group.Finset.Basic
import Mathlib.Order.Interval.Finset.Basic
import OmniCompiler.Arithmetic.BlockCyclic

/-!
# Counting the integers of one place

How many integers of an interval a contiguous block and a block-cyclic layout give to one place.
-/
namespace OmniCompiler.OwnedCount

open BlockCyclic

/-- The number of integers of `[a, b)` with a property. -/
def count (p : ℤ → Prop) [DecidablePred p] (a b : ℤ) : ℤ :=
  (List.range (b - a).toNat).countP fun (k : ℕ) => p (a + k)

variable {p : ℤ → Prop} [DecidablePred p]

theorem count_nonneg (a b : ℤ) : 0 ≤ count p a b := Int.natCast_nonneg _

theorem count_congr {q : ℤ → Prop} [DecidablePred q] (h : ∀ x, p x ↔ q x) (a b : ℤ) :
    count p a b = count q a b := by
  simp only [count, h]

theorem count_of_le {a b : ℤ} (h : b ≤ a) : count p a b = 0 := by
  rw [count, Int.toNat_of_nonpos (by omega), List.range_zero, List.countP_nil]
  rfl

theorem count_succ {a b : ℤ} (h : a ≤ b) :
    count p a (b + 1) = count p a b + if p b then 1 else 0 := by
  have hlen : (b + 1 - a).toNat = (b - a).toNat + 1 := by omega
  have hlast : a + ((b - a).toNat : ℤ) = b := by omega
  rw [count, hlen, List.range_succ, List.countP_append, List.countP_singleton, hlast, count]
  push_cast
  split_ifs <;> simp_all

theorem count_congr_on {q : ℤ → Prop} [DecidablePred q] {a b : ℤ} (hab : a ≤ b)
    (h : ∀ x, a ≤ x → x < b → (p x ↔ q x)) : count p a b = count q a b := by
  induction b, hab using Int.leInduction with
  | base => rw [count_of_le le_rfl, count_of_le le_rfl]
  | succ b hab ih =>
    have hb := h b hab (by omega)
    rw [count_succ hab, count_succ hab, ih fun x h0 h1 => h x h0 (by omega)]
    simp only [hb]

theorem count_eq_zero {a b : ℤ} (h : ∀ x, a ≤ x → x < b → ¬ p x) : count p a b = 0 := by
  rcases le_or_gt b a with hba | hab
  · exact count_of_le hba
  · rw [count_congr_on (q := fun _ => False) hab.le fun x h0 h1 => iff_false_intro (h x h0 h1)]
    simp [count]

/-- Parts that partition the integers of an interval have as many as the interval. -/
theorem sum_count {ι : Type*} [Fintype ι] {q : ι → ℤ → Prop} [∀ r, DecidablePred (q r)] {a b : ℤ}
    (hab : a ≤ b) (h : ∀ x, a ≤ x → x < b → ∃! r, q r x) : ∑ r, count (q r) a b = b - a := by
  induction b, hab using Int.leInduction with
  | base =>
    rw [sub_self]
    exact Finset.sum_eq_zero fun r _ => count_of_le le_rfl
  | succ b hab ih =>
    obtain ⟨r, hr, huniq⟩ := h b hab (by omega)
    have hone : ∑ r, (if q r b then (1 : ℤ) else 0) = 1 := by
      rw [Finset.sum_eq_single_of_mem r (Finset.mem_univ r), if_pos hr]
      intro r' _ hne
      exact if_neg fun hr' => hne (huniq r' hr')
    simp only [count_succ hab]
    rw [Finset.sum_add_distrib, ih fun x h0 h1 => h x h0 (by omega), hone]
    ring

theorem count_eq_sub {f : ℤ → ℤ} (hf : ∀ x, f (x + 1) = f x + if p x then 1 else 0) {a b : ℤ}
    (h : a ≤ b) : count p a b = f b - f a := by
  induction b, h using Int.leInduction with
  | base => rw [count_of_le le_rfl, sub_self]
  | succ b h ih =>
    rw [count_succ h, ih, hf]
    ring

theorem count_mono {a b c : ℤ} (hab : a ≤ b) (h : b ≤ c) : count p a b ≤ count p a c := by
  induction c, h using Int.leInduction with
  | base => exact le_rfl
  | succ c h ih =>
    rw [count_succ (hab.trans h)]
    split_ifs <;> omega

theorem count_lt {a b c : ℤ} (hab : a ≤ b) (hbc : b < c) (hb : p b) :
    count p a b < count p a c := by
  have hstep := @count_succ p _ a b hab
  rw [if_pos hb] at hstep
  have hmono := @count_mono p _ a (b + 1) c (by omega) (by omega)
  omega

theorem bijOn_count {a b : ℤ} (h : a ≤ b) :
    Set.BijOn (count p a) {x | a ≤ x ∧ x < b ∧ p x} (Set.Ico 0 (count p a b)) := by
  induction b, h using Int.leInduction with
  | base =>
    have hempty : {x | a ≤ x ∧ x < a ∧ p x} = ∅ := by
      ext x
      simp only [Set.mem_ofPred_eq, Set.mem_empty_iff_false, iff_false]
      omega
    rw [hempty, count_of_le le_rfl, Set.Ico_self]
    exact Set.bijOn_empty _
  | succ b h ih =>
    by_cases hp : p b
    · have hset : {x | a ≤ x ∧ x < b + 1 ∧ p x} = insert b {x | a ≤ x ∧ x < b ∧ p x} := by
        ext x
        simp only [Set.mem_ofPred_eq, Set.mem_insert_iff]
        constructor
        · rintro ⟨h1, h2, h3⟩
          rcases (show x ≤ b by omega).lt_or_eq with hx | hx
          · exact Or.inr ⟨h1, hx, h3⟩
          · exact Or.inl hx
        · rintro (rfl | ⟨h1, h2, h3⟩)
          · exact ⟨h, by omega, hp⟩
          · exact ⟨h1, by omega, h3⟩
      have hico : Set.Ico 0 (count p a (b + 1)) =
          insert (count p a b) (Set.Ico 0 (count p a b)) := by
        have hnn := @count_nonneg p _ a b
        rw [count_succ h, if_pos hp]
        ext x
        simp only [Set.mem_Ico, Set.mem_insert_iff]
        omega
      rw [hset, hico]
      exact ih.insert (by simp)
    · have hset : {x | a ≤ x ∧ x < b + 1 ∧ p x} = {x | a ≤ x ∧ x < b ∧ p x} := by
        ext x
        simp only [Set.mem_ofPred_eq]
        constructor
        · rintro ⟨h1, h2, h3⟩
          have hx : x ≠ b := fun hx => hp (hx ▸ h3)
          exact ⟨h1, by omega, h3⟩
        · rintro ⟨h1, h2, h3⟩
          exact ⟨h1, by omega, h3⟩
      rw [hset, count_succ h, if_neg hp, add_zero]
      exact ih

theorem count_shift (s a b : ℤ) : count (fun x => p (x + s)) a b = count p (a + s) (b + s) := by
  have hlen : b + s - (a + s) = b - a := by ring
  have harg : ∀ k : ℕ, a + (k : ℤ) + s = a + s + k := fun k => by ring
  simp only [count, hlen, harg]

/-! ## One block -/

theorem count_block (lo hi : ℤ) {a b : ℤ} (hab : a ≤ b) :
    count (fun x => lo ≤ x ∧ x < hi) a b = max lo (min b hi) - max lo (min a hi) := by
  have hf : ∀ x, max lo (min (x + 1) hi) =
      max lo (min x hi) + if lo ≤ x ∧ x < hi then 1 else 0 := by
    intro x
    split_ifs <;> omega
  exact @count_eq_sub (fun x => lo ≤ x ∧ x < hi) _ (fun x => max lo (min x hi)) hf a b hab

/-! ## Blocks in turn -/

variable {w P : ℤ}

/-- The integers of `[0, o)` at place `r`. -/
def before (w P r o : ℤ) : ℤ :=
  o / w / P * w + if r < o / w % P then w else if r = o / w % P then o % w else 0

theorem before_owner (hw : 0 < w) (x : ℤ) : before w P (owner w P x) x = localIndex w P x := by
  rw [before, owner, if_neg (lt_irrefl _), if_pos rfl, localIndex_eq hw]

theorem ediv_emod_succ (hw : 0 < w) (o : ℤ) :
    (o % w + 1 = w ∧ (o + 1) / w = o / w + 1 ∧ (o + 1) % w = 0) ∨
      (o % w + 1 < w ∧ (o + 1) / w = o / w ∧ (o + 1) % w = o % w + 1) := by
  have hm0 := Int.emod_nonneg o hw.ne'
  have hm1 := Int.emod_lt_of_pos o hw
  have ho := Int.emod_add_mul_ediv o w
  rcases (show o % w + 1 ≤ w by omega).lt_or_eq with hlt | heq
  · have hsplit : o + 1 = o / w * w + (o % w + 1) := by linarith
    right
    rw [hsplit, ediv_mul_add (by omega) hlt, emod_mul_add (by omega) hlt]
    exact ⟨hlt, rfl, rfl⟩
  · have hsplit : o + 1 = (o / w + 1) * w + 0 := by linarith
    left
    rw [hsplit, ediv_mul_add le_rfl hw, emod_mul_add le_rfl hw]
    exact ⟨heq, rfl, rfl⟩

theorem before_succ (hw : 0 < w) (hP : 0 < P) {r : ℤ} (h0 : 0 ≤ r) (h1 : r < P) (o : ℤ) :
    before w P r (o + 1) = before w P r o + if owner w P o = r then 1 else 0 := by
  have hm0 := Int.emod_nonneg o hw.ne'
  simp only [before, owner]
  rcases ediv_emod_succ hw o with ⟨hlast, hdiv, hmod⟩ | ⟨-, hdiv, hmod⟩
  · rw [hdiv, hmod]
    rcases ediv_emod_succ hP (o / w) with ⟨hround, hdiv', hmod'⟩ | ⟨-, hdiv', hmod'⟩
    · rw [hdiv', hmod', add_mul, one_mul]
      split_ifs <;> omega
    · rw [hdiv', hmod']
      split_ifs <;> omega
  · rw [hdiv, hmod]
    split_ifs <;> omega

theorem count_owner (hw : 0 < w) (hP : 0 < P) {r : ℤ} (h0 : 0 ≤ r) (h1 : r < P) {a b : ℤ}
    (h : a ≤ b) : count (fun x => owner w P x = r) a b = before w P r b - before w P r a :=
  count_eq_sub (before_succ hw hP h0 h1) h

/-! ## Runs from a block on -/

/-- The integers below `x` in runs of `w` that start at `s` and every `P * w` later, up to a
constant. -/
def inRuns (w P s x : ℤ) : ℤ := (x - s) / (P * w) * w + min w ((x - s) % (P * w))

theorem inRuns_succ (hw : 0 < w) (hP : 0 < P) (s x : ℤ) :
    inRuns w P s (x + 1) = inRuns w P s x + if (x - s) % (P * w) < w then 1 else 0 := by
  have hPw : 0 < P * w := mul_pos hP hw
  have hle : w ≤ P * w := le_mul_of_one_le_left hw.le hP
  have h0 := Int.emod_nonneg (x - s) hPw.ne'
  have hnext : x + 1 - s = x - s + 1 := by ring
  simp only [inRuns, hnext]
  rcases ediv_emod_succ hPw (x - s) with ⟨hlast, hdiv, hmod⟩ | ⟨-, hdiv, hmod⟩
  · rw [hdiv, hmod, add_mul, one_mul]
    split_ifs <;> omega
  · rw [hdiv, hmod]
    split_ifs <;> omega

theorem owner_eq_iff_run (hw : 0 < w) (hP : 0 < P) (B x : ℤ) :
    owner w P x = B % P ↔ (x - B * w) % (P * w) < w := by
  have hPw : 0 < w * P := mul_pos hw hP
  have hshift : (x - B * w) / w = x / w - B := by
    rw [sub_eq_add_neg, ← neg_mul, Int.add_mul_ediv_right _ _ hw.ne', ← sub_eq_add_neg]
  have hdiv := emod_mul_ediv hw hP (x - B * w)
  have hown : owner w P (x - B * w) = 0 ↔ (x - B * w) % (w * P) < w := by
    have h0 := Int.emod_nonneg (x - B * w) hPw.ne'
    rw [← hdiv, Int.ediv_eq_iff_of_pos hw]
    constructor
    · intro h
      linarith [h.2]
    · intro h
      constructor <;> linarith
  rw [mul_comm P w, ← hown, owner, owner, hshift]
  exact Int.emod_eq_emod_iff_emod_sub_eq_zero

theorem count_owner_runs (hw : 0 < w) (hP : 0 < P) (B : ℤ) {a b : ℤ} (h : a ≤ b) :
    count (fun x => owner w P x = B % P) a b = inRuns w P (B * w) b - inRuns w P (B * w) a := by
  apply count_eq_sub _ h
  intro x
  rw [inRuns_succ hw hP]
  simp only [owner_eq_iff_run hw hP]

theorem firstBlock_le (hw : 0 < w) (hP : 0 < P) {r a x : ℤ} (hax : a ≤ x) (hx : owner w P x = r) :
    (a / w + (r - a / w) % P) * w ≤ x := by
  have hdiv : a / w ≤ x / w := Int.ediv_le_ediv hw hax
  have hmod : (r - a / w) % P = (x / w - a / w) % P := by
    rw [← hx, owner, Int.emod_sub_emod]
  have hle : (x / w - a / w) % P ≤ x / w - a / w := by
    have hmd := Int.emod_add_mul_ediv (x / w - a / w) P
    have hq := mul_nonneg hP.le (Int.ediv_nonneg (show 0 ≤ x / w - a / w by omega) hP.le)
    omega
  have hblock : a / w + (r - a / w) % P ≤ x / w := by omega
  have hx0 := Int.ediv_mul_le x hw.ne'
  nlinarith

/-- The integers of `[a, b)` at place `r`, counted from the first block of the place on. -/
theorem count_owner_from (hw : 0 < w) (hP : 0 < P) {r a b : ℤ} (hr0 : 0 ≤ r) (hr1 : r < P)
    (hab : a ≤ b) :
    count (fun x => owner w P x = r) a b =
      (b - 1 - (a / w + (r - a / w) % P) * w) / (P * w) * w +
        min w ((b - 1 - (a / w + (r - a / w) % P) * w) % (P * w) + 1) -
        max 0 (a - (a / w + (r - a / w) % P) * w) := by
  have hPw : 0 < P * w := mul_pos hP hw
  have hle : w ≤ P * w := le_mul_of_one_le_left hw.le hP
  obtain ⟨m, hm⟩ : ∃ m, m = (r - a / w) % P := ⟨_, rfl⟩
  have hm0 : 0 ≤ m := hm ▸ Int.emod_nonneg _ hP.ne'
  have hm1 : m < P := hm ▸ Int.emod_lt_of_pos _ hP
  have hplace : (a / w + m) % P = r := by
    rw [hm, Int.add_emod_emod, add_sub_cancel, Int.emod_eq_of_lt hr0 hr1]
  rw [← hm]
  have hcount := count_owner_runs hw hP (a / w + m) hab
  rw [hplace] at hcount
  rw [hcount]
  have hend : inRuns w P ((a / w + m) * w) b =
      (b - 1 - (a / w + m) * w) / (P * w) * w +
        min w ((b - 1 - (a / w + m) * w) % (P * w) + 1) := by
    have hlast : b - (a / w + m) * w = b - 1 - (a / w + m) * w + 1 := by ring
    rw [inRuns, hlast]
    rcases ediv_emod_succ hPw (b - 1 - (a / w + m) * w) with ⟨hround, hdiv, hmod⟩ | ⟨-, hdiv, hmod⟩
    · rw [hdiv, hmod, hround, min_eq_right hw.le, min_eq_left hle]
      ring
    · rw [hdiv, hmod]
  have hstart : inRuns w P ((a / w + m) * w) a = max 0 (a - (a / w + m) * w) := by
    have ha0 := Int.emod_nonneg a hw.ne'
    have ha1 := Int.emod_lt_of_pos a hw
    have ha := Int.emod_add_mul_ediv a w
    have hoff : a - (a / w + m) * w = a % w - m * w := by linarith
    rw [inRuns, hoff]
    rcases hm0.lt_or_eq with hpos | hzero
    · -- the place comes later in the round
      have hmw : w ≤ m * w := le_mul_of_one_le_left hw.le hpos
      have hmP : w ≤ (P - m) * w := le_mul_of_one_le_left hw.le (by omega)
      have hsplit : a % w - m * w = -1 * (P * w) + (a % w + (P - m) * w) := by ring
      have hlt : a % w + (P - m) * w < P * w := by
        rw [sub_mul]
        linarith
      rw [hsplit, ediv_mul_add (by linarith) hlt, emod_mul_add (by linarith) hlt, ← hsplit,
        min_eq_left (by linarith), max_eq_left (by linarith)]
      ring
    · have hlt : a % w < P * w := by linarith
      rw [← hzero, zero_mul, sub_zero, Int.ediv_eq_zero_of_lt ha0 hlt, Int.emod_eq_of_lt ha0 hlt,
        zero_mul, zero_add, min_eq_right ha1.le, max_eq_right ha0]
  rw [hend, hstart]

end OmniCompiler.OwnedCount
