import OmniCompiler.Arithmetic.ForLoop
import OmniCompiler.Arithmetic.Progression
import OmniCompiler.Xmp.MathFunction

/-!
# Section descriptors (`xmp_section_desc.c`)

A regular section descriptor is a triplet `l : u : s`. `intersection_rsds` walks the
section that starts later until it meets the residue class of the other one.
-/
namespace OmniCompiler.Xmp

open MachineInt ForLoop Progression

structure Rsd where
  l : ℤ
  u : ℤ
  s : ℤ
  deriving DecidableEq, Repr

namespace Rsd

def elems (r : Rsd) : Set ℤ := strided r.l r.u r.s

instance (r : Rsd) (x : ℤ) : Decidable (x ∈ r.elems) :=
  inferInstanceAs (Decidable (x ∈ strided _ _ _))

structure WF (r : Rsd) : Prop where
  pos : 0 < r.s
  le : r.l ≤ r.u

end Rsd

/-- The body of `intersection_rsds` once the section that starts first is `rsd1`. -/
def intersectionOrdered (rsd1 rsd2 : Rsd) : Option Rsd :=
  if rsd2.l ≤ rsd1.u then
    ((loopValues rsd2.l (rsd2.u + 1) rsd2.s).find? fun i =>
      (toInt (i - rsd1.l)).tmod rsd1.s = 0).map fun i =>
      let s := lcm rsd1.s rsd2.s
      let t := (min rsd1.u rsd2.u - i).tdiv s
      ⟨i, i + s * t, s⟩
  else none

/-- Null pointers are `none`. -/
def intersectionRsds (rsd1 rsd2 : Option Rsd) : Option Rsd :=
  match rsd1, rsd2 with
  | some rsd1, some rsd2 =>
    if rsd1.l ≤ rsd2.l then intersectionOrdered rsd1 rsd2 else intersectionOrdered rsd2 rsd1
  | _, _ => none

namespace Rsd

/-- A property of some element is decided by running through the range. -/
theorem exists_mem_elems_iff (r : Rsd) (p : ℤ → Prop) :
    (∃ x ∈ loopValues r.l (r.u + 1) 1, x ∈ r.elems ∧ p x) ↔ ∃ x ∈ r.elems, p x := by
  constructor
  · rintro ⟨x, -, hx, hp⟩
    exact ⟨x, hx, hp⟩
  · rintro ⟨x, hx, hp⟩
    refine ⟨x, (mem_loopValues_of_pos one_pos x).mpr ⟨hx.1, ?_, one_dvd _⟩, hx, hp⟩
    have := hx.2.1
    omega

/-- The sections have an element in common. -/
def Meets (r1 r2 : Rsd) : Prop := ∃ x ∈ r1.elems, x ∈ r2.elems

instance (r1 r2 : Rsd) : Decidable (r1.Meets r2) := decidable_of_iff _ (exists_mem_elems_iff r1 _)

/-- Some element of `b` lies in the residue class of `a`. -/
def Hits (a b : Rsd) : Prop := ∃ i ∈ b.elems, a.s ∣ i - a.l

instance (a b : Rsd) : Decidable (a.Hits b) := decidable_of_iff _ (exists_mem_elems_iff b _)

/-- Disjoint sections of which the later one starts inside the range of the earlier one
and meets its residue class, but only past its end. -/
def Phantom (r1 r2 : Rsd) : Prop :=
  ¬ r1.Meets r2 ∧ (r1.l ≤ r2.l ∧ r2.l ≤ r1.u ∧ r1.Hits r2 ∨
    r2.l < r1.l ∧ r1.l ≤ r2.u ∧ r2.Hits r1)

instance (r1 r2 : Rsd) : Decidable (r1.Phantom r2) :=
  inferInstanceAs (Decidable (¬ _ ∧ (_ ∨ _)))

/-- No `int` of the intersection leaves its range: not the product of the strides, not the distance
of an element from the start of the other section, and not the step past the end of a section. -/
structure FitsWith (r1 r2 : Rsd) : Prop where
  product : InInt (r1.s * r2.s)
  distance : InInt (r2.u - r1.l)
  distance' : InInt (r1.u - r2.l)
  ends : InInt (r1.u + r1.s) ∧ InInt (r2.u + r2.s)

theorem FitsWith.symm {r1 r2 : Rsd} (h : r1.FitsWith r2) : r2.FitsWith r1 :=
  ⟨mul_comm r1.s r2.s ▸ h.product, h.distance', h.distance, h.ends.2, h.ends.1⟩

theorem meets_comm {r1 r2 : Rsd} : r1.Meets r2 ↔ r2.Meets r1 :=
  ⟨fun ⟨x, h1, h2⟩ => ⟨x, h2, h1⟩, fun ⟨x, h1, h2⟩ => ⟨x, h2, h1⟩⟩

end Rsd

/-! ## The intersection of two sections -/

structure IsFirstHit (a b : Rsd) (i : ℤ) : Prop where
  mem : i ∈ b.elems
  congr : a.s ∣ i - a.l
  least : ∀ j ∈ b.elems, a.s ∣ j - a.l → i ≤ j

section

variable {a b r0 : Rsd}

theorem lcm_comm {x y : ℤ} (hx : 0 < x) (hy : 0 < y) (hxy : InInt (x * y)) :
    lcm x y = lcm y x := by
  rw [lcm_eq hx hy hxy, lcm_eq hy hx (mul_comm x y ▸ hxy), Int.lcm_comm]

theorem toInt_tmod_eq_zero_iff {i : ℤ} (hab : a.l ≤ b.l) (hfit : a.FitsWith b)
    (hi : i ∈ loopValues b.l (b.u + 1) b.s) (hb : 0 < b.s) :
    (toInt (i - a.l)).tmod a.s = 0 ↔ a.s ∣ i - a.l := by
  obtain ⟨h0, h1, -⟩ := (mem_loopValues_of_pos hb i).mp hi
  have hd := hfit.distance.2
  rw [toInt_of_inInt ⟨by omega, by omega⟩, tmod_eq_zero_iff]

theorem intersectionOrdered_eq_none (hb : b.WF) (hab : a.l ≤ b.l) (hfit : a.FitsWith b) :
    intersectionOrdered a b = none ↔ ¬ (b.l ≤ a.u ∧ a.Hits b) := by
  rw [intersectionOrdered]
  split_ifs with hstart
  · simp only [Option.map_eq_none_iff, List.find?_eq_none, decide_eq_true_eq, hstart, true_and,
      Rsd.Hits, not_exists]
    refine forall_congr' fun i => ?_
    rw [not_and]
    constructor
    · intro h hi
      have hval :=
        (mem_loopValues_of_pos hb.pos i).mpr ⟨hi.1, Int.lt_add_one_iff.mpr hi.2.1, hi.2.2⟩
      rw [← toInt_tmod_eq_zero_iff hab hfit hval hb.pos]
      exact h hval
    · intro h hval
      rw [toInt_tmod_eq_zero_iff hab hfit hval hb.pos]
      obtain ⟨h0, h1, h2⟩ := (mem_loopValues_of_pos hb.pos i).mp hval
      exact h ⟨h0, Int.lt_add_one_iff.mp h1, h2⟩
  · simp [hstart]

theorem intersectionOrdered_eq_some (hb : b.WF) (hab : a.l ≤ b.l) (hfit : a.FitsWith b)
    (h : intersectionOrdered a b = some r0) :
    b.l ≤ a.u ∧ IsFirstHit a b r0.l ∧ r0.s = lcm a.s b.s ∧
      r0.u = r0.l + r0.s * (min a.u b.u - r0.l).tdiv r0.s := by
  unfold intersectionOrdered at h
  split_ifs at h with hstart
  obtain ⟨i, hi, rfl⟩ := Option.map_eq_some_iff.mp h
  obtain ⟨h1, h2, h3⟩ := find?_first (loopValues_pairwise_lt hb.pos) hi
  have hmem : ∀ j, j ∈ b.elems ↔ j ∈ loopValues b.l (b.u + 1) b.s := fun j => by
    rw [mem_loopValues_of_pos hb.pos, Int.lt_add_one_iff]
    rfl
  simp only [decide_eq_true_eq] at h2 h3
  rw [toInt_tmod_eq_zero_iff hab hfit h1 hb.pos] at h2
  refine ⟨hstart, ⟨(hmem i).mpr h1, h2, fun j hj hd => ?_⟩, rfl, rfl⟩
  have hj' := (hmem j).mp hj
  rcases h3 j hj' ((toInt_tmod_eq_zero_iff hab hfit hj' hb.pos).mpr hd) with rfl | hlt
  · exact le_rfl
  · exact hlt.le

theorem IsFirstHit.inter_eq {i : ℤ} (hb : 0 < b.s) (hab : a.l ≤ b.l) (hs : InInt (a.s * b.s))
    (h : IsFirstHit a b i) :
    a.elems ∩ b.elems = {x | i ≤ x ∧ x ≤ min a.u b.u ∧ lcm a.s b.s ∣ x - i} := by
  ext x
  have hres : x ∈ a.elems ∩ b.elems ↔ _ := mem_inter_iff_of_residue h.congr h.mem.2.2
  constructor
  · intro hx
    obtain ⟨-, ⟨h1, h2⟩, h3, h4⟩ := hres.mp hx
    exact ⟨h.least x hx.2 hx.1.2.2, le_min h1 h2, (lcm_dvd_iff hb hs).mpr ⟨h3, h4⟩⟩
  · rintro ⟨h1, h2, h3⟩
    have hi := h.mem.1
    rw [le_min_iff] at h2
    exact hres.mpr ⟨⟨by omega, by omega⟩, h2, (lcm_dvd_iff hb hs).mp h3⟩

/-- A hit past the end of the earlier section is less than one period past it. -/
theorem IsFirstHit.sub_lt {i : ℤ} (ha : 0 < a.s) (hb : 0 < b.s) (hs : InInt (a.s * b.s))
    (hstart : b.l ≤ a.u) (h : IsFirstHit a b i) : i - a.u < lcm a.s b.s := by
  have hpos := lcm_pos ha hb hs
  obtain ⟨hd1, hd2⟩ := (lcm_dvd_iff hb hs).mp (dvd_refl (lcm a.s b.s))
  by_contra hc
  have hprev : i - lcm a.s b.s ∈ b.elems := by
    obtain ⟨h1, h2, h3⟩ := h.mem
    refine ⟨by omega, by omega, ?_⟩
    rw [sub_right_comm]
    exact dvd_sub h3 hd2
  have := h.least _ hprev (by rw [sub_right_comm]; exact dvd_sub h.congr hd1)
  omega

/-- What is returned for sections in order, and how far it can be trusted. -/
theorem intersectionOrdered_spec (ha : a.WF) (hb : b.WF) (hab : a.l ≤ b.l) (hfit : a.FitsWith b)
    (h : intersectionOrdered a b = some r0) :
    r0.WF ∧ r0.s = lcm a.s b.s ∧ IsFirstHit a b r0.l ∧
      (r0.l ≤ a.u → r0.elems = a.elems ∩ b.elems) ∧
      (a.u < r0.l → r0.elems = {r0.l} ∧ a.elems ∩ b.elems = ∅) := by
  obtain ⟨hstart, hhit, hs, hu⟩ := intersectionOrdered_eq_some hb hab hfit h
  have hpos : 0 < r0.s := hs ▸ lcm_pos ha.pos hb.pos hfit.product
  have hinter := hhit.inter_eq hb.pos hab hfit.product
  have hib := hhit.mem.2.1
  rcases le_or_gt r0.l a.u with hle | hlt
  · have hmin : r0.l ≤ min a.u b.u := le_min hle hib
    have hround := strided_round hpos hmin
    have hnn : 0 ≤ r0.s * (min a.u b.u - r0.l).tdiv r0.s :=
      mul_nonneg hpos.le (Int.tdiv_nonneg (by omega) hpos.le)
    refine ⟨⟨hpos, by omega⟩, hs, hhit, fun _ => ?_, fun hlt => by omega⟩
    rw [hinter, Rsd.elems, hu, hround, ← hs]
    rfl
  · have hlt' := hhit.sub_lt ha.pos hb.pos hfit.product hstart
    have ht : (min a.u b.u - r0.l).tdiv r0.s = 0 := by
      rw [min_eq_left (by omega), ← neg_sub, Int.neg_tdiv,
        Int.tdiv_eq_zero_of_lt (by omega) (by omega), neg_zero]
    rw [ht, mul_zero, add_zero] at hu
    refine ⟨⟨hpos, by omega⟩, hs, hhit, fun hle => by omega, fun _ => ⟨?_, ?_⟩⟩
    · ext x
      simp only [Rsd.elems, strided, hu, Set.mem_ofPred_eq, Set.mem_singleton_iff]
      constructor
      · rintro ⟨h1, h2, -⟩
        omega
      · rintro rfl
        simp
    · rw [hinter]
      refine Set.eq_empty_of_forall_notMem ?_
      rintro x ⟨h1, h2, -⟩
      rw [le_min_iff] at h2
      omega

end

/-- `NULL` for disjoint sections, and otherwise a descriptor of the common elements. -/
def IntersectsExactly (r1 r2 : Rsd) : Prop :=
  (intersectionRsds (some r1) (some r2) = none ↔ ¬ ∃ x ∈ r1.elems, x ∈ r2.elems) ∧
    ∀ r0, intersectionRsds (some r1) (some r2) = some r0 → r0.elems = r1.elems ∩ r2.elems

theorem intersectionRsds_some {r1 r2 : Rsd} : intersectionRsds (some r1) (some r2) =
    if r1.l ≤ r2.l then intersectionOrdered r1 r2 else intersectionOrdered r2 r1 := rfl

theorem Rsd.Meets.hits {a b : Rsd} (h : a.Meets b) : b.l ≤ a.u ∧ a.Hits b := by
  obtain ⟨x, hxa, hxb⟩ := h
  exact ⟨hxb.1.trans hxa.2.1, x, hxb, hxa.2.2⟩

theorem intersectionRsds_eq_none_iff {r1 r2 : Rsd} (h1 : r1.WF) (h2 : r2.WF)
    (hfit : r1.FitsWith r2) :
    intersectionRsds (some r1) (some r2) = none ↔ ¬ (r1.Meets r2 ∨ r1.Phantom r2) := by
  rw [intersectionRsds_some, not_iff_not.symm, not_not]
  unfold Rsd.Phantom
  split_ifs with hle
  · rw [intersectionOrdered_eq_none h2 hle hfit, not_not]
    constructor
    · intro h
      by_cases hm : r1.Meets r2
      · exact Or.inl hm
      · exact Or.inr ⟨hm, Or.inl ⟨hle, h⟩⟩
    · rintro (hm | ⟨-, ⟨-, h⟩ | ⟨hlt, -⟩⟩)
      · exact hm.hits
      · exact h
      · omega
  · rw [intersectionOrdered_eq_none h1 (by omega) hfit.symm, not_not]
    constructor
    · intro h
      by_cases hm : r1.Meets r2
      · exact Or.inl hm
      · exact Or.inr ⟨hm, Or.inr ⟨by omega, h⟩⟩
    · rintro (hm | ⟨-, ⟨hle', -⟩ | ⟨-, h⟩⟩)
      · exact (Rsd.meets_comm.mp hm).hits
      · omega
      · exact h

/-- What `intersection_rsds` returns, whether or not the sections meet. -/
structure IsIntersection (r1 r2 r0 : Rsd) : Prop where
  wf : r0.WF
  stride : r0.s = lcm r1.s r2.s
  dvd₁ : r1.s ∣ r0.s
  dvd₂ : r2.s ∣ r0.s
  congr₁ : r1.s ∣ r0.l - r1.l
  congr₂ : r2.s ∣ r0.l - r2.l
  meets : r1.Meets r2 → r0.elems = r1.elems ∩ r2.elems
  phantom : ¬ r1.Meets r2 → r0.elems = {r0.l}

theorem IsIntersection.symm {r1 r2 r0 : Rsd} (h1 : 0 < r1.s) (h2 : 0 < r2.s)
    (hs : InInt (r1.s * r2.s)) (h : IsIntersection r1 r2 r0) : IsIntersection r2 r1 r0 where
  wf := h.wf
  stride := h.stride.trans (lcm_comm h1 h2 hs)
  dvd₁ := h.dvd₂
  dvd₂ := h.dvd₁
  congr₁ := h.congr₂
  congr₂ := h.congr₁
  meets := fun hm => (h.meets (Rsd.meets_comm.mp hm)).trans (Set.inter_comm _ _)
  phantom := fun hm => h.phantom fun hm' => hm (Rsd.meets_comm.mp hm')

theorem intersectionOrdered_isIntersection {a b r0 : Rsd} (ha : a.WF) (hb : b.WF)
    (hab : a.l ≤ b.l) (hfit : a.FitsWith b) (h : intersectionOrdered a b = some r0) :
    IsIntersection a b r0 := by
  obtain ⟨hwf, hs, hhit, hin, hpast⟩ := intersectionOrdered_spec ha hb hab hfit h
  obtain ⟨hd1, hd2⟩ := (lcm_dvd_iff hb.pos hfit.product).mp (dvd_refl (lcm a.s b.s))
  refine ⟨hwf, hs, hs ▸ hd1, hs ▸ hd2, hhit.congr, hhit.mem.2.2, fun ⟨x, hxa, hxb⟩ => ?_,
    fun hm => ?_⟩
  · refine hin ?_
    by_contra hc
    have hempty := (hpast (by omega)).2
    exact (hempty ▸ (⟨hxa, hxb⟩ : x ∈ a.elems ∩ b.elems) : x ∈ (∅ : Set ℤ))
  · refine (hpast ?_).1
    by_contra hc
    have hmem : r0.l ∈ r0.elems := left_mem_strided hwf.le
    rw [hin (by omega)] at hmem
    exact hm ⟨r0.l, hmem.1, hmem.2⟩

theorem intersectionRsds_isIntersection {r1 r2 r0 : Rsd} (h1 : r1.WF) (h2 : r2.WF)
    (hfit : r1.FitsWith r2) (h : intersectionRsds (some r1) (some r2) = some r0) :
    IsIntersection r1 r2 r0 := by
  rw [intersectionRsds_some] at h
  split_ifs at h with hle
  · exact intersectionOrdered_isIntersection h1 h2 hle hfit h
  · exact (intersectionOrdered_isIntersection h2 h1 (by omega) hfit.symm h).symm h2.pos h1.pos
      hfit.symm.product

end OmniCompiler.Xmp
