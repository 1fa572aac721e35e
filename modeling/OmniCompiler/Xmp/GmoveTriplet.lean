import OmniCompiler.Xmp.LoopSchedule
import OmniCompiler.Xmp.TemplatePart

/-!
# The part of a section on one rank (`xmp_gmove.c`)

`_XMP_sched_gmove_triplet` cuts the section of an aligned array dimension to the elements on one
rank with the loop scheduler, and derives the matching part of the other side of the assignment.
-/
namespace OmniCompiler.Xmp

open MachineInt ForLoop Progression SmallFin

variable {d n : ℕ}

/-- The end of `_XMP_sched_gmove_triplet`: the scheduled loop is turned back into a triplet of the
aligned side, and the triplet of the other side follows from it. -/
def gmoveTriplets (dst src : RefTriplet) (alignSubscript : ℤ) (par : Iter) :
    RefTriplet × RefTriplet :=
  let dstL := toInt (par.init + alignSubscript)
  let dstU := toInt (par.cond + alignSubscript)
  let srcOf (i : ℤ) :=
    toInt (toInt (src.stride * (toInt (i - dst.lower)).tdiv dst.stride) + src.lower)
  (⟨dstL, dstU, par.step⟩,
    ⟨srcOf dstL, srcOf dstU, toInt (src.stride * par.step.tdiv dst.stride)⟩)

/-- `_XMP_sched_gmove_triplet`: the new triplets of the two sides; `none` is `_XMP_N_INT_FALSE`. A
loop step of zero divides by zero at the first index of the rank that is not below the section. -/
def schedGmoveTriplet (t : Template d n) (ai : ArrayInfo d)
    (templateLower templateUpper templateStride : ℤ) (dst src : RefTriplet) :
    Except String (Option (RefTriplet × RefTriplet)) :=
  match ai.alignTemplateIndex with
  | none => .ok (some (dst, src))
  | some alignTemplateIndex =>
    let ti := t.info alignTemplateIndex
    let tc := t.chunk alignTemplateIndex
    let alignSubscript := toInt ai.alignSubscript
    let ser : Iter := ⟨toInt (dst.lower - alignSubscript), toInt (dst.upper - alignSubscript),
      toInt (dst.stride - alignSubscript)⟩
    match tc.distManner with
    | .duplication => .ok (some (dst, src))
    | .block | .cyclic =>
      if ser.step = 0 ∧ ¬ (templateUpper < ser.init ∨ ser.cond < templateLower) then
        .error "division by zero"
      else
        (schedLoopTemplateWidth1 ser templateLower templateUpper templateStride).map <|
          Option.map (gmoveTriplets dst src alignSubscript)
    | .blockCyclic =>
      (schedLoopTemplateWidthN ser templateLower templateUpper templateStride (toInt tc.parWidth)
        ti.serLower ti.serUpper).map <| Option.map (gmoveTriplets dst src alignSubscript)
    | .gblock => .error "unknown distribution manner"

/-! ## Triplets as lists -/

namespace RefTriplet

/-- The elements of a triplet, in its direction. -/
def values (tr : RefTriplet) : List ℤ :=
  loopValues tr.lower (if 0 < tr.stride then tr.upper + 1 else tr.upper - 1) tr.stride

/-- The triplet denotes the elements `xs`, in this order. -/
def Lists (tr : RefTriplet) (xs : List ℤ) : Prop := tr.stride ≠ 0 ∧ tr.values = xs

theorem values_run {x st : ℤ} (hst : st ≠ 0) (N : ℕ) :
    (⟨x, x + N * st, st⟩ : RefTriplet).values =
      (List.range (N + 1)).map fun k : ℕ => x + k * st := by
  have hreach : ForLoop.reach x (if 0 < st then x + N * st + 1 else x + N * st - 1) st =
      N * st.natAbs + 1 := by
    unfold ForLoop.reach
    split_ifs with hpos
    · rw [Int.natAbs_of_nonneg hpos.le]
      ring
    · have habs : (st.natAbs : ℤ) = -st := by omega
      rw [habs]
      ring
  have hcount : loopCount x (if 0 < st then x + N * st + 1 else x + N * st - 1) st = N + 1 := by
    refine eq_of_forall_lt_iff fun k => ?_
    have hpos : (0 : ℤ) < st.natAbs := by omega
    rw [lt_loopCount_iff hst, hreach, Int.lt_add_one_iff, mul_le_mul_iff_of_pos_right hpos]
    omega
  rw [values, loopValues_eq_map hst, hcount]

end RefTriplet

/-! ## The elements on a rank -/

section Sets

variable (dst : RefTriplet) (sub tl tu ts : ℤ)

/-- The elements of the section that are aligned with an index of the rank. -/
def storedElems : Set ℤ :=
  {i | i ∈ strided dst.lower dst.upper dst.stride ∧ i + sub ∈ strided tl tu ts}

/-- What the call finds instead: the align subscript enters with the other sign, and lowers the
stride. -/
def scheduledElems : Set ℤ :=
  {i | i ∈ strided dst.lower dst.upper (dst.stride - sub) ∧ i - sub ∈ strided tl tu ts}

def gmoveIter : Iter := ⟨dst.lower - sub, dst.upper - sub, dst.stride - sub⟩

variable {dst sub tl tu ts}

theorem mem_scheduledElems_iff (hts : 0 < ts) (hlcm : InInt ((dst.stride - sub) * ts)) {par : Iter}
    (hcut : IsWidth1Cut (gmoveIter dst sub) (strided tl tu ts) ts par) (i : ℤ) :
    i ∈ scheduledElems dst sub tl tu ts ↔
      par.init + sub ≤ i ∧ i ≤ par.cond + sub ∧ par.step ∣ i - (par.init + sub) := by
  have hspan := hcut.spans_iff hts hlcm (i - sub)
  simp only [Iter.Spans, gmoveIter] at hspan
  rw [sub_sub, add_comm sub par.init, sub_sub_sub_cancel_right] at hspan
  simp only [scheduledElems, strided, Set.mem_ofPred_eq] at hspan ⊢
  constructor
  · rintro ⟨⟨h0, h1, h2⟩, h3⟩
    obtain ⟨h4, h5, h6⟩ := hspan.mpr ⟨h3, by omega, by omega, h2⟩
    exact ⟨by omega, by omega, h6⟩
  · rintro ⟨h0, h1, h2⟩
    obtain ⟨h3, h4, h5, h6⟩ := hspan.mp ⟨by omega, by omega, h2⟩
    exact ⟨⟨by omega, by omega, h6⟩, h3⟩

theorem mem_fromInit_of_scheduled {i : ℤ} (hi : i ∈ scheduledElems dst sub tl tu ts) :
    i - sub ∈ (gmoveIter dst sub).fromInit (strided tl tu ts) ∧
      i - sub ∈ (gmoveIter dst sub).toCond (strided tl tu ts) := by
  obtain ⟨⟨hlow, hup, hdvd⟩, hmem⟩ := hi
  have hdvd' : dst.stride - sub ∣ i - sub - (dst.lower - sub) := by
    rwa [sub_sub_sub_cancel_right]
  exact ⟨⟨hmem, sub_le_sub_right hlow sub, hdvd'⟩, hmem, sub_le_sub_right hup sub, hdvd'⟩

theorem mem_storedElems_left {par : Iter}
    (hcut : IsWidth1Cut (gmoveIter dst sub) (strided tl tu ts) ts par)
    (hx : par.init + sub ∈ storedElems dst sub tl tu ts) : par.init ≤ par.cond := by
  obtain ⟨hmem, -, hdvd⟩ := hcut.init.1
  have hup := hx.1.2.1
  refine hcut.cond.2 ⟨hmem, ?_, hdvd⟩
  dsimp only [gmoveIter]
  omega

end Sets

/-! ## The range of the integers -/

/-- No `int` operation of the call leaves its range: the offset, the shifted section and its
distance from the indices of the rank, where the scheduler asks for it, the product of the two
strides, the way back, and the positions of the other side. -/
structure GmoveInInt (dst src : RefTriplet) (sub tl tu ts : ℤ) : Prop where
  offset : InInt sub
  ser : InInt (dst.lower - sub) ∧ InInt (dst.upper - sub) ∧ InInt (dst.stride - sub)
  division : dst.stride - sub = 1 → InInt (dst.lower - sub - tl) ∧ InInt (dst.upper - sub - tl)
  search : dst.stride - sub ≠ 1 → dst.lower - sub ≤ tu → tl ≤ dst.upper - sub →
    InInt (dst.lower - sub - tl) ∧ InInt (tl - (dst.lower - sub)) ∧ InInt (tu - (dst.lower - sub))
  ends : InInt (tl - ts) ∧ InInt (tu + ts)
  product : InInt ((dst.stride - sub) * ts)
  back : InInt (tl + sub) ∧ InInt (tu + sub)
  other : InInt src.lower
  extent : dst.lower ≤ dst.upper → InInt (dst.upper - dst.lower) ∧
    InInt (src.stride * ((dst.upper - dst.lower) / dst.stride)) ∧
    InInt (src.stride * ((dst.upper - dst.lower) / dst.stride) + src.lower)
  step : InInt (src.stride * (lcm (dst.stride - sub) ts).tdiv dst.stride)

/-- A multiple by less than `q` lies between zero and the multiple by `q`. -/
theorem mul_between {s k q : ℤ} (h0 : 0 ≤ k) (hq : k ≤ q) :
    (0 ≤ s * k ∧ s * k ≤ s * q) ∨ (s * q ≤ s * k ∧ s * k ≤ 0) := by
  rcases le_total 0 s with hs | hs
  · exact Or.inl ⟨mul_nonneg hs h0, mul_le_mul_of_nonneg_left hq hs⟩
  · exact Or.inr ⟨mul_le_mul_of_nonpos_left hq hs, mul_nonpos_of_nonpos_of_nonneg hs h0⟩

namespace GmoveInInt

variable {dst src : RefTriplet} {sub tl tu ts : ℤ} {par : Iter}

theorem cutFits (h : GmoveInInt dst src sub tl tu ts) : (gmoveIter dst sub).CutFits tl tu where
  division h1 := h.division h1
  search h1 h2 h3 i h4 h5 := by
    obtain ⟨-, h6, h7⟩ := h.search h1 h2 h3
    refine inInt_between h6 h7 ?_
    dsimp only [gmoveIter]
    omega

theorem dst_eq (h : GmoveInInt dst src sub tl tu ts)
    (hcut : IsWidth1Cut (gmoveIter dst sub) (strided tl tu ts) ts par) :
    (gmoveTriplets dst src sub par).1 = ⟨par.init + sub, par.cond + sub, par.step⟩ := by
  obtain ⟨hi0, hi1, -⟩ := hcut.init.1.1
  obtain ⟨hc0, hc1, -⟩ := hcut.cond.1.1
  have hback := fun x hx => inInt_between (x := x) h.back.1 h.back.2 hx
  rw [gmoveTriplets, toInt_of_inInt (hback _ (by omega)), toInt_of_inInt (hback _ (by omega))]

theorem src_stride_eq (h : GmoveInInt dst src sub tl tu ts)
    (hcut : IsWidth1Cut (gmoveIter dst sub) (strided tl tu ts) ts par) :
    (gmoveTriplets dst src sub par).2.stride = src.stride * par.step.tdiv dst.stride := by
  rw [gmoveTriplets, hcut.step]
  exact toInt_of_inInt h.step

theorem srcOf_eq (h : GmoveInInt dst src sub tl tu ts) (hdst : 0 < dst.stride) {i : ℤ}
    (hlow : dst.lower ≤ i) (hup : i ≤ dst.upper) :
    toInt (toInt (src.stride * (toInt (i - dst.lower)).tdiv dst.stride) + src.lower) =
      src.stride * (i - dst.lower).tdiv dst.stride + src.lower := by
  obtain ⟨h0, h1, h2⟩ := h.extent (hlow.trans hup)
  have hq := Int.ediv_le_ediv hdst (sub_le_sub_right hup dst.lower)
  have hnn : 0 ≤ (i - dst.lower) / dst.stride := Int.ediv_nonneg (by omega) hdst.le
  have hother := h.other
  have hmul := mul_between (s := src.stride) hnn hq
  have hdiff : InInt (i - dst.lower) := ⟨by omega, by have := h0.2; omega⟩
  rw [toInt_of_inInt hdiff, Int.tdiv_eq_ediv_of_nonneg (by omega)]
  generalize src.stride * ((i - dst.lower) / dst.stride) = x at hmul ⊢
  generalize src.stride * ((dst.upper - dst.lower) / dst.stride) = y at hmul h1 h2
  obtain ⟨h3, h4⟩ := hother
  obtain ⟨h5, h6⟩ := h1
  obtain ⟨h7, h8⟩ := h2
  have hx : InInt x := ⟨by omega, by omega⟩
  have hsum : InInt (x + src.lower) := ⟨by omega, by omega⟩
  rw [toInt_of_inInt hx, toInt_of_inInt hsum]

theorem src_eq (h : GmoveInInt dst src sub tl tu ts) (hdst : 0 < dst.stride)
    (hcut : IsWidth1Cut (gmoveIter dst sub) (strided tl tu ts) ts par)
    (hle : par.init ≤ par.cond) :
    (gmoveTriplets dst src sub par).2 =
      ⟨src.stride * (par.init + sub - dst.lower).tdiv dst.stride + src.lower,
        src.stride * (par.cond + sub - dst.lower).tdiv dst.stride + src.lower,
        src.stride * par.step.tdiv dst.stride⟩ := by
  have h1 := h.dst_eq hcut
  have h2 := h.src_stride_eq hcut
  obtain ⟨-, hlow, -⟩ := hcut.init.1
  obtain ⟨-, hup, -⟩ := hcut.cond.1
  dsimp only [gmoveIter] at hlow hup
  simp only [gmoveTriplets, RefTriplet.mk.injEq, and_true] at h1 h2 ⊢
  rw [h1.1, h1.2, h.srcOf_eq hdst (by omega) (by omega), h.srcOf_eq hdst (by omega) (by omega), h2]
  exact ⟨rfl, rfl, rfl⟩

end GmoveInInt

section Lists

variable {dst src : RefTriplet} {sub tl tu ts : ℤ} {par : Iter}

/-- The element of the other side that is assigned to `i`. -/
def counterpart (dst src : RefTriplet) (i : ℤ) : ℤ :=
  src.lower + (i - dst.lower) / dst.stride * src.stride

/-- The triplets denote the elements on the rank and their counterparts, in order. -/
def ListsStored (dst src : RefTriplet) (sub tl tu ts : ℤ) (res : RefTriplet × RefTriplet) : Prop :=
  ∃ elems : List ℤ, elems ≠ [] ∧ elems.Pairwise (· < ·) ∧
    (∀ i, i ∈ elems ↔ i ∈ storedElems dst sub tl tu ts) ∧
    res.1.Lists elems ∧ res.2.Lists (elems.map (counterpart dst src))

theorem lists_run (hint : GmoveInInt dst src sub tl tu ts) (hdst : 0 < dst.stride)
    (hcut : IsWidth1Cut (gmoveIter dst sub) (strided tl tu ts) ts par) (hsrc : src.stride ≠ 0)
    {N : ℕ} (hstep : par.step ≠ 0) (hquot : par.step.tdiv dst.stride ≠ 0)
    (hcond : par.cond = par.init + N * par.step) (hlow : dst.lower ≤ par.init + sub)
    (hmany : N ≠ 0 → 0 < par.step ∧ dst.stride ∣ par.step) :
    let elems := (List.range (N + 1)).map fun k : ℕ => par.init + sub + k * par.step
    elems.Pairwise (· < ·) ∧ (gmoveTriplets dst src sub par).1.Lists elems ∧
      (gmoveTriplets dst src sub par).2.Lists (elems.map (counterpart dst src)) := by
  intro elems
  have hle : par.init ≤ par.cond := by
    rcases Nat.eq_zero_or_pos N with rfl | hN
    · simp [hcond]
    · have := (hmany (by omega)).1
      have : 0 ≤ (N : ℤ) * par.step := by positivity
      omega
  have hpos : ∀ k ≤ N, (par.init + sub + k * par.step - dst.lower).tdiv dst.stride =
      (par.init + sub - dst.lower) / dst.stride + k * par.step.tdiv dst.stride := by
    intro k hk
    rcases Nat.eq_zero_or_pos k with rfl | hk0
    · rw [Nat.cast_zero, zero_mul, zero_mul, add_zero, add_zero,
        Int.tdiv_eq_ediv_of_nonneg (by omega)]
    · obtain ⟨hup, q, hq⟩ := hmany (by omega)
      have hnn : 0 ≤ (k : ℤ) * par.step := by positivity
      rw [Int.tdiv_eq_ediv_of_nonneg (by omega), hq, Int.mul_tdiv_cancel_left _ hdst.ne',
        show par.init + sub + k * (dst.stride * q) - dst.lower =
          par.init + sub - dst.lower + dst.stride * (k * q) by ring,
        Int.add_mul_ediv_left _ _ hdst.ne']
  have hfirst := hpos 0 (Nat.zero_le N)
  rw [Nat.cast_zero, zero_mul, zero_mul, add_zero, add_zero] at hfirst
  rw [hint.dst_eq hcut, hint.src_eq hdst hcut hle]
  refine ⟨?_, ⟨hstep, ?_⟩, mul_ne_zero hsrc hquot, ?_⟩
  · rw [List.pairwise_map]
    refine List.Pairwise.imp_of_mem (fun {a b} ha hb hab => ?_) List.pairwise_lt_range
    have hN : N ≠ 0 := by
      have := List.mem_range.mp hb
      omega
    have hlt : (a : ℤ) < b := by exact_mod_cast hab
    have := mul_lt_mul_of_pos_right hlt (hmany hN).1
    omega
  · have hrun := RefTriplet.values_run (x := par.init + sub) hstep N
    rw [show par.init + sub + N * par.step = par.cond + sub by rw [hcond]; ring] at hrun
    exact hrun
  · have hrun := RefTriplet.values_run
      (x := src.stride * (par.init + sub - dst.lower).tdiv dst.stride + src.lower)
      (mul_ne_zero hsrc hquot) N
    have hlast := hpos N le_rfl
    have hend : par.init + sub + N * par.step = par.cond + sub := by rw [hcond]; ring
    rw [hend] at hlast
    have hupper : src.stride * (par.init + sub - dst.lower).tdiv dst.stride + src.lower +
        N * (src.stride * par.step.tdiv dst.stride) =
        src.stride * (par.cond + sub - dst.lower).tdiv dst.stride + src.lower := by
      rw [hlast, hfirst]
      ring
    rw [hupper] at hrun
    rw [hrun, List.map_map]
    refine List.map_congr_left fun k hk => ?_
    have hk' := hpos k (by have := List.mem_range.mp hk; omega)
    have hnn : 0 ≤ par.init + sub + k * par.step - dst.lower := by
      rcases Nat.eq_zero_or_pos k with rfl | hk0
      · simpa using hlow
      · have hlt := List.mem_range.mp hk
        have := (hmany (by omega)).1
        have : 0 ≤ (k : ℤ) * par.step := by positivity
        omega
    rw [Function.comp_apply, counterpart, ← Int.tdiv_eq_ediv_of_nonneg hnn, hk', hfirst]
    ring

/-- What is found is what is stored, and the stride is one of a section: it goes upwards, or there
is a single element and it is not shorter than the stride of the section. -/
def FindsStored (dst : RefTriplet) (sub tl tu ts : ℤ) : Prop :=
  (storedElems dst sub tl tu ts).Nonempty ∧
    scheduledElems dst sub tl tu ts = storedElems dst sub tl tu ts ∧
    ((storedElems dst sub tl tu ts).Subsingleton → dst.stride ≤ |lcm (dst.stride - sub) ts|) ∧
    (¬ (storedElems dst sub tl tu ts).Subsingleton → 0 < lcm (dst.stride - sub) ts)

theorem tdiv_ne_zero_iff {x s : ℤ} (hs : 0 < s) : x.tdiv s ≠ 0 ↔ s ≤ |x| := by
  have hdiv : (x.tdiv s).natAbs = x.natAbs / s.natAbs := Int.natAbs_tdiv x s
  rw [ne_eq, ← Int.natAbs_eq_zero, hdiv, Nat.div_eq_zero_iff, Int.abs_eq_natAbs]
  omega

theorem listsStored_of_finds (hint : GmoveInInt dst src sub tl tu ts) (hdst : 0 < dst.stride)
    (hsrc : src.stride ≠ 0) (hts : 0 < ts)
    (hcut : IsWidth1Cut (gmoveIter dst sub) (strided tl tu ts) ts par)
    (h : FindsStored dst sub tl tu ts) :
    ListsStored dst src sub tl tu ts (gmoveTriplets dst src sub par) := by
  have hlcm := hint.product
  obtain ⟨⟨z, hz⟩, heq, hsingle, hmany⟩ := h
  have hstepeq : par.step = lcm (dst.stride - sub) ts := hcut.step
  rw [← hstepeq] at hsingle hmany
  have hmem := mem_scheduledElems_iff hts hlcm hcut
  rw [heq] at hmem
  obtain ⟨hz0, hz1, -⟩ := (hmem z).mp hz
  have hfirst := (hmem (par.init + sub)).mpr ⟨le_rfl, by omega, by simp⟩
  have hlast := (hmem (par.cond + sub)).mpr
    ⟨by omega, le_rfl, by simpa using hcut.step_dvd hts hlcm⟩
  by_cases hends : par.init = par.cond
  · have hsub : (storedElems dst sub tl tu ts).Subsingleton := by
      intro i hi i' hi'
      have hi := (hmem i).mp hi
      have hi' := (hmem i').mp hi'
      omega
    have hquot := (tdiv_ne_zero_iff hdst).mpr (hsingle hsub)
    have hstep : par.step ≠ 0 := fun h0 => hquot (by rw [h0, Int.zero_tdiv])
    obtain ⟨hsort, hlists, hlists'⟩ := lists_run (N := 0) hint hdst hcut hsrc hstep hquot
      (by rw [Nat.cast_zero, zero_mul, add_zero, hends]) hfirst.1.1 (fun h => absurd rfl h)
    refine ⟨_, by simp, hsort, fun i => ?_, hlists, hlists'⟩
    simp only [zero_add, List.range_one, List.map_cons, List.map_nil, List.mem_singleton,
      Nat.cast_zero, zero_mul, add_zero]
    exact ⟨fun h => h ▸ hfirst, fun h => hsub h hfirst⟩
  · have hpos : 0 < par.step := hmany fun hsub => hends (by
      have := hsub hfirst hlast
      omega)
    have hlt : par.init < par.cond := by omega
    obtain ⟨q, hq⟩ := hcut.step_dvd hts hlcm
    have hq0 : 0 < q := by
      by_contra hc
      nlinarith
    have hsecond := (hmem (par.init + sub + par.step)).mpr
      ⟨by omega, by nlinarith, by simp⟩
    have hdvd : dst.stride ∣ par.step := by
      have := dvd_sub hsecond.1.2.2 hfirst.1.2.2
      rwa [sub_sub_sub_cancel_right, add_sub_cancel_left] at this
    have hquot := (tdiv_ne_zero_iff hdst).mpr ((Int.le_of_dvd hpos hdvd).trans (le_abs_self _))
    obtain ⟨hsort, hlists, hlists'⟩ := lists_run (N := q.toNat) hint hdst hcut hsrc hpos.ne'
      hquot (by rw [Int.toNat_of_nonneg hq0.le]; linarith) hfirst.1.1 (fun _ => ⟨hpos, hdvd⟩)
    refine ⟨_, by simp, hsort, fun i => ?_, hlists, hlists'⟩
    rw [hmem, List.mem_map]
    constructor
    · rintro ⟨k, hk, rfl⟩
      have hk' : (k : ℤ) ≤ q := by
        have := List.mem_range.mp hk
        omega
      have h0 : 0 ≤ (k : ℤ) * par.step := by positivity
      have h1 : (k : ℤ) * par.step ≤ q * par.step := mul_le_mul_of_nonneg_right hk' hpos.le
      exact ⟨by omega, by linarith, k, by ring⟩
    · rintro ⟨h0, h1, k, hk⟩
      have hk0 : 0 ≤ k := by
        by_contra hc
        nlinarith
      have hkq : k ≤ q := by
        by_contra hc
        nlinarith
      refine ⟨k.toNat, List.mem_range.mpr (by omega), ?_⟩
      rw [Int.toNat_of_nonneg hk0]
      linarith

theorem finds_of_listsStored (hint : GmoveInInt dst src sub tl tu ts) (hdst : 0 < dst.stride)
    (hts : 0 < ts)
    (hcut : IsWidth1Cut (gmoveIter dst sub) (strided tl tu ts) ts par)
    (h : ListsStored dst src sub tl tu ts (gmoveTriplets dst src sub par)) :
    FindsStored dst sub tl tu ts := by
  have hlcm := hint.product
  obtain ⟨elems, hne, hsort, hstored, ⟨hstep, hvalues⟩, hsrcstep, -⟩ := h
  rw [hint.dst_eq hcut] at hstep hvalues
  rw [hint.src_stride_eq hcut] at hsrcstep
  have hstepeq : par.step = lcm (dst.stride - sub) ts := hcut.step
  have hmem := mem_scheduledElems_iff hts hlcm hcut
  dsimp only [RefTriplet.values] at hstep hvalues
  have hquot : dst.stride ≤ |par.step| :=
    (tdiv_ne_zero_iff hdst).mp (right_ne_zero_of_mul hsrcstep)
  rw [FindsStored, ← hstepeq]
  obtain ⟨z, hz⟩ := List.exists_mem_of_ne_nil _ hne
  refine ⟨⟨z, (hstored z).mp hz⟩, ?_⟩
  by_cases hpos : 0 < par.step
  · rw [if_pos hpos] at hvalues
    refine ⟨?_, fun _ => hquot, fun _ => hpos⟩
    ext i
    rw [hmem, ← hstored, ← hvalues, mem_loopValues_of_pos hpos, Int.lt_add_one_iff]
  · have hneg : par.step < 0 := by omega
    rw [if_neg hpos] at hvalues
    have hdown : elems.Pairwise (· > ·) := by
      rw [← hvalues]
      exact loopValues_pairwise_gt hneg
    obtain ⟨x, rfl⟩ : ∃ x, elems = [x] := by
      match elems, hne, hsort, hdown with
      | [x], _, _, _ => exact ⟨x, rfl⟩
      | x :: y :: _, _, hup, hdown =>
        have h1 := (List.pairwise_cons.mp hup).1 y (List.mem_cons_self ..)
        have h2 := (List.pairwise_cons.mp hdown).1 y (List.mem_cons_self ..)
        omega
    have hx : x ∈ loopValues (par.init + sub) (par.cond + sub - 1) par.step := by
      rw [hvalues]
      exact List.mem_singleton_self x
    rw [mem_loopValues_of_neg hneg] at hx
    have hhead : par.init + sub ∈ [x] := by
      rw [← hvalues, mem_loopValues_of_neg hneg]
      exact ⟨by omega, le_rfl, by simp⟩
    have hfirst := (hstored _).mp hhead
    have hle := mem_storedElems_left hcut hfirst
    rw [List.mem_singleton] at hhead
    have hsingle : ∀ i, i ∈ storedElems dst sub tl tu ts ↔ i = x := fun i => by
      rw [← hstored, List.mem_singleton]
    have hsub : (storedElems dst sub tl tu ts).Subsingleton := fun i hi i' hi' =>
      ((hsingle i).mp hi).trans ((hsingle i').mp hi').symm
    refine ⟨?_, fun _ => hquot, fun hno => absurd hsub hno⟩
    ext i
    rw [hmem, hsingle]
    constructor
    · rintro ⟨h0, h1, -⟩
      omega
    · rintro rfl
      exact ⟨by omega, by omega, by rw [hhead, sub_self]; exact dvd_zero _⟩

end Lists

/-! ## The condition on the section and the rank -/

section Cond

variable {dst : RefTriplet} {sub tl tu ts : ℤ}

/-- The first element of the section that is stored on the rank, where there is one. -/
def firstStored (dst : RefTriplet) (sub tl ts : ℤ) : ℤ :=
  firstMeet (tl - sub) ts dst.lower dst.stride (max dst.lower (tl - sub))

def lastStored (dst : RefTriplet) (sub tl tu ts : ℤ) : ℤ :=
  lastMeet (tl - sub) ts dst.lower dst.stride (min dst.upper (tu - sub))

/-- The section and the indices of the rank have a common residue, and its first number within the
bounds of both is not beyond them. -/
def Stores (dst : RefTriplet) (sub tl tu ts : ℤ) : Prop :=
  Meets (tl - sub) ts dst.lower dst.stride ∧
    firstStored dst sub tl ts ≤ min dst.upper (tu - sub)

/-- The offset with the other sign and the stride that it has lowered lead to the same elements:
twice the offset is a multiple of the stride of the rank, both ends are reached, the period is the
same where there are two elements, and there is room for no further one. -/
structure KeepsStored (dst : RefTriplet) (sub tl tu ts : ℤ) : Prop where
  stride : dst.stride ≠ sub
  offset : ts ∣ 2 * sub
  residue : dst.stride - sub ∣ firstStored dst sub tl ts - dst.lower
  within : tl + sub ≤ firstStored dst sub tl ts ∧ lastStored dst sub tl tu ts ≤ tu + sub
  before : firstStored dst sub tl ts - Int.lcm ts (dst.stride - sub) < max dst.lower (tl + sub)
  behind : min dst.upper (tu + sub) < lastStored dst sub tl tu ts + Int.lcm ts (dst.stride - sub)
  single : firstStored dst sub tl ts = lastStored dst sub tl tu ts →
    dst.stride ≤ Int.lcm ts (dst.stride - sub)
  several : firstStored dst sub tl ts < lastStored dst sub tl tu ts →
    (0 < dst.stride - sub ∨ gcd (dst.stride - sub) ts < 0) ∧
      Int.lcm ts (dst.stride - sub) = Int.lcm ts dst.stride

/-- With the lowered stride, the residues of the shifted rank and of the section are apart, or their
first common number above both lower bounds is above the rank, or the last one below both upper
bounds is below the rank. -/
def Misses (dst : RefTriplet) (sub tl tu ts : ℤ) : Prop :=
  if dst.stride = sub then tu < dst.lower - sub ∨ dst.upper - sub < tl
  else Meets (tl + sub) ts dst.lower (dst.stride - sub) →
    tu + sub < firstMeet (tl + sub) ts dst.lower (dst.stride - sub) (max dst.lower (tl + sub)) ∨
      lastMeet (tl + sub) ts dst.lower (dst.stride - sub) (min dst.upper (tu + sub)) < tl + sub

/-- Where something is stored, the stored elements are kept; where nothing is, the search ends
early. -/
def GmoveTripletCond (dst : RefTriplet) (sub tl tu ts : ℤ) : Prop :=
  (Stores dst sub tl tu ts ∧ KeepsStored dst sub tl tu ts) ∨
    (¬ Stores dst sub tl tu ts ∧ Misses dst sub tl tu ts)

theorem mem_storedElems (i : ℤ) : i ∈ storedElems dst sub tl tu ts ↔
    max dst.lower (tl - sub) ≤ i ∧ i ≤ min dst.upper (tu - sub) ∧
      ts ∣ i - (tl - sub) ∧ dst.stride ∣ i - dst.lower := by
  simp only [storedElems, strided, Set.mem_ofPred_eq, max_le_iff, le_min_iff,
    show i + sub - tl = i - (tl - sub) by ring]
  constructor
  · rintro ⟨⟨h0, h1, h2⟩, h3, h4, h5⟩
    exact ⟨⟨h0, by omega⟩, ⟨h1, by omega⟩, h5, h2⟩
  · rintro ⟨⟨h0, h1⟩, ⟨h2, h3⟩, h4, h5⟩
    exact ⟨⟨h0, h2, h5⟩, by omega, by omega, h4⟩

theorem mem_scheduledElems (i : ℤ) : i ∈ scheduledElems dst sub tl tu ts ↔
    max dst.lower (tl + sub) ≤ i ∧ i ≤ min dst.upper (tu + sub) ∧
      ts ∣ i - (tl + sub) ∧ dst.stride - sub ∣ i - dst.lower := by
  simp only [scheduledElems, strided, Set.mem_ofPred_eq, max_le_iff, le_min_iff,
    show i - sub - tl = i - (tl + sub) by ring]
  constructor
  · rintro ⟨⟨h0, h1, h2⟩, h3, h4, h5⟩
    exact ⟨⟨h0, by omega⟩, ⟨h1, by omega⟩, h5, h2⟩
  · rintro ⟨⟨h0, h1⟩, ⟨h2, h3⟩, h4, h5⟩
    exact ⟨⟨h0, h2, h5⟩, by omega, by omega, h4⟩

theorem stores_iff (hdst : 0 < dst.stride) (hts : 0 < ts) :
    Stores dst sub tl tu ts ↔ (storedElems dst sub tl tu ts).Nonempty := by
  rw [Stores, firstStored, ← meets_between_iff hts.ne' hdst.ne', Set.Nonempty]
  simp only [mem_storedElems]

theorem isLeast_firstStored (hdst : 0 < dst.stride) (hts : 0 < ts) (h : Stores dst sub tl tu ts) :
    IsLeast (storedElems dst sub tl tu ts) (firstStored dst sub tl ts) := by
  obtain ⟨h0, h1⟩ := isLeast_firstMeet hts.ne' hdst.ne' h.1 (max dst.lower (tl - sub))
  refine ⟨(mem_storedElems _).mpr ⟨h0.1, h.2, h0.2⟩, fun i hi => ?_⟩
  obtain ⟨h2, -, h3⟩ := (mem_storedElems i).mp hi
  exact h1 ⟨h2, h3⟩

theorem isGreatest_lastStored (hdst : 0 < dst.stride) (hts : 0 < ts)
    (h : Stores dst sub tl tu ts) :
    IsGreatest (storedElems dst sub tl tu ts) (lastStored dst sub tl tu ts) := by
  obtain ⟨h0, h1⟩ := isGreatest_lastMeet hts.ne' hdst.ne' h.1 (min dst.upper (tu - sub))
  have hlast := (meets_between_iff_last hts.ne' hdst.ne').mp
    ((meets_between_iff hts.ne' hdst.ne').mpr h)
  refine ⟨(mem_storedElems _).mpr ⟨hlast.2, h0.1, h0.2⟩, fun i hi => ?_⟩
  obtain ⟨-, h2, h3⟩ := (mem_storedElems i).mp hi
  exact h1 ⟨h2, h3⟩

theorem mem_storedElems_from (hdst : 0 < dst.stride) (hts : 0 < ts) (h : Stores dst sub tl tu ts)
    (i : ℤ) : i ∈ storedElems dst sub tl tu ts ↔ firstStored dst sub tl ts ≤ i ∧
      i ≤ lastStored dst sub tl tu ts ∧
        (Int.lcm ts dst.stride : ℤ) ∣ i - firstStored dst sub tl ts := by
  have hfirst := isLeast_firstStored hdst hts h
  have hlast := isGreatest_lastStored hdst hts h
  obtain ⟨h0, -, h1, h2⟩ := (mem_storedElems _).mp hfirst.1
  obtain ⟨-, h3, -⟩ := (mem_storedElems _).mp hlast.1
  constructor
  · intro hi
    obtain ⟨-, -, h4, h5⟩ := (mem_storedElems i).mp hi
    refine ⟨hfirst.2 hi, hlast.2 hi, Int.coe_lcm_dvd ?_ ?_⟩
    · have := dvd_sub h4 h1
      rwa [sub_sub_sub_cancel_right] at this
    · have := dvd_sub h5 h2
      rwa [sub_sub_sub_cancel_right] at this
  · rintro ⟨h4, h5, h6⟩
    obtain ⟨h7, h8⟩ := Int.coe_lcm_dvd_iff.mp h6
    replace h7 := dvd_add h7 h1
    replace h8 := dvd_add h8 h2
    rw [sub_add_sub_cancel] at h7 h8
    exact (mem_storedElems i).mpr ⟨h0.trans h4, h5.trans h3, h7, h8⟩

theorem mem_scheduledElems_near (tu : ℤ) {z : ℤ} (h0 : ts ∣ z - (tl + sub))
    (h1 : dst.stride - sub ∣ z - dst.lower) (i : ℤ) : i ∈ scheduledElems dst sub tl tu ts ↔
      max dst.lower (tl + sub) ≤ i ∧ i ≤ min dst.upper (tu + sub) ∧
        (Int.lcm ts (dst.stride - sub) : ℤ) ∣ i - z := by
  rw [mem_scheduledElems, Int.coe_lcm_dvd_iff, ← dvd_sub_left h0, ← dvd_sub_left h1,
    sub_sub_sub_cancel_right, sub_sub_sub_cancel_right]

end Cond

section Meaning

variable {dst : RefTriplet} {sub tl tu ts : ℤ}

theorem abs_lcm_eq {a b : ℤ} (hb : 0 < b) (hab : InInt (a * b)) : |lcm a b| = Int.lcm b a := by
  rw [Int.abs_eq_natAbs, lcm_natAbs hb.ne' hab, Int.lcm_comm]

theorem findsStored_of_keeps (hdst : 0 < dst.stride) (hts : 0 < ts)
    (hlcm : InInt ((dst.stride - sub) * ts)) (h : Stores dst sub tl tu ts)
    (hk : KeepsStored dst sub tl tu ts) : FindsStored dst sub tl tu ts := by
  obtain ⟨hstride, hoffset, hresidue, ⟨hlow, hup⟩, hbefore, hbehind, hsingle, hseveral⟩ := hk
  have hmem := mem_storedElems_from hdst hts h
  have hfirst := isLeast_firstStored hdst hts h
  have hlast := isGreatest_lastStored hdst hts h
  have hle := hfirst.2 hlast.1
  obtain ⟨h0, h1, h2, -⟩ := (mem_storedElems _).mp hfirst.1
  obtain ⟨h3, h4, -⟩ := (mem_storedElems _).mp hlast.1
  rw [FindsStored, abs_lcm_eq hts hlcm, lcm_pos_iff (sub_ne_zero.mpr hstride) hts hlcm]
  generalize firstStored dst sub tl ts = a at *
  generalize lastStored dst sub tl tu ts = b at *
  have hshift : ts ∣ a - (tl + sub) := by
    have := dvd_sub h2 hoffset
    rwa [show a - (tl - sub) - 2 * sub = a - (tl + sub) by ring] at this
  have hnear := mem_scheduledElems_near tu hshift hresidue
  have hM := lcm_cast_pos hts.ne' (sub_ne_zero.mpr hstride)
  have hends : a ∈ scheduledElems dst sub tl tu ts :=
    (hnear a).mpr ⟨by omega, by omega, by simp⟩
  have hbetween : ∀ i, i ∈ scheduledElems dst sub tl tu ts → a ≤ i := by
    intro i hi
    obtain ⟨h5, -, h7⟩ := (hnear i).mp hi
    by_contra hc
    have := Int.le_of_dvd (by omega) (dvd_sub_comm.mp h7)
    omega
  refine ⟨⟨a, hfirst.1⟩, Set.Subset.antisymm (fun i hi => ?_) (fun i hi => ?_),
    fun hsub => hsingle (hsub hfirst.1 hlast.1), fun hno => ?_⟩
  · obtain ⟨h5, h6, h7⟩ := (hnear i).mp hi
    have ha := hbetween i hi
    rw [hmem]
    rcases hle.eq_or_lt with heq | hlt
    · have hia : i = a := by
        by_contra hne
        have := Int.le_of_dvd (by omega) h7
        omega
      rw [hia]
      exact ⟨le_rfl, hle, by simp⟩
    · have hperiod := (hseveral hlt).2
      rw [hperiod] at h7 hM hbehind
      have hb := ((hmem b).mp hlast.1).2.2
      refine ⟨ha, ?_, h7⟩
      by_contra hc
      have hd := dvd_sub h7 hb
      rw [sub_sub_sub_cancel_right] at hd
      have := Int.le_of_dvd (by omega) hd
      omega
  · obtain ⟨h5, h6, h7⟩ := (hmem i).mp hi
    rcases hle.eq_or_lt with heq | hlt
    · obtain rfl : i = a := by omega
      exact hends
    · rw [← (hseveral hlt).2] at h7
      exact (hnear i).mpr ⟨by omega, by omega, h7⟩
  · refine (hseveral (lt_of_le_of_ne hle fun heq => hno fun i hi i' hi' => ?_)).1
    have hi := (hmem i).mp hi
    have hi' := (hmem i').mp hi'
    omega

theorem keeps_of_findsStored (hdst : 0 < dst.stride) (hts : 0 < ts)
    (hlcm : InInt ((dst.stride - sub) * ts)) (hstride : dst.stride ≠ sub)
    (h : Stores dst sub tl tu ts) (hf : FindsStored dst sub tl tu ts) :
    KeepsStored dst sub tl tu ts := by
  have hmem := mem_storedElems_from hdst hts h
  have hfirst := isLeast_firstStored hdst hts h
  have hlast := isGreatest_lastStored hdst hts h
  have hle := hfirst.2 hlast.1
  obtain ⟨-, heq, hsingle, hseveral⟩ := hf
  rw [abs_lcm_eq hts hlcm] at hsingle
  rw [lcm_pos_iff (sub_ne_zero.mpr hstride) hts hlcm] at hseveral
  have hM := lcm_cast_pos hts.ne' (sub_ne_zero.mpr hstride)
  have hM' := lcm_cast_pos hts.ne' hdst.ne'
  have hfirst' := hfirst.1
  have hlast' := hlast.1
  rw [← heq, mem_scheduledElems] at hfirst' hlast'
  obtain ⟨h0, h1, h2, h3⟩ := hfirst'
  obtain ⟨h4, h5, h6, h7⟩ := hlast'
  obtain ⟨-, -, h8, -⟩ := (mem_storedElems _).mp hfirst.1
  have hnear := mem_scheduledElems_near tu h2 h3
  rw [heq] at hnear
  have hperiod := fun i (hi : i ∈ storedElems dst sub tl tu ts) => ((hnear i).mp hi).2.2
  constructor
  · exact hstride
  · have := dvd_sub h8 h2
    rwa [show firstStored dst sub tl ts - (tl - sub) - (firstStored dst sub tl ts - (tl + sub)) =
      2 * sub by ring] at this
  · exact h3
  · exact ⟨by omega, by omega⟩
  · by_contra hc
    have := hfirst.2 ((hnear _).mpr ⟨not_lt.mp hc, by omega, by simp⟩)
    omega
  · by_contra hc
    have := hlast.2 ((hnear _).mpr ⟨by omega, not_lt.mp hc, by
      have := hperiod _ hlast.1
      rw [add_sub_right_comm]
      exact dvd_add this dvd_rfl⟩)
    omega
  · intro hends
    refine hsingle fun i hi i' hi' => ?_
    have hi := (hmem i).mp hi
    have hi' := (hmem i').mp hi'
    omega
  · intro hlt
    refine ⟨hseveral fun hsub => absurd (hsub hfirst.1 hlast.1) hlt.ne, ?_⟩
    -- the next element with either period is within the bounds, so it has the other period too
    have hnext := Int.le_of_dvd (by omega) ((hmem _).mp hlast.1).2.2
    have hnext' := Int.le_of_dvd (by omega) (hperiod _ hlast.1)
    have hd := hperiod _ ((hmem (firstStored dst sub tl ts + Int.lcm ts dst.stride)).mpr
      ⟨by omega, by omega, by simp⟩)
    have hd' := ((hmem _).mp ((hnear (firstStored dst sub tl ts +
      Int.lcm ts (dst.stride - sub))).mpr ⟨by omega, by omega, by simp⟩)).2.2
    rw [add_sub_cancel_left] at hd hd'
    exact Nat.dvd_antisymm (by exact_mod_cast hd) (by exact_mod_cast hd')

/-- The search of the scheduler ends early: no index of the rank is left above the start of the
loop, or none below its end. -/
theorem misses_iff (hts : 0 < ts) (hstride : dst.stride ≠ sub) :
    Misses dst sub tl tu ts ↔ (gmoveIter dst sub).fromInit (strided tl tu ts) = ∅ ∨
      (gmoveIter dst sub).toCond (strided tl tu ts) = ∅ := by
  have hS := sub_ne_zero.mpr hstride
  have hfrom : (gmoveIter dst sub).fromInit (strided tl tu ts) = ∅ ↔
      ¬ (Meets (tl + sub) ts dst.lower (dst.stride - sub) ∧
        firstMeet (tl + sub) ts dst.lower (dst.stride - sub) (max dst.lower (tl + sub)) ≤
          tu + sub) := by
    rw [← meets_between_iff hts.ne' hS, ← Set.not_nonempty_iff_eq_empty, not_iff_not]
    constructor
    · rintro ⟨x, ⟨h0, h1, h2⟩, h3, h4⟩
      dsimp only [gmoveIter] at h3 h4
      refine ⟨x + sub, by omega, by omega, ?_, ?_⟩
      · rwa [add_sub_add_right_eq_sub]
      · rwa [show x + sub - dst.lower = x - (dst.lower - sub) by ring]
    · rintro ⟨x, h0, h1, h2, h3⟩
      refine ⟨x - sub, ⟨by omega, by omega, ?_⟩, ?_, ?_⟩
      · rwa [show x - sub - tl = x - (tl + sub) by ring]
      · dsimp only [gmoveIter]
        omega
      · rwa [gmoveIter, sub_sub_sub_cancel_right]
  have hto : (gmoveIter dst sub).toCond (strided tl tu ts) = ∅ ↔
      ¬ (Meets (tl + sub) ts dst.lower (dst.stride - sub) ∧
        tl + sub ≤
          lastMeet (tl + sub) ts dst.lower (dst.stride - sub) (min dst.upper (tu + sub))) := by
    rw [← meets_between_iff_last hts.ne' hS, ← Set.not_nonempty_iff_eq_empty, not_iff_not]
    constructor
    · rintro ⟨x, ⟨h0, h1, h2⟩, h3, h4⟩
      dsimp only [gmoveIter] at h3 h4
      refine ⟨x + sub, by omega, by omega, ?_, ?_⟩
      · rwa [add_sub_add_right_eq_sub]
      · rwa [show x + sub - dst.lower = x - (dst.lower - sub) by ring]
    · rintro ⟨x, h0, h1, h2, h3⟩
      refine ⟨x - sub, ⟨by omega, by omega, ?_⟩, ?_, ?_⟩
      · rwa [show x - sub - tl = x - (tl + sub) by ring]
      · dsimp only [gmoveIter]
        omega
      · rwa [gmoveIter, sub_sub_sub_cancel_right]
  rw [Misses, if_neg hstride, hfrom, hto]
  by_cases hmeets : Meets (tl + sub) ts dst.lower (dst.stride - sub) <;> simp [hmeets]

end Meaning

/-! ## The whole call -/

section Call

variable {t t' : Template d n} {nodes : Nodes n} {fresh : Fin d → TemplateChunk n}
variable {formats : DistFormats d n} {ai : ArrayInfo d} {i : Fin d} {dst src : RefTriplet}
variable {sub tl tu ts : ℤ}

/-- The call returns `_XMP_N_INT_FALSE` when no element of the section is on the rank, and otherwise
the elements that are, with their counterparts. -/
def GmoveTripletRight (t : Template d n) (ai : ArrayInfo d) (tl tu ts : ℤ) (dst src : RefTriplet) :
    Prop :=
  ∃ res, schedGmoveTriplet t ai tl tu ts dst src = .ok res ∧
    match res with
    | none => storedElems dst ai.alignSubscript tl tu ts = ∅
    | some res => ListsStored dst src ai.alignSubscript tl tu ts res

theorem schedGmoveTriplet_width1 (hidx : ai.alignTemplateIndex = some i)
    (hm : (t.chunk i).distManner = .block ∨ (t.chunk i).distManner = .cyclic)
    (hint : GmoveInInt dst src ai.alignSubscript tl tu ts) (hts : 0 < ts) :
    schedGmoveTriplet t ai tl tu ts dst src =
      let ser := gmoveIter dst ai.alignSubscript
      if ser.step = 0 ∧ ¬ (tu < ser.init ∨ ser.cond < tl) then .error "division by zero"
      else .ok ((width1Cut ser tl tu ts).map (gmoveTriplets dst src ai.alignSubscript)) := by
  obtain ⟨h0, h1, h2⟩ := hint.ser
  unfold schedGmoveTriplet
  rcases hm with hm | hm <;>
  · simp only [hidx, hm, toInt_of_inInt hint.offset, toInt_of_inInt h0, toInt_of_inInt h1,
      toInt_of_inInt h2, schedLoopTemplateWidth1_eq hts]
    rfl

theorem blockTriplet_normal {t : Template d n} {P : ℕ} (hP' : P < 2 ^ 31)
    (hm : (t.chunk i).distManner = .block)
    (hw : (t.chunk i).parChunkWidth = ceilDiv (t.info i).serSize P) (rank : Fin P)
    (htr : calcTemplateParTriplet t i (rank : ℕ) = .ok (some (tl, tu, ts))) :
    (0 < ts ∧ InInt ts) ∧ tl ≤ tu ∧ ts ∣ tu - tl := by
  have hP : (0 : ℤ) < P := by exact_mod_cast rank.pos
  have hW := ceilDiv_pos (t.info i).serSize_pos hP
  have hWint := (t.info i).chunkWidth_inInt ⟨P, rank, hP'⟩
  obtain ⟨howns, hlow, hup⟩ := blockMembers_spec (t.info i) ⟨P, rank, hP'⟩ hW 0
  have htriplet : calcTemplateParTriplet t i (rank : ℕ) =
      let m := blockMembers (t.info i) ⟨P, rank, hP'⟩ (ceilDiv (t.info i).serSize P) 0
      .ok (if m.2.2 then some (m.1, m.2.1, 1) else none) := by
    simp only [calcTemplateParTriplet, hm, hw, blockMembers, toInt_of_inInt hWint]
    split_ifs <;> simp_all
  rw [htriplet] at htr
  dsimp only at htr howns hlow hup
  split_ifs at htr with hown
  · have hlt := howns.mp hown
    have hN := (t.info i).serUpper_eq
    have hr : ((rank : ℕ) + 1 : ℤ) * ceilDiv (t.info i).serSize P =
      (rank : ℕ) * ceilDiv (t.info i).serSize P + ceilDiv (t.info i).serSize P := by ring
    simp only [Except.ok.injEq, Option.some.injEq, Prod.mk.injEq] at htr
    obtain ⟨rfl, rfl, rfl⟩ := htr
    rw [hlow, hup hown, hr]
    exact ⟨⟨one_pos, by decide⟩, by rw [le_min_iff]; omega, one_dvd _⟩
  · cases htr

theorem cyclicTriplet_normal {t : Template d n} {P : ℕ} (hP' : P < 2 ^ 31)
    (hm : (t.chunk i).distManner = .cyclic) (hw : (t.chunk i).parWidth = 1)
    (hP : (t.chunk i).nodesSize = P) (rank : Fin P)
    (htr : calcTemplateParTriplet t i (rank : ℕ) = .ok (some (tl, tu, ts))) :
    (0 < ts ∧ InInt ts) ∧ tl ≤ tu ∧ ts ∣ tu - tl := by
  have hP0 : (0 : ℤ) < P := by exact_mod_cast rank.pos
  have hPint : InInt P := NodesInfo.size_inInt ⟨P, rank, hP'⟩
  obtain ⟨-, hbounds⟩ := cyclicMembers_spec (t.info i) ⟨P, rank, hP'⟩ one_pos 0 0
  have htriplet : calcTemplateParTriplet t i (rank : ℕ) =
      let m := cyclicMembers (t.info i) ⟨P, rank, hP'⟩ 1 0 0
      .ok (if m.2.2 then some (m.1, m.2.1, (P : ℤ)) else none) := by
    simp only [calcTemplateParTriplet, hm, hw, hP, cyclicMembers,
      toInt_of_inInt (show InInt 1 by decide), mul_one, toInt_of_inInt hPint]
    split_ifs <;> simp_all
  rw [htriplet] at htr
  dsimp only at htr hbounds
  split_ifs at htr with hown
  · obtain ⟨hlow, m, hm0, hup, -⟩ := hbounds hown
    simp only [Except.ok.injEq, Option.some.injEq, Prod.mk.injEq] at htr
    obtain ⟨rfl, rfl, rfl⟩ := htr
    have hnn : 0 ≤ m * (P : ℤ) := mul_nonneg hm0 hP0.le
    rw [hlow, hup, mul_one, mul_one]
    exact ⟨⟨hP0, hPint⟩, by omega, m, by ring⟩
  · cases htr

/-- The triplet of a rank in a dimension of width one starts and ends with an index. -/
theorem calcTemplateParTriplet_normal
    (h : distTemplates (initTemplateChunk t nodes fresh) formats.calls = .ok t')
    (hm : (t'.chunk i).distManner = .block ∨ (t'.chunk i).distManner = .cyclic)
    (rank : Fin (nodes.info (formats.nodesIndex i)).size)
    (htr : calcTemplateParTriplet t' i (rank : ℕ) = .ok (some (tl, tu, ts))) :
    (0 < ts ∧ InInt ts) ∧ tl ≤ tu ∧ ts ∣ tu - tl := by
  have hP := (nodes.info (formats.nodesIndex i)).size_lt
  obtain ⟨u, u', hinfo, rfl, hok, hchunk⟩ := formats.chunk_written h i
  have hnodup : (formats.calls.map DistCall.templateIndex).Nodup := by
    simpa [DistFormats.calls, Function.comp_def] using List.nodup_finRange d
  have hinfo' : t'.info i = u.info i := by
    rw [(distTemplates_replicated hnodup h).1, hinfo]
    rfl
  cases hfmt : formats.fmt i with
  | duplication =>
    rw [hfmt] at hok
    cases hok
    simp [hchunk, distTemplateDuplication] at hm
  | block =>
    rw [hfmt] at hok
    cases hok
    refine blockTriplet_normal hP ?_ ?_ rank htr
    · simp [hchunk, distTemplateBlock]
    · simp [hchunk, distTemplateBlock, hinfo']
  | cyclic =>
    rw [hfmt] at hok
    cases hok
    refine cyclicTriplet_normal hP ?_ ?_ ?_ rank htr
    · simp [hchunk, distTemplateCyclic, distTemplateCyclicWidth]
    · simp [hchunk, distTemplateCyclic, distTemplateCyclicWidth]
    · simp [hchunk, distTemplateCyclic, distTemplateCyclicWidth, TemplateChunk.nodesSize]
  | blockCyclic w =>
    rw [hfmt] at hok
    cases hok
    have hw : w = 1 := by
      by_contra hw
      simp [hchunk, distTemplateBlockCyclic, distTemplateCyclicWidth, hw] at hm
    subst hw
    refine cyclicTriplet_normal hP ?_ ?_ ?_ rank htr
    · simp [hchunk, distTemplateBlockCyclic, distTemplateCyclicWidth]
    · simp [hchunk, distTemplateBlockCyclic, distTemplateCyclicWidth]
    · simp [hchunk, distTemplateBlockCyclic, distTemplateCyclicWidth, TemplateChunk.nodesSize]
  | gblock m =>
    cases m with
    | none => exact absurd hfmt (formats.mapping_given i)
    | some m =>
      rw [hfmt] at hok
      have hmanner : (u'.chunk i).distManner = .gblock := by
        simp only [distTemplate, distTemplateGblock] at hok
        split_ifs at hok
        cases hok
        simp
      rw [hchunk, hmanner] at hm
      simp at hm

theorem keepsStored_zero (hdst : 0 < dst.stride) (hts : 0 < ts) (hlcm : InInt (dst.stride * ts))
    (h : Stores dst 0 tl tu ts) : KeepsStored dst 0 tl tu ts := by
  have hpos := lcm_pos hdst hts hlcm
  have hdvd := ((lcm_dvd_iff hts hlcm).mp (dvd_refl (lcm dst.stride ts))).1
  refine keeps_of_findsStored hdst hts (by rwa [sub_zero]) hdst.ne' h ?_
  rw [FindsStored, sub_zero]
  refine ⟨(stores_iff hdst hts).mp h, ?_,
    fun _ => (Int.le_of_dvd hpos hdvd).trans (le_abs_self _), fun _ => hpos⟩
  simp only [scheduledElems, storedElems, sub_zero, add_zero]

def cyclicFormats : DistFormats 1 1 where
  nodesIndex := fun _ => 0
  fmt := fun _ => .cyclic
  width_pos := by simp
  mapping_given := by simp

theorem zero_le_eight : (0 : ℤ) ≤ 8 := by decide

/-- An array dimension `a(0:8)` that is aligned with `t(i + sub)`. -/
def offsetInfo (sub : ℤ) : ArrayInfo 1 :=
  { (initArrayInfo 0 8 zero_le_eight : ArrayInfo 1) with
    alignSubscript := sub
    alignTemplateIndex := some 0 }

/-- The template `t(0:8)`, dealt cyclically onto three nodes, on the second of them. -/
def secondCyclic : Template 1 1 :=
  distTemplateCyclic (initTemplateChunk secondTemplate secondNode fun _ => default) 0 0

theorem secondCyclic_triplet : calcTemplateParTriplet secondCyclic 0 1 = .ok (some (1, 7, 3)) :=
  (distTemplateCyclicWidth_chunk (initTemplateChunk secondTemplate secondNode fun _ => default) 0 0
    one_pos rfl rfl).parTriplet one_pos (by decide) (1 : Fin 3)

theorem secondBlock_triplet : calcTemplateParTriplet secondBlock 0 1 = .ok (some (3, 5, 1)) :=
  (distTemplateBlock_chunk (initTemplateChunk secondTemplate secondNode fun _ => default) 0 0
    rfl rfl).parTriplet (1 : Fin 3)

end Call

end OmniCompiler.Xmp
