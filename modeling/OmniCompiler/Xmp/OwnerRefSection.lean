import OmniCompiler.Xmp.OwnerSection
import OmniCompiler.Xmp.ScaledSection

/-!
# The owned part of a reference

`get_owner_ref_csd` intersects the owned section of each dimension with the referenced one.
In positions `k` of the reference `lb : ub : st` the result consists of whole residue
classes of one range, and of strays: owned elements past the end of the reference that
`intersection_rsds` returns for a class without an element of the reference.
-/
namespace OmniCompiler.Xmp

open MachineInt ForLoop Progression

/-- Position of the last element of `lb : ub : st`; negative if there is none. -/
def lastPosition (lb ub st : ℤ) : ℤ := (ub - lb) / st

section Positions

variable {lb ub st : ℤ}

theorem position_le_iff (hst : 0 < st) {k : ℤ} : k ≤ lastPosition lb ub st ↔ lb + k * st ≤ ub := by
  rw [lastPosition, Int.le_ediv_iff_mul_le hst]
  constructor <;> intro h <;> linarith

theorem mem_strided_position (hst : 0 < st) {k : ℤ} :
    lb + k * st ∈ strided lb ub st ↔ 0 ≤ k ∧ k ≤ lastPosition lb ub st := by
  have h0 : lb ≤ lb + k * st ↔ 0 ≤ k := by
    rw [le_add_iff_nonneg_right, mul_nonneg_iff_of_pos_right hst]
  rw [position_le_iff hst, ← h0]
  simp [strided]

theorem exists_position {x : ℤ} (hx : st ∣ x - lb) : ∃ k, x = lb + k * st := by
  obtain ⟨k, hk⟩ := hx
  exact ⟨k, by linarith⟩

theorem strided_lastPosition (hst : 0 < st) :
    strided lb (lb + lastPosition lb ub st * st) st = strided lb ub st := by
  ext x
  constructor
  · intro hx
    obtain ⟨k, rfl⟩ := exists_position hx.2.2
    have hle := (scale_le_scale hst).mp hx.2.1
    exact ⟨hx.1, (position_le_iff hst).mp hle, hx.2.2⟩
  · intro hx
    obtain ⟨k, rfl⟩ := exists_position hx.2.2
    exact ⟨hx.1, (scale_le_scale hst).mpr ((position_le_iff hst).mpr hx.2.1), hx.2.2⟩

end Positions

/-- Position `k` past the end of the reference is returned for the class of its element:
the class starts inside the reference without having an element in it, and this is its
first element that continues the reference. -/
structure Stray (S : Set ℤ) (period lb ub st k : ℤ) : Prop where
  past : lastPosition lb ub st < k
  mem : lb + k * st ∈ S
  inside : ∃ x ∈ S, period ∣ lb + k * st - x ∧ x ≤ ub
  after : ∀ x ∈ S, period ∣ lb + k * st - x → lb < x
  least : ∀ k', 0 ≤ k' → k' < k → lb + k' * st ∈ S → ¬ period ∣ lb + k * st - (lb + k' * st)

def reach (S : Set ℤ) (period lb ub st : ℤ) : Set ℤ :=
  {k | 0 ≤ k ∧ k ≤ lastPosition lb ub st ∧ lb + k * st ∈ S} ∪ {k | Stray S period lb ub st k}

/-! ## One class against the reference -/

section OneClass

variable {r r0 : Rsd} {lb ub st : ℤ}

structure IsStrayHit (r : Rsd) (lb ub st : ℤ) (r0 : Rsd) : Prop where
  start : lb < r.l
  inside : r.l ≤ ub
  not_meets : ¬ r.Meets ⟨lb, ub, st⟩
  hit : IsFirstHit ⟨lb, ub, st⟩ r r0.l
  past : ub < r0.l
  point : r0.u = r0.l

theorem intersectionRsds_ref (hst : 0 < st) (hlu : lb ≤ ub) (hr : r.WF)
    (hfit : r.FitsWith ⟨lb, ub, st⟩)
    (hstart : r.l ≤ lb → lb ≤ r.u → ∀ y ∈ strided lb ub st, r.s ∣ y - r.l → r.Meets ⟨lb, ub, st⟩)
    (h : intersectionRsds (some r) (some ⟨lb, ub, st⟩) = some r0) :
    r.Meets ⟨lb, ub, st⟩ ∨ IsStrayHit r lb ub st r0 := by
  have href : Rsd.WF ⟨lb, ub, st⟩ := ⟨hst, hlu⟩
  by_cases hm : r.Meets ⟨lb, ub, st⟩
  · exact Or.inl hm
  · refine Or.inr ?_
    have hnormal := intersectionRsds_normal h
    rw [intersectionRsds_some] at h
    dsimp only at h
    split_ifs at h with hle
    · obtain ⟨hlow, hhit, -, -⟩ := intersectionOrdered_eq_some href hle hfit h
      exact absurd (hstart hle hlow r0.l hhit.mem hhit.congr) hm
    · have hge : (⟨lb, ub, st⟩ : Rsd).l ≤ r.l := by dsimp only; omega
      obtain ⟨hlow, -⟩ := intersectionOrdered_eq_some hr hge hfit.symm h
      obtain ⟨hwf, -, hhit, hin, hpast⟩ :=
        intersectionOrdered_spec href hr hge hfit.symm h
      have hgt : ub < r0.l := by
        by_contra hc
        have hmem : r0.l ∈ r0.elems := left_mem_strided hwf.le
        rw [hin (by dsimp only; omega)] at hmem
        exact hm ⟨r0.l, hmem.2, hmem.1⟩
      have hpoint : r0.u ∈ r0.elems := Rsd.right_mem_elems hwf hnormal
      rw [(hpast hgt).1, Set.mem_singleton_iff] at hpoint
      exact ⟨by omega, hlow, hm, hhit, hgt, hpoint⟩

end OneClass

/-! ## All classes of a dimension -/

def refCsd (lb ub st : ℤ) : Csd := ⟨[(lb, ub)], st⟩

theorem refCsd_rsds (lb ub st : ℤ) : (refCsd lb ub st).rsds = [⟨lb, ub, st⟩] := rfl

/-- A section of owned indices as it meets the reference: whole classes of one range, each
of which has an element in the reference whenever the search starts inside the class. -/
structure OwnerClasses (c : Csd) (A B lb ub st : ℤ) : Prop where
  window : c.Window A B
  wf : c.WF
  fit : c.FitsWith (refCsd lb ub st)
  start : ∀ r ∈ c.rsds, r.l ≤ lb → lb ≤ r.u → ∀ y ∈ strided lb ub st, r.s ∣ y - r.l →
    r.Meets ⟨lb, ub, st⟩

theorem OwnerClasses.fitsWith {c : Csd} {A B lb ub st : ℤ}
    (hc : OwnerClasses c A B lb ub st) {r : Rsd}
    (hr : r ∈ c.rsds) : r.FitsWith ⟨lb, ub, st⟩ :=
  hc.fit r hr _ (List.mem_singleton_self _)

theorem OwnerClasses.product_inInt {c : Csd} {A B lb ub st : ℤ} (hc : OwnerClasses c A B lb ub st)
    {r : Rsd} (hr : r ∈ c.rsds) : InInt (c.s * st) :=
  Csd.s_of_mem hr ▸ (hc.fitsWith hr).product

theorem Csd.Window.nodup_rsds {c : Csd} {L U : ℤ} (h : c.Window L U) : c.rsds.Nodup := by
  refine List.Nodup.map_on ?_ (h.sorted.imp fun hlt heq => by simp [heq] at hlt)
  rintro ⟨l, u⟩ - ⟨l', u'⟩ - heq
  simp only [Rsd.mk.injEq] at heq
  rw [heq.1, heq.2.1]

theorem Csd.Window.wf {c : Csd} {L U : ℤ} (h : c.Window L U) : c.WF := by
  refine ⟨fun r hr => (h.full r hr).wf, fun r hr r' hr' hd => ?_⟩
  have hf := h.full r hr
  have hf' := h.full r' hr'
  have hl : r'.l = r.l := by
    have h1 := hf.lower
    have h2 := hf.first
    have h3 := hf'.lower
    have h4 := hf'.first
    rw [Csd.s_of_mem hr] at h2
    rw [Csd.s_of_mem hr'] at h4
    have := Int.eq_zero_of_abs_lt_dvd hd (abs_lt.mpr ⟨by omega, by omega⟩)
    omega
  have hu : r'.u = r.u := by
    have h1 := hf.upper
    have h2 := hf.last
    have h3 := hf'.upper
    have h4 := hf'.last
    have hn := hf.normal
    have hn' := hf'.normal
    rw [Csd.s_of_mem hr] at h2 hn
    rw [Csd.s_of_mem hr', hl] at hn'
    rw [Csd.s_of_mem hr'] at h4
    have hd' := dvd_sub hn' hn
    rw [sub_sub_sub_cancel_right] at hd'
    have := Int.eq_zero_of_abs_lt_dvd hd' (abs_lt.mpr ⟨by omega, by omega⟩)
    omega
  have hs : r'.s = r.s := (Csd.s_of_mem hr').trans (Csd.s_of_mem hr).symm
  cases r
  cases r'
  simp_all

theorem refCsd_wf {lb ub st : ℤ} (hst : 0 < st) (hlu : lb ≤ ub) : (refCsd lb ub st).WF := by
  constructor
  · intro r hr
    rw [refCsd_rsds, List.mem_singleton] at hr
    exact hr ▸ ⟨hst, hlu⟩
  · simp [refCsd_rsds]

section

variable {c : Csd} {A B lb ub st : ℤ}

theorem mem_ownerRef_rsds (hst : 0 < st) (hlu : lb ≤ ub) (hc : OwnerClasses c A B lb ub st)
    {r0 : Rsd} (h0 : r0 ∈ (sortedCsd (crossHits c (refCsd lb ub st))).rsds) :
    ∃ r ∈ c.rsds, intersectionRsds (some r) (some ⟨lb, ub, st⟩) = some r0 ∧
      IsIntersection r ⟨lb, ub, st⟩ r0 ∧ (r.Meets ⟨lb, ub, st⟩ ∨ IsStrayHit r lb ub st r0) := by
  rw [mem_sortedCsd_rsds (crossHits_stride hc.wf (refCsd_wf hst hlu) hc.fit)] at h0
  obtain ⟨r, hr, r2, hr2, h⟩ := mem_crossHits.mp h0
  rw [refCsd_rsds, List.mem_singleton] at hr2
  subst hr2
  exact ⟨r, hr, h, intersectionRsds_isIntersection (hc.wf.comp r hr) ⟨hst, hlu⟩ (hc.fitsWith hr) h,
    intersectionRsds_ref hst hlu (hc.wf.comp r hr) (hc.fitsWith hr) (hc.start r hr) h⟩

/-- Conversely a class that meets the reference, or on which the search runs past its end,
leaves a component. -/
theorem exists_mem_ownerRef_rsds (hst : 0 < st) (hlu : lb ≤ ub) (hc : OwnerClasses c A B lb ub st)
    {r : Rsd} (hr : r ∈ c.rsds) (h : r.Meets ⟨lb, ub, st⟩ ∨ r.Phantom ⟨lb, ub, st⟩) :
    ∃ r0 ∈ (sortedCsd (crossHits c (refCsd lb ub st))).rsds,
      intersectionRsds (some r) (some ⟨lb, ub, st⟩) = some r0 := by
  have href : Rsd.WF ⟨lb, ub, st⟩ := ⟨hst, hlu⟩
  cases h0 : intersectionRsds (some r) (some ⟨lb, ub, st⟩) with
  | none =>
    exact absurd h ((intersectionRsds_eq_none_iff (hc.wf.comp r hr) href (hc.fitsWith hr)).mp h0)
  | some r0 =>
    refine ⟨r0, ?_, rfl⟩
    rw [mem_sortedCsd_rsds (crossHits_stride hc.wf (refCsd_wf hst hlu) hc.fit)]
    exact mem_crossHits.mpr ⟨r, hr, _, List.mem_singleton_self _, h0⟩

theorem OwnerClasses.mem_of_dvd (hc : OwnerClasses c A B lb ub st) {r : Rsd} (hr : r ∈ c.rsds)
    {x y : ℤ} (hx : x ∈ r.elems) (hy : y ∈ c.elems) (hd : c.s ∣ x - y) : y ∈ r.elems := by
  obtain ⟨r', hr', hy⟩ := hy
  have hrr : r' = r := by
    refine hc.wf.residue r hr r' hr' ?_
    have h1 := hx.2.2
    have h2 := hy.2.2
    rw [Csd.s_of_mem hr] at h1
    rw [Csd.s_of_mem hr'] at h2
    have := dvd_sub (dvd_sub h1 h2) hd
    rwa [show x - r.l - (y - r'.l) - (x - y) = r'.l - r.l by ring] at this
  exact hrr ▸ hy

theorem IsStrayHit.stray (hst : 0 < st) (hc : OwnerClasses c A B lb ub st) {r r0 : Rsd}
    (hr : r ∈ c.rsds) (h : IsStrayHit r lb ub st r0) {k : ℤ} (hk : r0.l = lb + k * st) :
    Stray c.elems c.s lb ub st k := by
  have hmem : lb + k * st ∈ r.elems := hk ▸ h.hit.mem
  have hfirst : r.l ∈ r.elems := left_mem_strided (hc.wf.comp r hr).le
  have hres : c.s ∣ lb + k * st - r.l := Csd.s_of_mem hr ▸ hmem.2.2
  have hpast := h.past
  refine ⟨?_, ⟨r, hr, hmem⟩, ⟨r.l, ⟨r, hr, hfirst⟩, hres, h.inside⟩, fun x hx hd => ?_,
    fun k' hk0 hlt hx hd => ?_⟩
  · by_contra hc'
    have := (position_le_iff hst).mp (not_lt.mp hc')
    omega
  · have := (hc.mem_of_dvd hr hmem hx hd).1
    have := h.start
    omega
  · have hmem' := hc.mem_of_dvd hr hmem hx hd
    have hle := h.hit.least _ hmem' (by simp)
    rw [hk, scale_le_scale hst] at hle
    omega

theorem Stray.exists_mem (hst : 0 < st) (hlu : lb ≤ ub) (hc : OwnerClasses c A B lb ub st) {k : ℤ}
    (h : Stray c.elems c.s lb ub st k) :
    lb + k * st ∈ (sortedCsd (crossHits c (refCsd lb ub st))).elems := by
  obtain ⟨r, hr, hmem⟩ := h.mem
  have hres : c.s ∣ lb + k * st - r.l := Csd.s_of_mem hr ▸ hmem.2.2
  have hstart := h.after r.l ⟨r, hr, left_mem_strided (hc.wf.comp r hr).le⟩ hres
  obtain ⟨x, hxS, hxd, hxu⟩ := h.inside
  have hxr := hc.mem_of_dvd hr hmem hxS hxd
  have hinside : r.l ≤ ub := hxr.1.trans hxu
  have hleast : ∀ j ∈ r.elems, st ∣ j - lb → lb + k * st ≤ j := by
    intro j hj hd
    obtain ⟨k', rfl⟩ := exists_position hd
    by_contra hlt
    have hlt' := (scale_lt_scale hst).mp (not_le.mp hlt)
    have h0 : 0 ≤ k' := by
      have : lb + 0 * st ≤ lb + k' * st := by
        have := hj.1
        omega
      exact (scale_le_scale hst).mp this
    refine h.least k' h0 hlt' ⟨r, hr, hj⟩ ?_
    rw [← Csd.s_of_mem hr]
    exact dvd_sub_of_mem hmem hj
  have hpast : ub < lb + k * st := by
    by_contra hc'
    have := (position_le_iff hst).mpr (not_lt.mp hc')
    have := h.past
    omega
  have hm : ¬ r.Meets ⟨lb, ub, st⟩ := by
    rintro ⟨y, hy1, hy2⟩
    have := hleast y hy1 hy2.2.2
    have := hy2.2.1
    dsimp only at this
    omega
  have hph : r.Phantom ⟨lb, ub, st⟩ :=
    ⟨hm, Or.inr ⟨hstart, hinside, lb + k * st, hmem, by simp⟩⟩
  obtain ⟨r0, hr0, hrun⟩ := exists_mem_ownerRef_rsds hst hlu hc hr (Or.inr hph)
  have hhit : IsStrayHit r lb ub st r0 :=
    (intersectionRsds_ref hst hlu (hc.wf.comp r hr) (hc.fitsWith hr) (hc.start r hr)
      hrun).resolve_left hm
  have heq : r0.l = lb + k * st :=
    le_antisymm (hhit.hit.least _ hmem (by simp)) (hleast _ hhit.hit.mem hhit.hit.congr)
  exact ⟨r0, hr0, heq ▸ left_mem_strided (le_of_eq hhit.point.symm)⟩

theorem ownerRef_elems (hst : 0 < st) (hlu : lb ≤ ub) (hc : OwnerClasses c A B lb ub st) (k : ℤ) :
    lb + k * st ∈ (sortedCsd (crossHits c (refCsd lb ub st))).elems ↔
      k ∈ reach c.elems c.s lb ub st := by
  constructor
  · rintro ⟨r0, hr0, hk⟩
    obtain ⟨r, hr, -, hi, hm | hs⟩ := mem_ownerRef_rsds hst hlu hc hr0
    · rw [hi.meets hm] at hk
      obtain ⟨h0, h1⟩ := (mem_strided_position hst).mp hk.2
      exact Or.inl ⟨h0, h1, r, hr, hk.1⟩
    · refine Or.inr (hs.stray hst hc hr ?_)
      have h1 := hk.1
      have h2 := hk.2.1
      rw [hs.point] at h2
      omega
  · rintro (⟨h0, h1, r, hr, hk⟩ | hs)
    · have hmem : lb + k * st ∈ strided lb ub st := (mem_strided_position hst).mpr ⟨h0, h1⟩
      have hm : r.Meets ⟨lb, ub, st⟩ := ⟨_, hk, hmem⟩
      obtain ⟨r0, hr0, hrun⟩ := exists_mem_ownerRef_rsds hst hlu hc hr (Or.inl hm)
      refine ⟨r0, hr0, ?_⟩
      rw [(intersectionRsds_isIntersection (hc.wf.comp r hr) ⟨hst, hlu⟩ (hc.fitsWith hr)
        hrun).meets hm]
      exact ⟨hk, hmem⟩
    · exact hs.exists_mem hst hlu hc

/-- The components of the result lie in the residue class of the reference. -/
theorem ownerRef_exists_scale (hst : 0 < st) (hlu : lb ≤ ub) (hc : OwnerClasses c A B lb ub st) :
    ∃ K : Csd, sortedCsd (crossHits c (refCsd lb ub st)) = K.scale lb st := by
  have hstride := crossHits_stride hc.wf (refCsd_wf hst hlu) hc.fit
  have hdvd : ∀ r0 ∈ (sortedCsd (crossHits c (refCsd lb ub st))).rsds, st ∣ r0.s := by
    intro r0 h0
    obtain ⟨r, hr, -, hi, -⟩ := mem_ownerRef_rsds hst hlu hc h0
    exact hi.dvd₂
  refine Csd.exists_scale ?_ fun p hp => ?_
  · cases hits : crossHits c (refCsd lb ub st) with
    | nil => exact dvd_zero st
    | cons r0 hits' =>
      have h0 : r0 ∈ (sortedCsd (crossHits c (refCsd lb ub st))).rsds := by
        rw [mem_sortedCsd_rsds hstride, hits]
        exact List.mem_cons_self
      rw [← hits, ← Csd.s_of_mem h0]
      exact hdvd r0 h0
  · obtain ⟨r, hr, hrun, hi, -⟩ := mem_ownerRef_rsds hst hlu hc (Csd.mem_rsds hp)
    have hn := intersectionRsds_normal hrun
    have hl := hi.congr₂
    have hu := (hdvd _ (Csd.mem_rsds hp)).trans hn
    refine ⟨hl, ?_⟩
    have := dvd_add hu hl
    rwa [sub_add_sub_cancel] at this

end

/-! ## Positions of the owned part -/

/-- A descriptor of positions of a reference with last position `m`: whole classes of
`L, …, U` and strays. Either the range is cut at `m`, or positions are not skipped. -/
structure PositionShape (m L U : ℤ) (K : Csd) : Prop where
  wf : K.WF
  sorted : K.comps.Pairwise fun p q => p.1 < q.1
  comp : ∀ r ∈ K.rsds, r.Full L U ∨ m < r.l ∧ r.u = r.l
  upper : U ≤ m
  kind : U = m ∨ ∀ r ∈ K.rsds, r.s = 1

/-- Positions in different components are those of elements that differ modulo `period`. -/
def ClassesApart (period st : ℤ) (K : Csd) : Prop :=
  ∀ r ∈ K.rsds, ∀ r' ∈ K.rsds, ∀ k ∈ r.elems, ∀ k' ∈ r'.elems, period ∣ (k - k') * st ↔ r = r'

/-- `D` describes the positions `R` of a reference, up to the difference between no
descriptor and an empty one. -/
def IsRefSection (lb st m period : ℤ) (R : Set ℤ) (D : Option Csd) : Prop :=
  ∃ K L U, PositionShape m L U K ∧ ClassesApart period st K ∧ K.elems = R ∧
    (∀ r ∈ K.rsds, r.s ≤ period) ∧ (D = some (K.scale lb st) ∨ D = none ∧ K.comps = [])

theorem isRefSection_empty {lb st m period : ℤ} {R : Set ℤ} (hR : ∀ k, k ∉ R) {D : Option Csd}
    (hD : D = some ⟨[], 0⟩ ∨ D = none) : IsRefSection lb st m period R D := by
  refine ⟨⟨[], 0⟩, 0, m, ⟨⟨by simp [Csd.rsds], by simp [Csd.rsds]⟩, List.Pairwise.nil,
    by simp [Csd.rsds], le_rfl, Or.inl rfl⟩, by simp [ClassesApart, Csd.rsds], ?_,
    by simp [Csd.rsds], ?_⟩
  · rw [Set.eq_empty_of_forall_notMem hR]
    simp [Csd.elems, Csd.rsds]
  · rcases hD with rfl | rfl
    · exact Or.inl (by simp [Csd.scale])
    · exact Or.inr ⟨rfl, rfl⟩

section

variable {c K : Csd} {A B lb ub st : ℤ}

theorem lastPosition_nonneg (hst : 0 < st) (hlu : lb ≤ ub) : 0 ≤ lastPosition lb ub st :=
  (position_le_iff hst).mpr (by omega)

/-- A component without strays is a whole class of the owned range cut at the reference. -/
theorem ownerRef_full (hst : 0 < st) (hlu : lb ≤ ub) (hc : OwnerClasses c A B lb ub st)
    {r r0 : Rsd} (hr : r ∈ c.rsds) (hrun : intersectionRsds (some r) (some ⟨lb, ub, st⟩) = some r0)
    (hi : IsIntersection r ⟨lb, ub, st⟩ r0) (hm : r.Meets ⟨lb, ub, st⟩) :
    r0.Full (max A lb) (min B (lb + lastPosition lb ub st * st)) := by
  have hm0 := lastPosition_nonneg hst hlu
  have helems : Rsd.elems ⟨lb, lb + lastPosition lb ub st * st, st⟩ = Rsd.elems ⟨lb, ub, st⟩ :=
    strided_lastPosition hst
  have hfull : Rsd.Full ⟨lb, lb + lastPosition lb ub st * st, st⟩ lb
      (lb + lastPosition lb ub st * st) := by
    have hnn : 0 ≤ lastPosition lb ub st * st := mul_nonneg hm0 hst.le
    exact ⟨⟨hst, by dsimp only; omega⟩, by simp, le_rfl, by dsimp only; omega, le_rfl,
      by dsimp only; omega⟩
  have hm' : r.Meets ⟨lb, lb + lastPosition lb ub st * st, st⟩ := by
    obtain ⟨x, hx1, hx2⟩ := hm
    exact ⟨x, hx1, helems.symm ▸ hx2⟩
  have hi' : IsIntersection r ⟨lb, lb + lastPosition lb ub st * st, st⟩ r0 :=
    ⟨hi.wf, hi.stride, hi.dvd₁, hi.dvd₂, hi.congr₁, hi.congr₂, fun _ => helems.symm ▸ hi.meets hm,
      fun hn => absurd hm' hn⟩
  exact (hc.window.full r hr).inter hfull hi' hm' (intersectionRsds_normal hrun)

theorem ownerRef_classesApart (hst : 0 < st) (hlu : lb ≤ ub) (hc : OwnerClasses c A B lb ub st)
    (hK : sortedCsd (crossHits c (refCsd lb ub st)) = K.scale lb st) :
    ClassesApart c.s st K := by
  intro r hr r' hr' k hk k' hk'
  have hmem := @Rsd.mem_rsds_scale lb st r K hr
  have hmem' := @Rsd.mem_rsds_scale lb st r' K hr'
  rw [← hK] at hmem hmem'
  obtain ⟨o, ho, hrun, hi, -⟩ := mem_ownerRef_rsds hst hlu hc hmem
  obtain ⟨o', ho', hrun', hi', -⟩ := mem_ownerRef_rsds hst hlu hc hmem'
  have hso := Csd.s_of_mem ho
  have hso' := Csd.s_of_mem ho'
  -- Modulo the period both elements are congruent to the owned classes they come from.
  have hres : ∀ {q o1 : Rsd} {j : ℤ}, o1 ∈ c.rsds → IsIntersection o1 ⟨lb, ub, st⟩ (q.scale lb st) →
      j ∈ q.elems → c.s ∣ lb + j * st - o1.l := by
    intro q o1 j ho1 hi1 hj
    have h1 := hi1.congr₁
    have h2 : o1.s ∣ (q.scale lb st).s := hi1.dvd₁
    have h3 := ((Rsd.mem_scale_position hst).mpr hj : lb + j * st ∈ (q.scale lb st).elems).2.2
    rw [← Csd.s_of_mem ho1]
    have := dvd_add (h2.trans h3) h1
    rwa [sub_add_sub_cancel] at this
  have hk1 := hres ho hi hk
  have hk2 := hres ho' hi' hk'
  constructor
  · intro hd
    have hoo : o' = o := by
      refine hc.wf.residue o ho o' ho' ?_
      have := dvd_sub (dvd_sub hk1 hk2) hd
      rwa [show lb + k * st - o.l - (lb + k' * st - o'.l) - (k - k') * st = o'.l - o.l by ring]
        at this
    subst hoo
    rw [hrun] at hrun'
    exact Rsd.scale_injective hst (Option.some.inj hrun')
  · rintro rfl
    have hoo : o' = o := by
      have hl : c.s ∣ o'.l - o.l := by
        have h1 := hi.congr₁
        have h2 := hi'.congr₁
        rw [hso] at h1
        rw [hso'] at h2
        have := dvd_sub h1 h2
        rwa [sub_sub_sub_cancel_left] at this
      exact hc.wf.residue o ho o' ho' hl
    subst hoo
    have := dvd_sub hk1 hk2
    rwa [show lb + k * st - o'.l - (lb + k' * st - o'.l) = (k - k') * st by ring] at this

theorem ownerRef_comp (hst : 0 < st) (hlu : lb ≤ ub) (hc : OwnerClasses c A B lb ub st)
    (hK : sortedCsd (crossHits c (refCsd lb ub st)) = K.scale lb st) {r : Rsd} (hr : r ∈ K.rsds) :
    ((r.scale lb st).Full (max A lb) (min B (lb + lastPosition lb ub st * st)) ∨
      lastPosition lb ub st < r.l ∧ r.u = r.l) ∧ (r.scale lb st).s = lcm c.s st := by
  have hmem := @Rsd.mem_rsds_scale lb st r K hr
  rw [← hK] at hmem
  obtain ⟨o, ho, hrun, hi, hm | hs⟩ := mem_ownerRef_rsds hst hlu hc hmem
  · exact ⟨Or.inl (ownerRef_full hst hlu hc ho hrun hi hm), by rw [hi.stride, Csd.s_of_mem ho]⟩
  · refine ⟨Or.inr ⟨(hs.stray hst hc ho rfl).past, ?_⟩, by rw [hi.stride, Csd.s_of_mem ho]⟩
    have := hs.point
    dsimp only [Rsd.scale] at this
    exact mul_right_cancel₀ hst.ne' (by linarith)

theorem ownerRef_stride_le (hst : 0 < st) (hlu : lb ≤ ub) (hc : OwnerClasses c A B lb ub st)
    (hK : sortedCsd (crossHits c (refCsd lb ub st)) = K.scale lb st) {r : Rsd} (hr : r ∈ K.rsds) :
    r.s ≤ c.s := by
  obtain ⟨o, ho, -⟩ := mem_ownerRef_rsds hst hlu hc (hK ▸ @Rsd.mem_rsds_scale lb st r K hr)
  have hpos : 0 < c.s := Csd.s_of_mem ho ▸ (hc.wf.comp o ho).pos
  have hlcm : r.s * st = lcm c.s st := (ownerRef_comp hst hlu hc hK hr).2
  have hle := Int.le_of_dvd (mul_pos hpos hst) ((lcm_dvd_iff hst (hc.product_inInt ho)).mpr
    ⟨dvd_mul_right _ _, dvd_mul_left _ _⟩)
  rw [← hlcm] at hle
  exact le_of_mul_le_mul_right hle hst

theorem ownerRef_isRefSection (hst : 0 < st) (hlu : lb ≤ ub) (hc : OwnerClasses c A B lb ub st)
    (hcase : A ≤ lb ∧ lb + lastPosition lb ub st * st ≤ B ∨ c.n ≤ 1 ∧ c.s = 1) :
    IsRefSection lb st (lastPosition lb ub st) c.s (reach c.elems c.s lb ub st)
      (some (sortedCsd (crossHits c (refCsd lb ub st)))) := by
  obtain ⟨K, hK⟩ := ownerRef_exists_scale hst hlu hc
  have hwf : K.WF := Csd.wf_of_scale hst (hK ▸ sortedCsd_wf hc.wf (refCsd_wf hst hlu) hc.fit)
  have hsorted : K.comps.Pairwise fun p q => p.1 < q.1 := by
    rw [← @Csd.pairwise_lt_scale lb st K hst, ← hK]
    exact sortedCsd_pairwise_lt hc.wf (refCsd_wf hst hlu) hc.fit hc.window.nodup_rsds
      (by simp [refCsd_rsds])
  have helems : K.elems = reach c.elems c.s lb ub st := by
    ext k
    rw [← ownerRef_elems hst hlu hc, hK, Csd.mem_scale hst]
    constructor
    · intro hk
      exact ⟨k, hk, rfl⟩
    · rintro ⟨k', hk', heq⟩
      have : k = k' := mul_right_cancel₀ hst.ne' (by linarith)
      exact this ▸ hk'
  suffices h : ∃ L U, PositionShape (lastPosition lb ub st) L U K by
    obtain ⟨L, U, hshape⟩ := h
    exact ⟨K, L, U, hshape, ownerRef_classesApart hst hlu hc hK, helems,
      fun r hr => ownerRef_stride_le hst hlu hc hK hr, Or.inl (by rw [hK])⟩
  rcases hcase with ⟨hA, hB⟩ | ⟨hn, hs⟩
  · refine ⟨0, lastPosition lb ub st, hwf, hsorted, fun r hr => ?_, le_rfl, Or.inl rfl⟩
    obtain ⟨hfull | hstray, -⟩ := ownerRef_comp hst hlu hc hK hr
    · rw [max_eq_right hA, min_eq_right hB] at hfull
      refine Or.inl (Rsd.Full.of_scale hst (?_ : (r.scale lb st).Full (lb + 0 * st) _))
      simpa using hfull
    · exact Or.inr hstray
  · -- A single class: its own bounds are the range.
    have hle : K.comps.length ≤ 1 := by
      have h1 := length_crossHits_le c (refCsd lb ub st)
      have h2 : (sortedCsd (crossHits c (refCsd lb ub st))).comps.length =
          (crossHits c (refCsd lb ub st)).length := by
        have hperm := (perm_foldl_orderedInsert (crossHits c (refCsd lb ub st)) []).length_eq
        simpa [sortedCsd] using hperm
      have h3 : (refCsd lb ub st).n = 1 := rfl
      rw [hK, Csd.scale, List.length_map] at h2
      rw [h3, mul_one] at h1
      omega
    rcases hcomps : K.comps with _ | ⟨p, _ | ⟨q, l⟩⟩
    · exact ⟨0, lastPosition lb ub st, hwf, hsorted, by simp [Csd.rsds, hcomps], le_rfl, Or.inl rfl⟩
    · have hrsds : ∀ r ∈ K.rsds, r = ⟨p.1, p.2, K.s⟩ := by simp [Csd.rsds, hcomps]
      have hp : (⟨p.1, p.2, K.s⟩ : Rsd) ∈ K.rsds := by simp [Csd.rsds, hcomps]
      obtain ⟨hfull | hstray, hlcm⟩ := ownerRef_comp hst hlu hc hK hp
      · have hs1 : K.s = 1 := by
          obtain ⟨o, ho, -⟩ := mem_ownerRef_rsds hst hlu hc (hK ▸ @Rsd.mem_rsds_scale lb st _ K hp)
          have hprod := hc.product_inInt ho
          rw [hs] at hprod
          rw [hs, lcm_eq one_pos hst hprod] at hlcm
          have : K.s * st = 1 * st := by
            rw [one_mul]
            simpa [Rsd.scale, abs_of_pos hst] using hlcm
          exact mul_right_cancel₀ hst.ne' this
        have hupper : p.2 ≤ lastPosition lb ub st :=
          (scale_le_scale hst).mp (hfull.upper.trans (min_le_right _ _))
        refine ⟨p.1, p.2, hwf, hsorted, fun r hr => Or.inl ?_, hupper, Or.inr fun r hr => ?_⟩
        · rw [hrsds r hr]
          exact ⟨hwf.comp _ hp, by simp [hs1], le_rfl, by simp [hs1], le_rfl, by simp [hs1]⟩
        · rw [hrsds r hr, hs1]
      · refine ⟨0, lastPosition lb ub st, hwf, hsorted, fun r hr => Or.inr ?_, le_rfl, Or.inl rfl⟩
        rw [hrsds r hr]
        exact hstray
    · rw [hcomps] at hle
      simp at hle

end

/-! ## An owned section against a reference -/

theorem loopValues_of_le {init cond step : ℤ} (hs : 0 < step) (h : cond ≤ init) :
    loopValues init cond step = [] := by
  refine List.eq_nil_iff_forall_not_mem.mpr fun x hx => ?_
  have := (mem_loopValues_of_pos hs x).mp hx
  omega

theorem intersectionRsds_of_empty {r1 r2 : Rsd} (h1 : 0 < r1.s) (h2 : 0 < r2.s)
    (h : r1.u < r1.l ∨ r2.u < r2.l) : intersectionRsds (some r1) (some r2) = none := by
  have key : ∀ {a b : Rsd}, 0 < b.s → a.l ≤ b.l → a.u < a.l ∨ b.u < b.l →
      intersectionOrdered a b = none := by
    intro a b hb hle h
    unfold intersectionOrdered
    split_ifs with hstart
    · rw [loopValues_of_le hb (by omega)]
      rfl
    · rfl
  rw [intersectionRsds_some]
  split_ifs with hle
  · exact key h2 hle h
  · exact key h1 (by omega) h.symm

theorem sortedCsd_of_empty {c1 c2 : Csd}
    (h : ∀ r1 ∈ c1.rsds, ∀ r2 ∈ c2.rsds, intersectionRsds (some r1) (some r2) = none) :
    sortedCsd (crossHits c1 c2) = ⟨[], 0⟩ := by
  have hnil : crossHits c1 c2 = [] := by
    refine List.eq_nil_iff_forall_not_mem.mpr fun r0 h0 => ?_
    obtain ⟨r1, hr1, r2, hr2, hrun⟩ := mem_crossHits.mp h0
    rw [h r1 hr1 r2 hr2] at hrun
    cases hrun
  rw [hnil]
  rfl

theorem reach_of_empty_ref {S : Set ℤ} {period lb ub st : ℤ} (hst : 0 < st) (h : ub < lb) (k : ℤ) :
    k ∉ reach S period lb ub st := by
  rintro (⟨h0, h1, -⟩ | hs)
  · have := (position_le_iff hst).mp (h0.trans h1)
    omega
  · obtain ⟨x, hx, hd, hle⟩ := hs.inside
    have := hs.after x hx hd
    omega

theorem reach_of_empty {period lb ub st : ℤ} (k : ℤ) : k ∉ reach ∅ period lb ub st := by
  rintro (⟨-, -, h⟩ | hs)
  · exact h
  · exact hs.mem

/-- The intersection of the sections of a dimension with a reference stays inside `int`. -/
structure RefInInt (lower upper period ub st : ℤ) : Prop where
  product : InInt (period * st)
  size : InInt (upper - lower)
  distance : InInt (ub - lower)
  lower : InInt lower
  upper : InInt (upper + period)
  next : InInt (ub + st)

instance (lower upper period ub st : ℤ) : Decidable (RefInInt lower upper period ub st) :=
  decidable_of_iff (InInt (period * st) ∧ InInt (upper - lower) ∧ InInt (ub - lower) ∧
    InInt lower ∧ InInt (upper + period) ∧ InInt (ub + st))
    ⟨fun ⟨h1, h2, h3, h4, h5, h6⟩ => ⟨h1, h2, h3, h4, h5, h6⟩,
      fun ⟨h1, h2, h3, h4, h5, h6⟩ => ⟨h1, h2, h3, h4, h5, h6⟩⟩

theorem RefInInt.fitsWith {lower upper period lb ub st : ℤ} (h : RefInInt lower upper period ub st)
    (hlu : lb ≤ ub) (hlb : lower ≤ lb ∧ lb ≤ upper) {r : Rsd} (hr : r.WF) (hs : r.s = period)
    (hl : lower ≤ r.l) (hu : r.u ≤ upper) : r.FitsWith ⟨lb, ub, st⟩ := by
  obtain ⟨hproduct, ⟨hs0, hs1⟩, ⟨hd0, hd1⟩, ⟨hl0, -⟩, ⟨-, hu1⟩, hnext⟩ := h
  have hpos := hr.pos
  have hle := hr.le
  refine ⟨hs ▸ hproduct, ?_, ?_, ⟨?_, hnext⟩⟩
  · constructor <;> dsimp only <;> omega
  · constructor <;> dsimp only <;> omega
  · constructor <;> omega

theorem IsOwnerSection.ref {lower upper period lb ub st : ℤ} {S : Set ℤ} {oc : Option Csd}
    (h : IsOwnerSection lower upper period S oc) (hS : S ⊆ Set.Icc lower upper)
    (hfit : RefInInt lower upper period ub st) (hst : 0 < st)
    (hin : ∀ x ∈ strided lb ub st, lower ≤ x ∧ x ≤ upper) :
    ∃ D, intersectionCsds oc (rsd2csd (some ⟨lb, ub, st⟩)) = .ok D ∧
      IsRefSection lb st (lastPosition lb ub st) period (reach S period lb ub st) D := by
  have href : rsd2csd (some ⟨lb, ub, st⟩) = some (refCsd lb ub st) := rfl
  have hok : ∀ c, intersectionCsds (some c) (some (refCsd lb ub st)) =
      .ok (some (sortedCsd (crossHits c (refCsd lb ub st)))) := fun c =>
    intersectionCsds_of_le_one c _ le_rfl
  rw [href]
  cases h with
  | null hnull =>
    exact ⟨none, rfl, isRefSection_empty (hnull ▸ reach_of_empty) (Or.inr rfl)⟩
  | @interval a b hab' hp =>
    refine ⟨_, hok _, ?_⟩
    rcases le_or_gt lb ub with hlu | hlu
    · rcases le_or_gt a b with hab | hab
      · have hwin : Csd.Window ⟨[(a, b)], 1⟩ a b := by
          refine ⟨fun r hr => ?_, List.pairwise_singleton _ _⟩
          rw [Csd.rsds, List.map_singleton, List.mem_singleton] at hr
          subst hr
          exact ⟨⟨one_pos, hab⟩, by simp, le_rfl, by simp, le_rfl, by simp⟩
        have helems : Csd.elems ⟨[(a, b)], 1⟩ = S := by
          rw [hab']
          ext x
          simp [Csd.elems, Csd.rsds, Rsd.elems, strided]
        have hc : OwnerClasses ⟨[(a, b)], 1⟩ a b lb ub st := by
          have ha : lower ≤ a := (hS (hab' ▸ Set.left_mem_Icc.mpr hab)).1
          have hb : b ≤ upper := (hS (hab' ▸ Set.right_mem_Icc.mpr hab)).2
          refine ⟨hwin, hwin.wf, fun r hr r2 hr2 => ?_, fun r hr h1 h2 _ _ _ => ?_⟩
          · rw [refCsd_rsds, List.mem_singleton] at hr2
            have hfull := hwin.full r hr
            rw [hr2]
            refine hfit.fitsWith hlu (hin lb (left_mem_strided hlu)) hfull.wf ?_
              (ha.trans hfull.lower) (hfull.upper.trans hb)
            rw [hp, Csd.s_of_mem hr]
          rw [Csd.rsds, List.map_singleton, List.mem_singleton] at hr
          subst hr
          exact ⟨lb, ⟨h1, h2, one_dvd _⟩, left_mem_strided hlu⟩
        have := ownerRef_isRefSection hst hlu hc (Or.inr ⟨le_rfl, rfl⟩)
        rw [helems] at this
        rw [hp]
        exact this
      · rw [sortedCsd_of_empty]
        · refine isRefSection_empty ?_ (Or.inl rfl)
          rw [hab', Set.Icc_eq_empty (by omega)]
          exact reach_of_empty
        · intro r1 h1 r2 h2
          rw [Csd.rsds, List.map_singleton, List.mem_singleton] at h1
          rw [refCsd_rsds, List.mem_singleton] at h2
          subst h1 h2
          exact intersectionRsds_of_empty one_pos hst (Or.inl hab)
    · rw [sortedCsd_of_empty]
      · exact isRefSection_empty (reach_of_empty_ref hst hlu) (Or.inl rfl)
      · intro r1 h1 r2 h2
        rw [Csd.rsds, List.map_singleton, List.mem_singleton] at h1
        rw [refCsd_rsds, List.mem_singleton] at h2
        subst h1 h2
        exact intersectionRsds_of_empty one_pos hst (Or.inr hlu)
  | @classes c helems hp hw =>
    refine ⟨_, hok _, ?_⟩
    rcases le_or_gt lb ub with hlu | hlu
    · have hlb := hin lb (left_mem_strided hlu)
      have hlast := hin (lb + lastPosition lb ub st * st)
        ((mem_strided_position hst).mpr ⟨lastPosition_nonneg hst hlu, le_rfl⟩)
      have hc : OwnerClasses c lower upper lb ub st := by
        refine ⟨hw, hw.wf, fun r hr r2 hr2 => ?_, fun r hr _ _ y hy hd => ?_⟩
        · rw [refCsd_rsds, List.mem_singleton] at hr2
          have hfull := hw.full r hr
          rw [hr2]
          exact hfit.fitsWith hlu hlb hfull.wf (hp r hr) hfull.lower hfull.upper
        exact ⟨y, ((hw.full r hr).mem_iff y).mpr ⟨(hin y hy).1, (hin y hy).2, hd⟩, hy⟩
      have hmain := ownerRef_isRefSection hst hlu hc (Or.inl ⟨hlb.1, hlast.2⟩)
      rcases hcomps : c.comps with _ | ⟨p, l⟩
      · have hrsds : c.rsds = [] := by simp [Csd.rsds, hcomps]
        have hempty : S = ∅ := by
          rw [← helems]
          simp [Csd.elems, hrsds]
        rw [sortedCsd_of_empty (by simp [hrsds])]
        exact isRefSection_empty (hempty ▸ reach_of_empty) (Or.inl rfl)
      · have hmem : (⟨p.1, p.2, c.s⟩ : Rsd) ∈ c.rsds := Csd.mem_rsds (by simp [hcomps])
        rwa [helems, show c.s = period from hp _ hmem] at hmain
    · rw [sortedCsd_of_empty]
      · exact isRefSection_empty (reach_of_empty_ref hst hlu) (Or.inl rfl)
      · intro r1 h1 r2 h2
        rw [refCsd_rsds, List.mem_singleton] at h2
        subst h2
        exact intersectionRsds_of_empty (hw.full r1 h1).wf.pos hst (Or.inr hlu)

end OmniCompiler.Xmp
