import OmniCompiler.Xmp.NodesRank
import OmniCompiler.Xmp.OwnerRefSection

/-!
# Communication lists of a gmove (`xmp_gmove.c`)

For every node `get_owner_ref_csd` computes the owned part of a reference, dimension by
dimension. `get_comm_list` carries the part of the other side over to the own reference and
intersects it with the own part. A dimension with stride `0` is a scalar index.
-/
namespace OmniCompiler.Xmp

open MachineInt ForLoop Progression

variable {k d n : ℕ}

/-- One dimension of a reference: `lb[i]`, `ub[i]` and `st[i]`. -/
structure Triplet where
  lb : ℤ
  ub : ℤ
  st : ℤ
  deriving DecidableEq, Repr

/-- `rsd_ref` of `get_owner_ref_csd`. -/
def Triplet.rsd (t : Triplet) : Rsd := if t.st ≠ 0 then ⟨t.lb, t.ub, t.st⟩ else ⟨t.lb, t.lb, 1⟩

/-- `_XMP_gmv_desc_t` of a global array; `ontoNodes` is the node array of its template. -/
structure GmvDesc (k d n : ℕ) where
  aDesc : XmpArray k d n
  ontoNodes : NodesDesc
  ref : Fin k → Triplet

def reduceCsd (csd : List (Option Csd)) : List (Option Csd) :=
  if csd.any fun c => c.elim true fun c => c.n = 0 then csd.map fun _ => none else csd

/-- The row of `owner_ref_csd` for rank `gmvRank`. -/
def getOwnerRefCsd (gmvNodes : NodesDesc) (desc : GmvDesc k d n) (gmvRank : ℕ) :
    Except String (List (Option Csd)) := do
  match calcCoordOnTargetNodes gmvNodes (calcRankArray gmvNodes gmvRank) desc.ontoNodes with
  | none => .error "_XMP_gmove_1to1: array not allocated on the executing node array"
  | some targetNcoord =>
    let inside := (targetNcoord.zip desc.ontoNodes.sizes).all fun c => c.1 < c.2
    let ownerRefCsd ← (List.finRange k).mapM fun adim => do
      let ownerCsd ← if inside then getOwnerCsd desc.aDesc adim targetNcoord else .ok none
      intersectionCsds ownerCsd (rsd2csd (some (desc.ref adim).rsd))
    .ok (reduceCsd ownerRefCsd)

/-- Carry a section of the reference `t0` over to the reference `t1`. The products are
computed as `int`. -/
def rescaleCsd (t0 t1 : Triplet) (l : Csd) : Csd :=
  ⟨l.comps.map fun p => ((toInt ((p.1 - t0.lb) * t1.st)).tdiv t0.st + t1.lb,
      (toInt ((p.2 - t0.lb) * t1.st)).tdiv t0.st + t1.lb), (toInt (l.s * t1.st)).tdiv t0.st⟩

/-- The loop over the dimensions of the own array. The list of the other side's dimensions
is what lies ahead of `i0`. -/
def commCsds (scalarFlag0 : Bool) :
    List (Triplet × Option Csd) → List (Triplet × Option Csd) → Except String (List (Option Csd))
  | _, [] => .ok []
  | dims0, (t1, ownerRefCsd1) :: dims1 =>
    if t1.st = 0 then do
      let c ← intersectionCsds (some ⟨[(t1.lb, t1.lb)], 1⟩) ownerRefCsd1
      let cs ← commCsds scalarFlag0 dims0 dims1
      .ok (c :: cs)
    else if scalarFlag0 then do
      let c ← intersectionCsds (some ⟨[(t1.lb, t1.ub)], t1.st⟩) ownerRefCsd1
      let cs ← commCsds scalarFlag0 dims0 dims1
      .ok (c :: cs)
    else
      match dims0.dropWhile fun dim0 => dim0.1.st = 0 with
      | [] => .error "_XMP_gmove_1to1: lhs and rhs not conformable"
      | (t0, l) :: rest0 => do
        let c ← intersectionCsds (l.map (rescaleCsd t0 t1)) ownerRefCsd1
        let cs ← commCsds scalarFlag0 rest0 dims1
        .ok (c :: cs)

/-- The row of `comm_set` for one rank of the other side. -/
def getCommList (dims0 dims1 : List (Triplet × Option Csd)) :
    Except String (List (List (ℤ × ℤ))) :=
  let scalarFlag0 := dims0.all fun dim0 => dim0.1.st = 0
  if scalarFlag0 && dims0.any fun dim0 => dim0.2.isNone then .ok (dims1.map fun _ => [])
  else do
    let commCsd ← commCsds scalarFlag0 dims0 dims1
    .ok ((reduceCsd commCsd).map csd2commSet)

def GmvDesc.refs (desc : GmvDesc k d n) : List Triplet := (List.finRange k).map desc.ref

/-- The row that `get_comm_list` computes for sending to rank `q`, as called on rank `p`. -/
def sendCommSet {kl dl nl kr dr nr : ℕ} (gmvNodes : NodesDesc) (lhs : GmvDesc kl dl nl)
    (rhs : GmvDesc kr dr nr) (p q : ℕ) : Except String (List (List (ℤ × ℤ))) := do
  let lhsOwnerRefCsd ← getOwnerRefCsd gmvNodes lhs q
  let rhsOwnerRefCsd ← getOwnerRefCsd gmvNodes rhs p
  getCommList (lhs.refs.zip lhsOwnerRefCsd) (rhs.refs.zip rhsOwnerRefCsd)

/-- The row for receiving from rank `p`, as called on rank `q`. -/
def recvCommSet {kl dl nl kr dr nr : ℕ} (gmvNodes : NodesDesc) (lhs : GmvDesc kl dl nl)
    (rhs : GmvDesc kr dr nr) (q p : ℕ) : Except String (List (List (ℤ × ℤ))) := do
  let lhsOwnerRefCsd ← getOwnerRefCsd gmvNodes lhs q
  let rhsOwnerRefCsd ← getOwnerRefCsd gmvNodes rhs p
  getCommList (rhs.refs.zip rhsOwnerRefCsd) (lhs.refs.zip lhsOwnerRefCsd)

/-! ## Intersecting two sets of positions -/

section Positions

variable {m L0 U0 L1 U1 lb st : ℤ} {K0 K1 : Csd}

/-- No search between two sets of positions of one reference runs past an end. -/
theorem PositionShape.not_phantom (h0 : PositionShape m L0 U0 K0) (h1 : PositionShape m L1 U1 K1)
    {r0 r1 : Rsd} (hr0 : r0 ∈ K0.rsds) (hr1 : r1 ∈ K1.rsds) : ¬ r0.Phantom r1 := by
  have hwf0 := h0.wf.comp r0 hr0
  have hwf1 := h1.wf.comp r1 hr1
  rcases h0.comp r0 hr0 with hf0 | ⟨hs0, hu0⟩
  · rcases h1.comp r1 hr1 with hf1 | ⟨hs1, hu1⟩
    · rcases h0.kind with hU0 | hone0
      · rcases h1.kind with hU1 | hone1
        · rw [hU0] at hf0
          rw [hU1] at hf1
          exact hf0.not_phantom hf1
        · refine Rsd.not_phantom_of_dvd_right hwf0 hwf1 hf0.normal ?_ ?_
          · rw [hone1 r1 hr1]
            exact one_dvd _
          · rw [hone1 r1 hr1]
            exact one_dvd _
      · refine Rsd.not_phantom_of_dvd hwf1 hf1.normal ?_ ?_
        · rw [hone0 r0 hr0]
          exact one_dvd _
        · rw [hone0 r0 hr0]
          exact one_dvd _
    · have := hf0.upper
      have := h0.upper
      rintro ⟨-, ⟨-, hstart, -⟩ | ⟨hlt, -, -⟩⟩
      · omega
      · have := hwf0.le
        omega
  · rcases h1.comp r1 hr1 with hf1 | ⟨hs1, hu1⟩
    · have := hf1.upper
      have := h1.upper
      rintro ⟨-, ⟨hle, -, -⟩ | ⟨-, hstart, -⟩⟩
      · have := hwf1.le
        omega
      · omega
    · rintro ⟨hm, ⟨hle, hstart, -⟩ | ⟨hlt, hstart, -⟩⟩
      · exact hm ⟨r0.l, left_mem_strided hwf0.le,
          (by omega : r1.l = r0.l) ▸ left_mem_strided hwf1.le⟩
      · omega

theorem PositionShape.nodup_rsds (h : PositionShape m L0 U0 K0) : K0.rsds.Nodup := by
  refine List.Nodup.map_on ?_ (h.sorted.imp fun hlt heq => by simp [heq] at hlt)
  rintro ⟨l, u⟩ - ⟨l', u'⟩ - heq
  simp only [Rsd.mk.injEq] at heq
  rw [heq.1, heq.2.1]

theorem not_phantom_scale (hst : 0 < st) (h0 : PositionShape m L0 U0 K0)
    (h1 : PositionShape m L1 U1 K1) :
    ∀ r0 ∈ (K0.scale lb st).rsds, ∀ r1 ∈ (K1.scale lb st).rsds, ¬ r0.Phantom r1 := by
  intro r0 hr0 r1 hr1
  rw [Csd.rsds_scale] at hr0 hr1
  obtain ⟨r0', hr0', rfl⟩ := List.mem_map.mp hr0
  obtain ⟨r1', hr1', rfl⟩ := List.mem_map.mp hr1
  rw [Rsd.phantom_scale hst]
  exact h0.not_phantom h1 hr0' hr1'

/-- `C` describes the elements at the positions `P` of a reference with last position `m`.
Without positions past `m` its components are whole classes; one past `m` is a component of
its own. -/
structure IsCommSection (lb st m : ℤ) (P : Set ℤ) (C : Csd) : Prop where
  mem_iff : ∀ x, x ∈ C.elems ↔ ∃ k ∈ P, x = lb + k * st
  nil_iff : C.comps = [] ↔ ∀ k, k ∉ P
  sorted : C.comps.Pairwise fun p q => p.1 < q.1
  wf : ∀ r ∈ C.rsds, r.WF
  window : (∀ k ∈ P, k ≤ m) → ∃ L U, C.Window L U
  past : ∀ k ∈ P, m < k → ∃ p ∈ C.comps, p.1 = lb + k * st

/-- What the loops over both sets of components produce when nothing is stored past the
end of the array. -/
def meetCsd (lb st : ℤ) (K0 K1 : Csd) : Csd :=
  sortedCsd (crossHits (K0.scale lb st) (K1.scale lb st))

theorem PositionShape.point (h : PositionShape m L0 U0 K0) {r : Rsd} (hr : r ∈ K0.rsds) {k : ℤ}
    (hk : k ∈ r.elems) (hpast : m < k) : r.l = k ∧ r.u = k := by
  have hlow := hk.1
  have hup := hk.2.1
  have hle := h.upper
  rcases h.comp r hr with hfull | ⟨-, hpoint⟩
  · have := hfull.upper
    omega
  · omega

/-- The positions of `K` keep within a distance `width` of the start of a reference with
stride `st`, and their own stride is at most `period`. -/
structure Csd.Spans (K : Csd) (width period st : ℤ) : Prop where
  start : ∀ r ∈ K.rsds, 0 ≤ r.l
  width : ∀ r ∈ K.rsds, r.u * st ≤ width
  stride : ∀ r ∈ K.rsds, r.s ≤ period

/-- No `int` leaves its range when two such sections are intersected in a reference that
starts at `lb`, and when the common elements are listed. -/
structure MeetInInt (lb st width0 period0 width1 period1 : ℤ) : Prop where
  product : InInt (period0 * st * (period1 * st))
  start : InInt lb
  widths : InInt width0 ∧ InInt width1
  ends : InInt (lb + width0 + period0 * st) ∧ InInt (lb + width1 + period1 * st)
  listed : InInt (lb + width1 + period0 * period1 * st)

instance (lb st width0 period0 width1 period1 : ℤ) :
    Decidable (MeetInInt lb st width0 period0 width1 period1) :=
  decidable_of_iff (InInt (period0 * st * (period1 * st)) ∧ InInt lb ∧
    (InInt width0 ∧ InInt width1) ∧
    (InInt (lb + width0 + period0 * st) ∧ InInt (lb + width1 + period1 * st)) ∧
    InInt (lb + width1 + period0 * period1 * st))
    ⟨fun ⟨h1, h2, h3, h4, h5⟩ => ⟨h1, h2, h3, h4, h5⟩,
      fun ⟨h1, h2, h3, h4, h5⟩ => ⟨h1, h2, h3, h4, h5⟩⟩

theorem MeetInInt.fitsWith {width0 period0 width1 period1 : ℤ} (hst : 0 < st)
    (h : MeetInInt lb st width0 period0 width1 period1) (hwf0 : K0.WF) (hwf1 : K1.WF)
    (h0 : K0.Spans width0 period0 st) (h1 : K1.Spans width1 period1 st) :
    (K0.scale lb st).FitsWith (K1.scale lb st) := by
  intro r0 hr0 r1 hr1
  rw [Csd.rsds_scale] at hr0 hr1
  obtain ⟨q0, hq0, rfl⟩ := List.mem_map.mp hr0
  obtain ⟨q1, hq1, rfl⟩ := List.mem_map.mp hr1
  obtain ⟨⟨-, hproduct⟩, ⟨hlb, -⟩, ⟨⟨-, hw0⟩, -, hw1⟩, ⟨⟨-, he0⟩, -, he1⟩, -⟩ := h
  have hs0 : 0 < q0.s * st := mul_pos (hwf0.comp q0 hq0).pos hst
  have hs1 : 0 < q1.s * st := mul_pos (hwf1.comp q1 hq1).pos hst
  have hp0 : q0.s * st ≤ period0 * st := mul_le_mul_of_nonneg_right (h0.stride q0 hq0) hst.le
  have hp1 : q1.s * st ≤ period1 * st := mul_le_mul_of_nonneg_right (h1.stride q1 hq1) hst.le
  have hl0 : 0 ≤ q0.l * st := mul_nonneg (h0.start q0 hq0) hst.le
  have hl1 : 0 ≤ q1.l * st := mul_nonneg (h1.start q1 hq1) hst.le
  have hle0 : q0.l * st ≤ q0.u * st := mul_le_mul_of_nonneg_right (hwf0.comp q0 hq0).le hst.le
  have hle1 : q1.l * st ≤ q1.u * st := mul_le_mul_of_nonneg_right (hwf1.comp q1 hq1).le hst.le
  have hu0 := h0.width q0 hq0
  have hu1 := h1.width q1 hq1
  have hprod : q0.s * st * (q1.s * st) ≤ period0 * st * (period1 * st) :=
    mul_le_mul hp0 hp1 hs1.le (hs0.le.trans hp0)
  have hprod0 : 0 < q0.s * st * (q1.s * st) := mul_pos hs0 hs1
  refine ⟨⟨?_, ?_⟩, ⟨?_, ?_⟩, ⟨?_, ?_⟩, ⟨?_, ?_⟩, ⟨?_, ?_⟩⟩ <;> dsimp only [Rsd.scale] <;> omega

theorem isCommSection_meetCsd (hst : 0 < st) (h0 : PositionShape m L0 U0 K0)
    (h1 : PositionShape m L1 U1 K1) (hfit : (K0.scale lb st).FitsWith (K1.scale lb st)) :
    IsCommSection lb st m (K0.elems ∩ K1.elems) (meetCsd lb st K0 K1) := by
  have hwf0 := @Csd.WF.scale lb st K0 hst h0.wf
  have hwf1 := @Csd.WF.scale lb st K1 hst h1.wf
  have hph := @not_phantom_scale m L0 U0 L1 U1 lb st K0 K1 hst h0 h1
  have hn0 : (K0.scale lb st).rsds.Nodup := by
    rw [Csd.rsds_scale]
    exact h0.nodup_rsds.map (Rsd.scale_injective hst)
  have hn1 : (K1.scale lb st).rsds.Nodup := by
    rw [Csd.rsds_scale]
    exact h1.nodup_rsds.map (Rsd.scale_injective hst)
  have hwf := sortedCsd_wf hwf0 hwf1 hfit
  have helems : ∀ x, x ∈ (meetCsd lb st K0 K1).elems ↔
      ∃ k ∈ K0.elems ∩ K1.elems, x = lb + k * st := by
    intro x
    rw [meetCsd, sortedCsd_elems_eq hwf0 hwf1 hfit hph, Set.mem_inter_iff, Csd.mem_scale hst,
      Csd.mem_scale hst]
    constructor
    · rintro ⟨⟨k, hk, rfl⟩, k', hk', heq⟩
      have : k = k' := mul_right_cancel₀ hst.ne' (by linarith)
      exact ⟨k, ⟨hk, this ▸ hk'⟩, rfl⟩
    · rintro ⟨k, ⟨hk, hk'⟩, rfl⟩
      exact ⟨⟨k, hk, rfl⟩, k, hk', rfl⟩
  refine ⟨helems, ?_, sortedCsd_pairwise_lt hwf0 hwf1 hfit hn0 hn1, hwf.comp, fun hle => ?_,
    fun k hk hpast => ?_⟩
  · constructor
    · intro hnil k hk
      have hx := (helems (lb + k * st)).mpr ⟨k, hk, rfl⟩
      simp [Csd.elems, Csd.rsds, hnil] at hx
    · intro hno
      refine List.eq_nil_iff_forall_not_mem.mpr fun p hp => ?_
      have hr := Csd.mem_rsds hp
      obtain ⟨k, hk, -⟩ := (helems p.1).mp ⟨_, hr, left_mem_strided (hwf.comp _ hr).le⟩
      exact hno k hk
  · refine ⟨_, _, sortedCsd_window hwf0 hwf1 hfit hn0 hn1 hph (?_ : MeetFull _ _ (lb + L0 * st)
      (lb + U0 * st) (lb + L1 * st) (lb + U1 * st))⟩
    intro r0 hr0 r1 hr1 hm
    rw [Csd.rsds_scale] at hr0 hr1
    obtain ⟨q0, hq0, rfl⟩ := List.mem_map.mp hr0
    obtain ⟨q1, hq1, rfl⟩ := List.mem_map.mp hr1
    obtain ⟨k, hk0, hk1⟩ := (Rsd.meets_scale hst).mp hm
    have hkm := hle k ⟨⟨q0, hq0, hk0⟩, q1, hq1, hk1⟩
    refine ⟨Rsd.Full.scale hst ?_, Rsd.Full.scale hst ?_⟩
    · refine (h0.comp q0 hq0).resolve_right fun hs => ?_
      have := hk0.1
      omega
    · refine (h1.comp q1 hq1).resolve_right fun hs => ?_
      have := hk1.1
      omega
  · -- The component of the position comes from two single points.
    obtain ⟨r, hr, hx⟩ := (helems (lb + k * st)).mpr ⟨k, hk, rfl⟩
    have hhit := (mem_sortedCsd_rsds (crossHits_stride hwf0 hwf1 hfit) r).mp hr
    obtain ⟨r0, hr0, r1, hr1, hrun⟩ := mem_crossHits.mp hhit
    have hm := meets_of_intersectionRsds (hwf0.comp r0 hr0) (hwf1.comp r1 hr1)
      (hfit r0 hr0 r1 hr1) (hph r0 hr0 r1 hr1) hrun
    have hi := crossHits_isIntersection hwf0 hwf1 hfit hr0 hr1 hrun
    have hl : r.l ∈ r.elems := left_mem_strided hi.wf.le
    rw [hi.meets hm] at hx hl
    have hx0 := hx.1
    have hl0 := hl.1
    rw [Csd.rsds_scale] at hr0
    obtain ⟨q, hq, rfl⟩ := List.mem_map.mp hr0
    obtain ⟨hql, hqu⟩ := h0.point hq ((Rsd.mem_scale_position hst).mp hx0) hpast
    obtain ⟨p, hp, rfl⟩ := List.mem_map.mp hr
    refine ⟨p, hp, ?_⟩
    have hlow := hl0.1
    have hup := hl0.2.1
    dsimp only [Rsd.scale] at hlow hup
    rw [hql] at hlow
    rw [hqu] at hup
    exact le_antisymm hup hlow

theorem intersectionCsds_scale (hst : 0 < st) (h0 : PositionShape m L0 U0 K0)
    (h1 : PositionShape m L1 U1 K1) (hfit : (K0.scale lb st).FitsWith (K1.scale lb st)) :
    intersectionCsds (some (K0.scale lb st)) (some (K1.scale lb st)) =
      if meetCount K0 K1 ≤ max K0.n K1.n then .ok (some (meetCsd lb st K0 K1))
      else .error "component stored past the end of the array" := by
  rw [intersectionCsds_eq, length_crossHits (h0.wf.scale hst) (h1.wf.scale hst) hfit
    (not_phantom_scale hst h0 h1), meetCount_scale hst, Csd.n_scale, Csd.n_scale]
  rfl

end Positions

end OmniCompiler.Xmp
