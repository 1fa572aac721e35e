import OmniCompiler.Xmp.CommSet

/-!
# Sections in units of a reference

A reference `lb : ub : st` numbers its elements `lb + k * st`. Sections inside its residue
class are images of sections of positions `k`; the predicates on sections do not change
under the passage.
-/
namespace OmniCompiler.Xmp

open MachineInt Progression

/-- The section of indices at the positions of `r`. -/
def Rsd.scale (lb st : ℤ) (r : Rsd) : Rsd := ⟨lb + r.l * st, lb + r.u * st, r.s * st⟩

def Csd.scale (lb st : ℤ) (c : Csd) : Csd :=
  ⟨c.comps.map fun p => (lb + p.1 * st, lb + p.2 * st), c.s * st⟩

section

variable {lb st : ℤ} {r a b : Rsd} {c : Csd} {L U : ℤ}

theorem scale_le_scale (hst : 0 < st) {x y : ℤ} : lb + x * st ≤ lb + y * st ↔ x ≤ y := by
  rw [Int.add_le_add_iff_left, mul_le_mul_iff_of_pos_right hst]

theorem scale_lt_scale (hst : 0 < st) {x y : ℤ} : lb + x * st < lb + y * st ↔ x < y := by
  rw [Int.add_lt_add_iff_left, mul_lt_mul_iff_of_pos_right hst]

theorem scale_dvd_scale (hst : 0 < st) {s x y : ℤ} :
    s * st ∣ lb + x * st - (lb + y * st) ↔ s ∣ x - y := by
  rw [add_sub_add_left_eq_sub, ← sub_mul, mul_dvd_mul_iff_right hst.ne']

theorem Rsd.mem_scale (hst : 0 < st) {x : ℤ} :
    x ∈ (r.scale lb st).elems ↔ ∃ k ∈ r.elems, x = lb + k * st := by
  constructor
  · rintro ⟨h1, h2, t, ht⟩
    dsimp only [scale] at h1 h2 ht
    have hx : x = lb + (r.l + r.s * t) * st := by linarith
    rw [hx] at h1 h2
    exact ⟨r.l + r.s * t, ⟨(scale_le_scale hst).mp h1, (scale_le_scale hst).mp h2, by simp⟩, hx⟩
  · rintro ⟨k, ⟨h1, h2, h3⟩, rfl⟩
    exact ⟨(scale_le_scale hst).mpr h1, (scale_le_scale hst).mpr h2, (scale_dvd_scale hst).mpr h3⟩

theorem Rsd.mem_scale_position (hst : 0 < st) {k : ℤ} :
    lb + k * st ∈ (r.scale lb st).elems ↔ k ∈ r.elems := by
  rw [mem_scale hst]
  constructor
  · rintro ⟨k', hk', heq⟩
    have : k = k' := mul_right_cancel₀ hst.ne' (by linarith)
    exact this ▸ hk'
  · intro hk
    exact ⟨k, hk, rfl⟩

theorem Rsd.WF.scale (hst : 0 < st) (h : r.WF) : (r.scale lb st).WF :=
  ⟨mul_pos h.pos hst, (scale_le_scale hst).mpr h.le⟩

theorem Rsd.Full.scale (hst : 0 < st) (h : r.Full L U) :
    (r.scale lb st).Full (lb + L * st) (lb + U * st) where
  wf := h.wf.scale hst
  normal := (scale_dvd_scale hst).mpr h.normal
  lower := (scale_le_scale hst).mpr h.lower
  first := by
    have := (@scale_lt_scale lb st hst r.l (L + r.s)).mpr h.first
    dsimp only [Rsd.scale]
    linarith
  upper := (scale_le_scale hst).mpr h.upper
  last := by
    have := (@scale_lt_scale lb st hst U (r.u + r.s)).mpr h.last
    dsimp only [Rsd.scale]
    linarith

theorem Rsd.Full.of_scale (hst : 0 < st)
    (h : (r.scale lb st).Full (lb + L * st) (lb + U * st)) : r.Full L U := by
  have hfirst := h.first
  have hlast := h.last
  dsimp only [Rsd.scale] at hfirst hlast
  rw [add_assoc, ← add_mul] at hfirst hlast
  exact ⟨⟨(mul_pos_iff_of_pos_right hst).mp h.wf.pos, (scale_le_scale hst).mp h.wf.le⟩,
    (scale_dvd_scale hst).mp h.normal, (scale_le_scale hst).mp h.lower,
    (scale_lt_scale hst).mp hfirst, (scale_le_scale hst).mp h.upper,
    (scale_lt_scale hst).mp hlast⟩

theorem Rsd.meets_scale (hst : 0 < st) :
    (a.scale lb st).Meets (b.scale lb st) ↔ a.Meets b := by
  constructor
  · rintro ⟨x, ha, hb⟩
    obtain ⟨k, hk, rfl⟩ := (mem_scale hst).mp ha
    exact ⟨k, hk, (mem_scale_position hst).mp hb⟩
  · rintro ⟨k, ha, hb⟩
    exact ⟨lb + k * st, (mem_scale_position hst).mpr ha, (mem_scale_position hst).mpr hb⟩

theorem Rsd.hits_scale (hst : 0 < st) : (a.scale lb st).Hits (b.scale lb st) ↔ a.Hits b := by
  constructor
  · rintro ⟨x, hb, hd⟩
    obtain ⟨k, hk, rfl⟩ := (mem_scale hst).mp hb
    exact ⟨k, hk, (scale_dvd_scale hst).mp hd⟩
  · rintro ⟨k, hb, hd⟩
    exact ⟨lb + k * st, (mem_scale_position hst).mpr hb, (scale_dvd_scale hst).mpr hd⟩

theorem Rsd.phantom_scale (hst : 0 < st) :
    (a.scale lb st).Phantom (b.scale lb st) ↔ a.Phantom b := by
  unfold Phantom
  rw [meets_scale hst, hits_scale hst, hits_scale hst]
  simp only [Rsd.scale, scale_le_scale hst, scale_lt_scale hst]

theorem Csd.rsds_scale : (c.scale lb st).rsds = c.rsds.map (Rsd.scale lb st) := by
  simp [Csd.rsds, Csd.scale, Rsd.scale]

theorem Csd.n_scale : (c.scale lb st).n = c.n := by
  simp [Csd.n, Csd.scale]

theorem Csd.mem_scale (hst : 0 < st) {x : ℤ} :
    x ∈ (c.scale lb st).elems ↔ ∃ k ∈ c.elems, x = lb + k * st := by
  simp only [Csd.elems, Csd.rsds_scale, Set.mem_ofPred_eq, List.mem_map]
  constructor
  · rintro ⟨_, ⟨r, hr, rfl⟩, hx⟩
    obtain ⟨k, hk, rfl⟩ := (Rsd.mem_scale hst).mp hx
    exact ⟨k, ⟨r, hr, hk⟩, rfl⟩
  · rintro ⟨k, ⟨r, hr, hk⟩, rfl⟩
    exact ⟨_, ⟨r, hr, rfl⟩, (Rsd.mem_scale_position hst).mpr hk⟩

theorem Csd.WF.scale (hst : 0 < st) (h : c.WF) : (c.scale lb st).WF := by
  constructor
  · intro r hr
    rw [Csd.rsds_scale] at hr
    obtain ⟨r', hr', rfl⟩ := List.mem_map.mp hr
    exact (h.comp r' hr').scale hst
  · intro r1 hr1 r2 hr2 hd
    rw [Csd.rsds_scale] at hr1 hr2
    obtain ⟨r1', hr1', rfl⟩ := List.mem_map.mp hr1
    obtain ⟨r2', hr2', rfl⟩ := List.mem_map.mp hr2
    rw [h.residue r1' hr1' r2' hr2' ((scale_dvd_scale hst).mp hd)]

theorem Rsd.mem_rsds_scale (hr : r ∈ c.rsds) : r.scale lb st ∈ (c.scale lb st).rsds := by
  rw [Csd.rsds_scale]
  exact List.mem_map_of_mem hr

theorem Rsd.scale_injective (hst : 0 < st) : Function.Injective (Rsd.scale lb st) := by
  intro r r' h
  simp only [Rsd.scale, Rsd.mk.injEq, add_right_inj, mul_left_inj' hst.ne'] at h
  cases r
  cases r'
  simp_all

theorem Csd.wf_of_scale (hst : 0 < st) (h : (c.scale lb st).WF) : c.WF := by
  constructor
  · intro r hr
    have hwf := h.comp _ (Rsd.mem_rsds_scale hr)
    exact ⟨(mul_pos_iff_of_pos_right hst).mp hwf.pos, (scale_le_scale hst).mp hwf.le⟩
  · intro r hr r' hr' hd
    refine Rsd.scale_injective hst
      (h.residue _ (Rsd.mem_rsds_scale hr) _ (Rsd.mem_rsds_scale hr') ?_)
    exact (scale_dvd_scale hst).mpr hd

theorem Csd.pairwise_lt_scale (hst : 0 < st) :
    ((c.scale lb st).comps.Pairwise fun p q => p.1 < q.1) ↔
      c.comps.Pairwise fun p q => p.1 < q.1 := by
  simp only [Csd.scale, List.pairwise_map, scale_lt_scale hst]

/-- A descriptor inside the residue class of the reference has positions. -/
theorem Csd.exists_scale (hs : st ∣ c.s)
    (hc : ∀ p ∈ c.comps, st ∣ p.1 - lb ∧ st ∣ p.2 - lb) : ∃ K : Csd, c = K.scale lb st := by
  refine ⟨⟨c.comps.map fun p => ((p.1 - lb) / st, (p.2 - lb) / st), c.s / st⟩, ?_⟩
  obtain ⟨comps, s⟩ := c
  simp only [Csd.scale, List.map_map, Csd.mk.injEq]
  refine ⟨?_, (Int.ediv_mul_cancel hs).symm⟩
  refine (List.map_id comps).symm.trans (List.map_congr_left fun p hp => ?_)
  obtain ⟨h1, h2⟩ := hc p hp
  simp [Function.comp, Int.ediv_mul_cancel h1, Int.ediv_mul_cancel h2]

theorem meetCount_scale (hst : 0 < st) (c1 c2 : Csd) :
    meetCount (c1.scale lb st) (c2.scale lb st) = meetCount c1 c2 := by
  unfold meetCount
  rw [Csd.rsds_scale, Csd.rsds_scale, List.product, List.product]
  simp only [List.flatMap_map, List.countP_flatMap, List.map_map, Function.comp_def,
    List.countP_map, Rsd.meets_scale hst]

end

end OmniCompiler.Xmp
