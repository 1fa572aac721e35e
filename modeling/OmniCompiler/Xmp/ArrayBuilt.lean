import OmniCompiler.Arithmetic.OwnedCount
import OmniCompiler.Xmp.ArrayLayout

/-!
# Allocated sizes of a built array

Every chunk and every dimension of a built descriptor is what one call wrote. The size that is
allocated on a node has room for all elements that the node owns.
-/
namespace OmniCompiler.Xmp

open MachineInt FoldExcept BlockCyclic OwnedCount

variable {k d n : ℕ}

/-! ## The calls behind a descriptor -/

theorem distTemplates_written {t t' : Template d n} {calls : List (DistCall d n)}
    (hnodup : (calls.map DistCall.templateIndex).Nodup) (h : distTemplates t calls = .ok t') :
    ∀ c ∈ calls, ∃ u u' : Template d n, u.info = t.info ∧ u.ontoNodes = t.ontoNodes ∧
      distTemplate u c.templateIndex c.nodesIndex c.fmt = .ok u' ∧
      t'.chunk c.templateIndex = u'.chunk c.templateIndex := by
  have hrun := @foldlM_spec _ _ _ _ _ (fun u : Template d n => u.info = t.info ∧
      u.ontoNodes = t.ontoNodes) (fun c v => ∃ u u' : Template d n, u.info = t.info ∧
        u.ontoNodes = t.ontoNodes ∧ distTemplate u c.templateIndex c.nodesIndex c.fmt = .ok u' ∧
        v.chunk c.templateIndex = u'.chunk c.templateIndex)
        DistCall.templateIndex ?_ ?_ _ hnodup _ _
          ⟨rfl, rfl⟩ h
  · exact hrun.2
  · rintro u c u' ⟨hinfo, hnodes⟩ hu
    have hstep := distTemplate_step hu
    exact ⟨⟨hstep.info.trans hinfo, hstep.ontoNodes.trans hnodes⟩, u, u', hinfo, hnodes, hu, rfl⟩
  · rintro u c u' c' - hu hne ⟨v, v', hinfo, hnodes, hv, hchunk⟩
    have hframe := (distTemplate_step hu).frame _ hne
    exact ⟨v, v', hinfo, hnodes, hv, hframe.trans hchunk⟩

theorem alignInfo_isAllocated {a a' : XmpArray k d n} {i : Fin k} {target : Option (Fin d × ℤ)}
    (h : alignInfo a i target = .ok a') (ha : a'.isAllocated = true) : a.isAllocated = true := by
  have hwith : ∀ {t : Fin d} {sub : ℤ} {manner : AlignManner} {regular : Bool}
      {members : ArrayInfo d × Bool}, alignArrayWith a i t sub manner regular members = .ok a' →
      a.isAllocated = true := by
    intro t sub manner regular members hok
    unfold alignArrayWith at hok
    dsimp only at hok
    split_ifs at hok
    all_goals
      cases hok
      simp only [XmpArray.setInfo, Bool.and_eq_true] at ha
      exact ha.1
  unfold alignInfo at h
  cases target with
  | none =>
    cases h
    exact ha
  | some target =>
    obtain ⟨t, sub⟩ := target
    dsimp only at h
    split_ifs at h
    split at h
    all_goals exact hwith h

theorem alignArray_written {a a' : XmpArray k d n} {target : Fin k → Option (Fin d × ℤ)}
    (h : alignArray a target = .ok a') (i : Fin k) :
    (a'.isAllocated = true → a.isAllocated = true) ∧ ∃ b b' : XmpArray k d n,
      b.alignTemplate = a.alignTemplate ∧ (b.info i).serLower = (a.info i).serLower ∧
      (b.info i).serUpper = (a.info i).serUpper ∧ alignInfo b i (target i) = .ok b' ∧
      a'.info i = b'.info i := by
  have hrun := @foldlM_spec _ _ _ _ _ (fun b : XmpArray k d n => b.alignTemplate = a.alignTemplate ∧
      (∀ i, (b.info i).serLower = (a.info i).serLower ∧ (b.info i).serUpper = (a.info i).serUpper) ∧
      (b.isAllocated = true → a.isAllocated = true))
      (fun i v => ∃ b b' : XmpArray k d n, b.alignTemplate = a.alignTemplate ∧
        (b.info i).serLower = (a.info i).serLower ∧ (b.info i).serUpper = (a.info i).serUpper ∧
        alignInfo b i (target i) = .ok b' ∧ v.info i = b'.info i) (fun i : Fin k => i) ?_ ?_ _
      (by simpa using List.nodup_finRange k) _ _ ⟨rfl, fun _ => ⟨rfl, rfl⟩, id⟩ h
  · exact ⟨hrun.1.2.2, hrun.2 i (List.mem_finRange i)⟩
  · rintro b j b' ⟨ht, hb, halloc⟩ hstep
    have hs := alignInfo_step hstep
    refine ⟨⟨hs.template.trans ht, fun i' => ?_, fun h => halloc (alignInfo_isAllocated hstep h)⟩,
      b, b', ht, (hb j).1, (hb j).2, hstep, rfl⟩
    exact ⟨(hs.bounds i').1.trans (hb i').1, (hs.bounds i').2.trans (hb i').2⟩
  · rintro b j b' i' - hstep hne ⟨v, v', ht, hl, hu, hv, hinfo⟩
    have hframe := (alignInfo_step hstep).frame i' hne
    exact ⟨v, v', ht, hl, hu, hv, hframe.trans hinfo⟩

theorem ArrayDecl.Built.chunk_written {decl : ArrayDecl k d n} {c : decl.Coord} {a : XmpArray k d n}
    (h : decl.Built c a) (t : Fin d) : ∃ u u' : Template d n, u.info t = decl.template t ∧
      u.ontoNodes = decl.nodesAt c ∧
      distTemplate u t (decl.dist t).1 (decl.dist t).2 = .ok u' ∧
      a.alignTemplate.chunk t = u'.chunk t := by
  obtain ⟨t₀, fresh, t', hinfo, -, hdist, halign⟩ := h
  obtain ⟨htempl, -⟩ := alignArray_dims halign
  have hnodup : (decl.calls.map DistCall.templateIndex).Nodup := by
    simpa [ArrayDecl.calls, Function.comp_def] using List.nodup_finRange d
  obtain ⟨u, u', hu, hnodes, hok, hchunk⟩ := distTemplates_written hnodup hdist
    ⟨t, (decl.dist t).1, (decl.dist t).2⟩ (List.mem_map.mpr ⟨t, List.mem_finRange t, rfl⟩)
  refine ⟨u, u', ?_, hnodes, hok, ?_⟩
  · rw [hu, ← hinfo]
    rfl
  · rw [htempl]
    exact hchunk

/-- The call that wrote a dimension of a built descriptor, on a node that holds a part. -/
theorem ArrayDecl.Built.info_written {decl : ArrayDecl k d n} {c : decl.Coord} {a : XmpArray k d n}
    (h : decl.Built c a) (i : Fin k) : (a.isAllocated = true → a.alignTemplate.isOwner = true) ∧
      ∃ b b' : XmpArray k d n, b.alignTemplate = a.alignTemplate ∧
      (b.info i).serLower = decl.lower i ∧ (b.info i).serUpper = decl.upper i ∧
      alignInfo b i (decl.target i) = .ok b' ∧ a.info i = b'.info i := by
  obtain ⟨t₀, fresh, t', -, -, -, halign⟩ := h
  obtain ⟨htempl, -⟩ := alignArray_dims halign
  obtain ⟨halloc, b, b', hb, hl, hu, hok, hinfo⟩ := alignArray_written halign i
  rw [htempl]
  exact ⟨halloc, b, b', hb, hl, hu, hok, hinfo⟩

/-! ## Room for the owned elements -/

theorem modi_eq_emod {v c : ℤ} (hc : 0 < c) : modi v c = v % c := by
  have hlt := Int.tmod_lt_of_pos v hc
  have hgt := Int.lt_tmod_of_pos v hc
  have heq : v.tmod c % c = v % c := by
    rw [Int.tmod_def, mul_comm, Int.sub_mul_emod_self_right]
  unfold modi
  dsimp only
  split_ifs with hneg
  · rw [Int.tmod_eq_emod_of_nonneg (by omega), Int.add_emod_right, heq]
  · rw [← heq, Int.emod_eq_of_lt (by omega) hlt]

theorem count_position {ti : TemplateInfo} {ai : ArrayInfo d} {sub : ℤ} (q : ℤ → Prop)
    [DecidablePred q] : count (fun g => q (g + sub - ti.serLower)) ai.serLower (ai.serUpper + 1) =
      count q (ai.serLower + sub - ti.serLower) (ai.serUpper + sub - ti.serLower + 1) := by
  have hpos : ∀ g : ℤ, g + sub - ti.serLower = g + (sub - ti.serLower) := fun g => by ring
  have hend : ai.serUpper + (sub - ti.serLower) + 1 =
    ai.serUpper + 1 + (sub - ti.serLower) := by ring
  have hshift := @count_shift q _ (sub - ti.serLower) ai.serLower (ai.serUpper + 1)
  simp only [hpos, hend]
  exact hshift

section Cyclic

variable {ti : TemplateInfo} {ai : ArrayInfo d} {chunk : TemplateChunk n} {sub w : ℤ} {P r : ℕ}

theorem blockCyclicInfo_members (hw : 0 < w) (hP : 0 < P) (hwidth : chunk.parWidth = w)
    (hstride : chunk.parStride = P * w) (hround : InInt (P * w)) (hsize : chunk.nodesSize = P)
    (hrank : chunk.nodesRank = r) (hlow : ti.serLower ≤ ai.serLower + sub) {S : ℤ}
    (hS : S = ((ai.serLower + sub - ti.serLower) / w +
      (r - (ai.serLower + sub - ti.serLower) / w) % P) * w - sub + ti.serLower) :
    let dist := toInt (toULL (ai.serUpper - S) / (P * w))
    let last := max ai.serLower S + toInt (dist * (P * w)) + (w - 1)
    let diff := ai.serUpper - last
    (blockCyclicInfo ti ai chunk sub).parLower = max ai.serLower S ∧
      (blockCyclicInfo ti ai chunk sub).parUpper = (if 0 < diff then last else ai.serUpper) ∧
      (blockCyclicInfo ti ai chunk sub).parSize =
        toInt (if 0 < diff then (dist + 1) * w else (dist + 1) * w + diff) := by
  have hP' : (0 : ℤ) < P := by omega
  have hx0 : 0 ≤ ai.serLower + sub - ti.serLower := by omega
  obtain ⟨q, hq⟩ : ∃ q, q = (ai.serLower + sub - ti.serLower) / w := ⟨_, rfl⟩
  have hq0 : 0 ≤ q := hq ▸ Int.ediv_nonneg hx0 hw.le
  have hmod : modi ((r : ℤ) - q.tmod P) P = (r - q) % P := by
    rw [modi_eq_emod hP', Int.tmod_eq_emod_of_nonneg hq0, Int.sub_emod_emod]
  rw [← hq] at hS
  have hstart : ((r : ℤ) - q) % P * w + (ti.serLower + w * q - sub) = S := by
    rw [hS]
    ring
  have hcycle : toULL (P * w) = P * w := by
    have := hround.2
    exact toULL_of_nonneg (mul_pos hP' hw).le (by omega)
  have hnum : 0 ≤ toULL (ai.serUpper - S) := Int.emod_nonneg _ (by norm_num)
  simp only [blockCyclicInfo, hwidth, hstride, hsize, hrank, Int.tdiv_eq_ediv_of_nonneg hx0, ← hq,
    hmod, hstart, hcycle, Int.tdiv_eq_ediv_of_nonneg hnum, and_self]

theorem blockCyclicInfo_members_of_le (hw : 0 < w) (hP : 0 < P) (hwidth : chunk.parWidth = w)
    (hstride : chunk.parStride = P * w) (hround : InInt (P * w)) (hsize : chunk.nodesSize = P)
    (hrank : chunk.nodesRank = r) (hlow : ti.serLower ≤ ai.serLower + sub)
    (hup : ai.serUpper + sub ≤ ti.serUpper) {S : ℤ}
    (hS : S = ((ai.serLower + sub - ti.serLower) / w +
      (r - (ai.serLower + sub - ti.serLower) / w) % P) * w - sub + ti.serLower)
    (hSU : S ≤ ai.serUpper) :
    let dist := (ai.serUpper - S) / (P * w)
    let last := max ai.serLower S + dist * (P * w) + (w - 1)
    let diff := ai.serUpper - last
    (blockCyclicInfo ti ai chunk sub).parLower = max ai.serLower S ∧
      (blockCyclicInfo ti ai chunk sub).parUpper = (if 0 < diff then last else ai.serUpper) ∧
      (blockCyclicInfo ti ai chunk sub).parSize =
        (if 0 < diff then (dist + 1) * w else (dist + 1) * w + diff) := by
  have hP' : (0 : ℤ) < P := by omega
  have hc : 0 < P * w := mul_pos hP' hw
  have hwc : w ≤ P * w := le_mul_of_one_le_left hw.le hP'
  have hround' := hround.2
  obtain ⟨hlower, hupper, hparts⟩ := blockCyclicInfo_members hw hP hwidth hstride hround hsize hrank
    hlow hS
  -- the block starts inside the template
  have hnear : ai.serUpper - S < ti.serSize := by
    have hblock : 0 ≤ (ai.serLower + sub - ti.serLower) / w +
        (r - (ai.serLower + sub - ti.serLower) / w) % P :=
      add_nonneg (Int.ediv_nonneg (by omega) hw.le) (Int.emod_nonneg _ hP'.ne')
    have := mul_nonneg hblock hw.le
    unfold TemplateInfo.serSize
    omega
  have hcut : ai.serLower < S + w := by
    have hm :=
      mul_nonneg (Int.emod_nonneg (r - (ai.serLower + sub - ti.serLower) / w) hP'.ne') hw.le
    have hq := Int.lt_ediv_add_one_mul_self (ai.serLower + sub - ti.serLower) hw
    rw [add_one_mul] at hq
    rw [add_mul] at hS
    omega
  have hT := ti.serSize_lt
  have hdm := Int.emod_add_mul_ediv (ai.serUpper - S) (P * w)
  have he0 := Int.emod_nonneg (ai.serUpper - S) hc.ne'
  have hD0 : 0 ≤ (ai.serUpper - S) / (P * w) := Int.ediv_nonneg (by omega) hc.le
  have hrounds : (ai.serUpper - S) / (P * w) * (P * w) = P * w * ((ai.serUpper - S) / (P * w)) :=
    mul_comm _ _
  have hDc : (ai.serUpper - S) / (P * w) ≤ (ai.serUpper - S) / (P * w) * (P * w) :=
    le_mul_of_one_le_right hD0 (by omega)
  have hDw : (ai.serUpper - S) / (P * w) * w ≤ (ai.serUpper - S) / (P * w) * (P * w) :=
    mul_le_mul_of_nonneg_left hwc hD0
  have hDw0 : 0 ≤ (ai.serUpper - S) / (P * w) * w := mul_nonneg hD0 hw.le
  have hnext : ((ai.serUpper - S) / (P * w) + 1) * w = (ai.serUpper - S) / (P * w) * w + w := by
    ring
  rw [toULL_of_nonneg (by omega) (by omega)] at hupper hparts
  generalize (ai.serUpper - S) / (P * w) = D at *
  generalize (ai.serUpper - S) % (P * w) = e at *
  rw [hrounds] at hDw hDc
  have hD : InInt D := ⟨by omega, by omega⟩
  have hDP : InInt (D * (P * w)) := hrounds ▸ ⟨by omega, by omega⟩
  rw [toInt_of_inInt hD, toInt_of_inInt hDP] at hupper hparts
  refine ⟨hlower, hupper, hparts.trans (toInt_of_inInt ?_)⟩
  rw [hrounds, hnext]
  split_ifs with hdiff
  · constructor <;> omega
  · constructor <;> omega

theorem count_le_blockCyclicInfo (hw : 0 < w) (hr : r < P) (hwidth : chunk.parWidth = w)
    (hstride : chunk.parStride = P * w) (hround : InInt (P * w)) (hsize : chunk.nodesSize = P)
    (hrank : chunk.nodesRank = r) (hlow : ti.serLower ≤ ai.serLower + sub)
    (hup : ai.serUpper + sub ≤ ti.serUpper) {g : ℤ} (hg : ai.serLower ≤ g ∧ g ≤ ai.serUpper)
    (hown : owner w P (g + sub - ti.serLower) = r) :
    count (fun g => owner w P (g + sub - ti.serLower) = r) ai.serLower (ai.serUpper + 1) ≤
      (blockCyclicInfo ti ai chunk sub).allocSize := by
  have hP : (0 : ℤ) < P := by omega
  have hPw : 0 < P * w := mul_pos hP hw
  have hx0 : 0 ≤ ai.serLower + sub - ti.serLower := by omega
  have hfirst := firstBlock_le hw hP
    (show ai.serLower + sub - ti.serLower ≤ g + sub - ti.serLower by omega) hown
  rw [count_position (fun x => owner w P x = r),
    count_owner_from hw hP (by omega) (by omega) (by omega)]
  -- `S` is where the first block of the node starts, as an array index
  obtain ⟨S, hS⟩ : ∃ S, S = ((ai.serLower + sub - ti.serLower) / w +
    (r - (ai.serLower + sub - ti.serLower) / w) % P) * w - sub + ti.serLower := ⟨_, rfl⟩
  obtain ⟨-, -, hparts⟩ := blockCyclicInfo_members_of_le hw (by omega) hwidth hstride hround hsize
    hrank hlow hup hS (by omega)
  change _ ≤ (blockCyclicInfo ti ai chunk sub).parSize
  rw [hparts]
  have hend : ai.serUpper + sub - ti.serLower + 1 - 1 - ((ai.serLower + sub - ti.serLower) / w +
      (r - (ai.serLower + sub - ti.serLower) / w) % P) * w = ai.serUpper - S := by
    rw [hS]
    ring
  have hstart : ai.serLower + sub - ti.serLower - ((ai.serLower + sub - ti.serLower) / w +
      (r - (ai.serLower + sub - ti.serLower) / w) % P) * w = ai.serLower - S := by
    rw [hS]
    ring
  have hdm := Int.emod_add_mul_ediv (ai.serUpper - S) (P * w)
  rw [hend, hstart]
  generalize (ai.serUpper - S) / (P * w) = D at *
  generalize (ai.serUpper - S) % (P * w) = e at *
  have hrounds : D * (P * w) = P * w * D := mul_comm _ _
  have hsize : (D + 1) * w = D * w + w := by ring
  rw [hrounds, hsize]
  split_ifs <;> omega

theorem count_le_cyclicInfo (hr : r < P) (hstride : chunk.parStride = P)
    (hsize : chunk.nodesSize = P)
    (hrank : chunk.nodesRank = r) (hlow : ti.serLower ≤ ai.serLower + sub) {g : ℤ}
    (hg : ai.serLower ≤ g ∧ g ≤ ai.serUpper) (hown : owner 1 P (g + sub - ti.serLower) = r) :
    count (fun g => owner 1 P (g + sub - ti.serLower) = r) ai.serLower (ai.serUpper + 1) ≤
      (cyclicInfo ti ai chunk sub).allocSize := by
  have hP : (0 : ℤ) < P := by omega
  have hx0 : 0 ≤ ai.serLower + sub - ti.serLower := by omega
  have hfirst := firstBlock_le one_pos hP
    (show ai.serLower + sub - ti.serLower ≤ g + sub - ti.serLower by omega) hown
  rw [count_position (fun x => owner 1 P x = r),
    count_owner_from one_pos hP (by omega) (by omega) (by omega)]
  have hmod : modi ((r : ℤ) - (ai.serLower + sub - ti.serLower).tmod P) P =
      (r - (ai.serLower + sub - ti.serLower)) % P := by
    rw [modi_eq_emod hP, Int.tmod_eq_emod_of_nonneg hx0, Int.sub_emod_emod]
  simp only [cyclicInfo, hstride, hsize, hrank, hmod]
  simp only [Int.ediv_one, mul_one] at hfirst ⊢
  obtain ⟨m, hm⟩ : ∃ m, m = ((r : ℤ) - (ai.serLower + sub - ti.serLower)) % P := ⟨_, rfl⟩
  rw [← hm] at hfirst ⊢
  have hm0 : 0 ≤ m := hm ▸ Int.emod_nonneg _ hP.ne'
  have hend : ai.serUpper + sub - ti.serLower + 1 - 1 - (ai.serLower + sub - ti.serLower + m) =
      ai.serUpper - (m + ai.serLower) := by ring
  rw [hend, Int.tdiv_eq_ediv_of_nonneg (by omega)]
  omega

end Cyclic

theorem count_le_contiguousInfo {ti : TemplateInfo} {ai : ArrayInfo d} {chunk : TemplateChunk n}
    {sub L H : ℤ} (hlower : chunk.parLower = L) (hupper : chunk.parUpper = min ti.serUpper (H - 1))
    (hup : ai.serUpper + sub ≤ ti.serUpper) {g : ℤ} (hg : ai.serLower ≤ g ∧ g ≤ ai.serUpper)
    (hown : L ≤ g + sub ∧ g + sub < H) :
    count (fun g => L ≤ g + sub ∧ g + sub < H) ai.serLower (ai.serUpper + 1) ≤
      (contiguousInfo ai chunk sub).1.allocSize := by
  have hshift := @count_shift (fun x => L ≤ x ∧ x < H) _ sub ai.serLower (ai.serUpper + 1)
  have hblock := count_block L H (show ai.serLower + sub ≤ ai.serUpper + 1 + sub by omega)
  rw [hblock] at hshift
  rw [hshift]
  unfold contiguousInfo
  dsimp only
  rw [hlower, hupper]
  rw [if_neg (by omega), if_neg (by omega)]
  simp only [countTriplet, Int.tdiv_one]
  split_ifs <;> omega

namespace ArrayDecl.Built

variable {decl : ArrayDecl k d n} {c : decl.Coord} {a : XmpArray k d n} {t : Fin d}

theorem nodesInfo_eq (h : decl.Built c a) (hfmt : (decl.dist t).2 ≠ .duplication) :
    (a.alignTemplate.chunk t).ontoNodesInfo = some (decl.nodesInfo c t) := by
  obtain ⟨u, u', -, hnodes, hok, hchunk⟩ := h.chunk_written t
  have hni : u.ontoNodes.info (decl.dist t).1 = decl.nodesInfo c t := by rw [hnodes]; rfl
  rw [hchunk, ← hni]
  cases hd : (decl.dist t).2 with
  | duplication => exact absurd hd hfmt
  | block =>
    rw [hd] at hok
    cases hok
    simp [distTemplateBlock]
  | cyclic =>
    rw [hd] at hok
    cases hok
    simp [distTemplateCyclic, distTemplateCyclicWidth]
  | blockCyclic w =>
    rw [hd] at hok
    cases hok
    simp [distTemplateBlockCyclic, distTemplateCyclicWidth]
  | gblock m =>
    rw [hd] at hok
    cases m with
    | none =>
      cases hok
      simp [Template.setChunk]
    | some m =>
      simp only [distTemplate, distTemplateGblock] at hok
      split_ifs at hok
      cases hok
      simp [Template.setChunk]

theorem block_bounds (h : decl.Built c a) (hfmt : (decl.dist t).2 = .block)
    (hr : ((decl.nodesInfo c t).rank : ℤ) *
      ceilDiv (decl.template t).serSize (decl.nodesInfo c t).size < (decl.template t).serSize) :
    (a.alignTemplate.chunk t).parLower = (decl.template t).serLower + (decl.nodesInfo c t).rank *
        ceilDiv (decl.template t).serSize (decl.nodesInfo c t).size ∧
      (a.alignTemplate.chunk t).parUpper = min (decl.template t).serUpper
        ((decl.template t).serLower + ((decl.nodesInfo c t).rank + 1) *
          ceilDiv (decl.template t).serSize (decl.nodesInfo c t).size - 1) := by
  obtain ⟨u, u', hinfo, hnodes, hok, hchunk⟩ := h.chunk_written t
  have hni : u.ontoNodes.info (decl.dist t).1 = decl.nodesInfo c t := by rw [hnodes]; rfl
  have hm : u.ontoNodes.isMember = true := by rw [hnodes]; rfl
  have hw := ceilDiv_pos (decl.template t).serSize_pos (decl.nodesInfo c t).size_pos
  obtain ⟨hflag, hlower, hupper⟩ := blockMembers_spec (decl.template t) (decl.nodesInfo c t) hw
    (u.chunk t).parUpper
  rw [hfmt] at hok
  cases hok
  rw [hchunk]
  simp only [distTemplateBlock, Template.setChunk_chunk, hm, if_true, hinfo, hni]
  exact ⟨hlower, hupper (hflag.mpr hr)⟩

theorem gblock_bounds {m : ℕ → ℤ} (h : decl.Built c a) (hfmt : (decl.dist t).2 = .gblock (some m))
    (hm : m (decl.nodesInfo c t).rank ≠ 0)
    (hr : rsumArray (decl.template t).serLower m (decl.nodesInfo c t).rank ≤
      (decl.template t).serUpper) :
    (a.alignTemplate.chunk t).parLower =
        rsumArray (decl.template t).serLower m (decl.nodesInfo c t).rank ∧
      (a.alignTemplate.chunk t).parUpper = min (decl.template t).serUpper
        (rsumArray (decl.template t).serLower m ((decl.nodesInfo c t).rank + 1) - 1) := by
  obtain ⟨u, u', hinfo, hnodes, hok, hchunk⟩ := h.chunk_written t
  have hni : u.ontoNodes.info (decl.dist t).1 = decl.nodesInfo c t := by rw [hnodes]; rfl
  have hmem : u.ontoNodes.isMember = true := by rw [hnodes]; rfl
  obtain ⟨hflag, hbounds⟩ := gblockMembers_spec (decl.template t) (decl.nodesInfo c t) m
    u.ontoNodes.isMember (u.chunk t).parLower (u.chunk t).parUpper
  rw [hfmt] at hok
  simp only [distTemplate, distTemplateGblock] at hok
  split_ifs at hok
  cases hok
  rw [hchunk]
  simp only [Template.setChunk_chunk, hinfo, hni]
  exact hbounds (hflag.mpr ⟨hmem, hm, hr⟩)

/-- On a node that holds a part of the array, the members are those computed for an owner. -/
theorem alignArrayWith_allocSize {b b' : XmpArray k d n} {i : Fin k} {t : Fin d} {sub : ℤ}
    {manner : AlignManner} {regular : Bool} {members : ArrayInfo d × Bool}
    (ho : b.alignTemplate.isOwner = true)
    (h : alignArrayWith b i t sub manner regular members = .ok b') :
    (b'.info i).allocSize = members.1.allocSize := by
  unfold alignArrayWith at h
  dsimp only at h
  split_ifs at h
  cases h
  simp

/-- A dimension dealt in blocks of `w`; blocks of one element have functions of their own. -/
theorem count_le_of_cyclic {b b' : XmpArray k d n} {i : Fin k} {j : Fin n} {sub w g : ℤ} {P r : ℕ}
    (hw : 0 < w) (hround : InInt (P * w)) (hr : r < P)
    (hrep : CyclicReplicated P j w (b.alignTemplate.chunk t))
    (hsize : (b.alignTemplate.chunk t).nodesSize = P)
    (hrank : (b.alignTemplate.chunk t).nodesRank = r) (ho : b.alignTemplate.isOwner = true)
    (hlow : (b.alignTemplate.info t).serLower ≤ (b.info i).serLower + sub)
    (hup : (b.info i).serUpper + sub ≤ (b.alignTemplate.info t).serUpper)
    (hg : (b.info i).serLower ≤ g ∧ g ≤ (b.info i).serUpper)
    (hown : owner w P (g + sub - (b.alignTemplate.info t).serLower) = r)
    (hok : alignInfo b i (some (t, sub)) = .ok b') :
    count (fun g => owner w P (g + sub - (b.alignTemplate.info t).serLower) = r) (b.info i).serLower
      ((b.info i).serUpper + 1) ≤ (b'.info i).allocSize := by
  obtain ⟨hmanner, -, hwidth, hstride⟩ := hrep
  rw [toInt_of_inInt hround] at hstride
  rw [alignInfo] at hok
  split_ifs at hok
  by_cases hone : w = 1
  · subst hone
    rw [mul_one] at hstride
    rw [hmanner, if_pos rfl] at hok
    rw [alignArrayWith_allocSize ho hok]
    exact count_le_cyclicInfo hr hstride hsize hrank hlow hg hown
  · rw [hmanner, if_neg hone] at hok
    rw [alignArrayWith_allocSize ho hok]
    exact count_le_blockCyclicInfo hw hr hwidth hstride hround hsize hrank hlow hup hg hown

theorem count_le_allocSize (h : decl.Built c a) (ha : a.isAllocated = true) {i : Fin k} {sub : ℤ}
    (htar : decl.target i = some (t, sub)) (hfmt : (decl.dist t).2 ≠ .duplication) {g : ℤ}
    (hg : decl.lower i ≤ g ∧ g ≤ decl.upper i)
    (hown : Owned (decl.template t) (decl.nodesInfo c t) (decl.dist t).2 (g + sub)) :
    count (fun g => Owned (decl.template t) (decl.nodesInfo c t) (decl.dist t).2 (g + sub))
      (decl.lower i) (decl.upper i + 1) ≤ (a.info i).allocSize := by
  obtain ⟨-, -, -, hti, hlow, hup, hrep⟩ := (h.described i).aligned t sub htar
  have hni := h.nodesInfo_eq hfmt
  obtain ⟨howner, b, b', hb, hl, hu, hok, hinfo⟩ := h.info_written i
  have ho : b.alignTemplate.isOwner = true := hb ▸ howner ha
  have hsize : (b.alignTemplate.chunk t).nodesSize = (decl.nodesInfo c t).size := by
    rw [hb, TemplateChunk.nodesSize, hni]
    rfl
  have hrank : (b.alignTemplate.chunk t).nodesRank = (decl.nodesInfo c t).rank := by
    rw [hb, TemplateChunk.nodesRank, hni]
    rfl
  have hr := (decl.nodesInfo c t).rank.isLt
  rw [← hl, ← hu] at hg ⊢
  rw [htar] at hok
  rw [← hb] at hrep hti
  rw [← hl, ← hti] at hlow
  rw [← hu] at hup
  have hup' : (b.info i).serUpper + sub ≤ (b.alignTemplate.info t).serUpper := hti ▸ hup
  rw [hinfo]
  cases hd : (decl.dist t).2 with
  | duplication => exact absurd hd hfmt
  | block =>
    rw [hd] at hrep hown
    rw [alignInfo] at hok
    split_ifs at hok
    rw [hrep.1] at hok
    rw [alignArrayWith_allocSize ho hok]
    have hiff : ∀ g, Owned (decl.template t) (decl.nodesInfo c t) .block (g + sub) ↔
        (decl.template t).serLower + (decl.nodesInfo c t).rank *
          ceilDiv (decl.template t).serSize (decl.nodesInfo c t).size ≤ g + sub ∧
        g + sub < (decl.template t).serLower + ((decl.nodesInfo c t).rank + 1) *
          ceilDiv (decl.template t).serSize (decl.nodesInfo c t).size := by
      intro g
      rw [owned_block_iff, add_one_mul]
      omega
    have hin := (hiff g).mp hown
    have hsum := (decl.template t).serUpper_eq
    obtain ⟨hlower, hupper⟩ := h.block_bounds hd (by omega)
    rw [← hb] at hlower hupper
    rw [count_congr hiff]
    exact count_le_contiguousInfo hlower hupper hup hg hin
  | cyclic =>
    rw [hd] at hrep hown
    simp only [Owned, ← hti] at hown ⊢
    exact count_le_of_cyclic one_pos (decl.nodesInfo c t).stride_one hr hrep hsize hrank ho hlow
      hup' hg hown hok
  | blockCyclic w =>
    rw [hd] at hrep hown
    simp only [Owned, ← hti] at hown ⊢
    have hround := decl.stride_inInt t
    rw [hd] at hround
    exact count_le_of_cyclic (decl.width_pos t w hd) hround hr hrep hsize hrank ho hlow hup' hg
      hown hok
  | gblock m =>
    cases m with
    | none => rw [hd] at hrep; exact hrep.elim
    | some m =>
      rw [hd] at hrep hown
      rw [alignInfo] at hok
      split_ifs at hok
      rw [hrep.1] at hok
      rw [alignArrayWith_allocSize ho hok]
      have hstep : rsumArray (decl.template t).serLower m ((decl.nodesInfo c t).rank + 1) =
        rsumArray (decl.template t).serLower m (decl.nodesInfo c t).rank +
          m (decl.nodesInfo c t).rank := rfl
      have hown' := hown
      rw [Owned] at hown'
      obtain ⟨hlower, hupper⟩ := h.gblock_bounds hd (by omega) (by omega)
      rw [← hb] at hlower hupper
      exact count_le_contiguousInfo hlower hupper hup hg hown

end ArrayDecl.Built

end OmniCompiler.Xmp
