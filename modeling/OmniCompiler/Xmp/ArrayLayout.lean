import OmniCompiler.Arithmetic.FoldExcept
import OmniCompiler.Arithmetic.SmallFin
import OmniCompiler.Xmp.Align

/-!
# Declarations of distributed arrays

A declaration fixes the node array, the template and its distribution, the array bounds and
the alignment. Every node builds its own descriptors from it. Which node owns which element
is a property of the declaration; the members of the descriptors that all nodes agree on
are what a node needs to compute the ownership of the others.
-/
namespace OmniCompiler.Xmp

open MachineInt FoldExcept SmallFin

variable {k d n : ℕ}

/-- `dist` gives the node dimension and the format of each template dimension. A node
dimension takes one distributed template dimension and a template dimension is aligned with
one array dimension. -/
structure ArrayDecl (k d n : ℕ) where
  nodesSize : Fin n → ℕ
  template : Fin d → TemplateInfo
  dist : Fin d → Fin n × DistFormat
  lower : Fin k → ℤ
  upper : Fin k → ℤ
  lower_le_upper : ∀ i, lower i ≤ upper i
  target : Fin k → Option (Fin d × ℤ)
  dist_inj : ∀ t t', (dist t).2 ≠ .duplication → (dist t').2 ≠ .duplication →
    (dist t).1 = (dist t').1 → t = t'
  target_inj : ∀ i i' t sub sub', target i = some (t, sub) → target i' = some (t, sub') → i = i'
  width_pos : ∀ i w, (dist i).2 = .blockCyclic w → 0 < w
  nodesSize_limit : ∀ j, nodesSize j < 2 ^ 31
  stride_inInt : ∀ i, (dist i).2.StrideInInt (nodesSize (dist i).1)

namespace ArrayDecl

variable (decl : ArrayDecl k d n)

/-- Coordinates of a node. -/
abbrev Coord : Type := (j : Fin n) → Fin (decl.nodesSize j)

def nodesAt (c : decl.Coord) : Nodes n where
  isMember := true
  info := fun j => ⟨decl.nodesSize j, c j, decl.nodesSize_limit j⟩

def calls : List (DistCall d n) :=
  (List.finRange d).map fun i => ⟨i, (decl.dist i).1, (decl.dist i).2⟩

theorem distSize_limit (t : Fin d) : decl.nodesSize (decl.dist t).1 < 2 ^ 31 :=
  decl.nodesSize_limit _

/-- The executing node's coordinate in the node dimension of template dimension `t`. -/
def nodesInfo (c : decl.Coord) (t : Fin d) : NodesInfo :=
  ⟨decl.nodesSize (decl.dist t).1, c (decl.dist t).1, decl.distSize_limit t⟩

def TargetOwned (c : decl.Coord) : Option (Fin d × ℤ) → ℤ → Prop
  | none, _ => True
  | some (t, sub), g =>
    Owned (decl.template t) (decl.nodesInfo c t) (decl.dist t).2 (g + sub)

instance (c : decl.Coord) (target : Option (Fin d × ℤ)) (g : ℤ) :
    Decidable (decl.TargetOwned c target g) :=
  match target with
  | none => inferInstanceAs (Decidable True)
  | some (t, sub) => inferInstanceAs
    (Decidable (Owned (decl.template t) (decl.nodesInfo c t) (decl.dist t).2 (g + sub)))

/-- Index `g` of dimension `i` belongs to the nodes with coordinates `c`. -/
def Owns (c : decl.Coord) (i : Fin k) (g : ℤ) : Prop :=
  decl.lower i ≤ g ∧ g ≤ decl.upper i ∧ decl.TargetOwned c (decl.target i) g

instance (c : decl.Coord) (i : Fin k) (g : ℤ) : Decidable (decl.Owns c i g) :=
  inferInstanceAs (Decidable (_ ∧ _))

/-- `a` is the descriptor that the node with coordinates `c` builds. -/
def Built (c : decl.Coord) (a : XmpArray k d n) : Prop :=
  ∃ (t : Template d n) (fresh : Fin d → TemplateChunk n) (t' : Template d n),
    t.info = decl.template ∧ t.isFixed = true ∧
      distTemplates (initTemplateChunk t (decl.nodesAt c) fresh) decl.calls = .ok t' ∧
      alignArray ⟨t'.isOwner, t',
        fun i => initArrayInfo (decl.lower i) (decl.upper i) (decl.lower_le_upper i)⟩
          decl.target = .ok a

/-- The calls that build the descriptor on the node with coordinates `c`, over memory that
the allocator has cleared. -/
def build (c : decl.Coord) : Except String (XmpArray k d n) := do
  let t : Template d n := ⟨true, false, false, decl.nodesAt c, fun _ => default, decl.template⟩
  let t' ← distTemplates (initTemplateChunk t (decl.nodesAt c) fun _ => default) decl.calls
  alignArray ⟨t'.isOwner, t',
    fun i => initArrayInfo (decl.lower i) (decl.upper i) (decl.lower_le_upper i)⟩ decl.target

variable {decl}

theorem built_of_build {c : decl.Coord} {a : XmpArray k d n} (h : decl.build c = .ok a) :
    decl.Built c a := by
  unfold build at h
  dsimp only at h
  cases hdist : distTemplates (initTemplateChunk
      ⟨true, false, false, decl.nodesAt c, fun _ => default, decl.template⟩ (decl.nodesAt c)
        fun _ => default) decl.calls with
  | error e =>
    rw [hdist] at h
    cases h
  | ok t' =>
    rw [hdist] at h
    exact ⟨_, _, t', rfl, rfl, hdist, h⟩

end ArrayDecl

/-! ## Members that all nodes agree on -/

def CyclicReplicated (P : ℕ) (j : Fin n) (w : ℤ) (chunk : TemplateChunk n) : Prop :=
  chunk.distManner = (if w = 1 then .cyclic else .blockCyclic) ∧ chunk.ontoNodesIndex = some j ∧
    chunk.parWidth = w ∧ chunk.parStride = toInt (P * w)

/-- The chunk of a dimension distributed onto `P` nodes along node dimension `j`. -/
def ReplicatedChunk (ti : TemplateInfo) (P : ℕ) (j : Fin n) (chunk : TemplateChunk n) :
    DistFormat → Prop
  | .duplication => chunk.distManner = .duplication
  | .block => chunk.distManner = .block ∧ chunk.ontoNodesIndex = some j ∧
      chunk.parChunkWidth = ceilDiv ti.serSize P
  | .cyclic => CyclicReplicated P j 1 chunk
  | .blockCyclic w => CyclicReplicated P j w chunk
  | .gblock (some m) => chunk.distManner = .gblock ∧ chunk.ontoNodesIndex = some j ∧
      chunk.mappingArray = rsumArray ti.serLower m ∧ ti.serUpper < rsumArray ti.serLower m P
  | .gblock none => False

structure DistStep (t t' : Template d n) (c : DistCall d n) : Prop where
  info : t'.info = t.info
  ontoNodes : t'.ontoNodes = t.ontoNodes
  fixed : t'.isFixed = true → t.isFixed = true
  chunk : t'.isFixed = true → ReplicatedChunk (t.info c.templateIndex)
    (t.ontoNodes.info c.nodesIndex).size c.nodesIndex (t'.chunk c.templateIndex) c.fmt
  frame : ∀ i, i ≠ c.templateIndex → t'.chunk i = t.chunk i

theorem setChunk_frame (t : Template d n) (i : Fin d) (chunk : TemplateChunk n) (isOwner : Bool)
    {i' : Fin d} (h : i' ≠ i) : (t.setChunk i chunk isOwner).chunk i' = t.chunk i' := by
  simp [Template.setChunk, Function.update_of_ne h]

theorem distTemplateCyclicWidth_replicated (t : Template d n) (i : Fin d) (j : Fin n) (w : ℤ) :
    CyclicReplicated (t.ontoNodes.info j).size j w ((distTemplateCyclicWidth t i j w).chunk i) := by
  simp only [CyclicReplicated, distTemplateCyclicWidth, Template.setChunk_chunk, and_self]

theorem distTemplate_step {t t' : Template d n} {c : DistCall d n}
    (h : distTemplate t c.templateIndex c.nodesIndex c.fmt = .ok t') : DistStep t t' c := by
  obtain ⟨i, j, fmt⟩ := c
  match fmt with
  | .duplication =>
    cases h
    refine ⟨rfl, rfl, fun h => h, fun _ => ?_, fun i' hi => setChunk_frame _ _ _ _ hi⟩
    simp [ReplicatedChunk, distTemplateDuplication]
  | .block =>
    cases h
    refine ⟨rfl, rfl, fun h => h, fun _ => ?_, fun i' hi => setChunk_frame _ _ _ _ hi⟩
    simp [ReplicatedChunk, distTemplateBlock]
  | .cyclic =>
    cases h
    exact ⟨rfl, rfl, fun h => h, fun _ => distTemplateCyclicWidth_replicated t i j 1,
      fun i' hi => setChunk_frame _ _ _ _ hi⟩
  | .blockCyclic w =>
    cases h
    exact ⟨rfl, rfl, fun h => h, fun _ => distTemplateCyclicWidth_replicated t i j w,
      fun i' hi => setChunk_frame _ _ _ _ hi⟩
  | .gblock none =>
    cases h
    have hfix : ¬ false = true := Bool.false_ne_true
    exact ⟨rfl, rfl, fun h => absurd h hfix, fun h => absurd h hfix,
      fun i' hi => setChunk_frame t i _ t.isOwner hi⟩
  | .gblock (some m) =>
    simp only [distTemplate, distTemplateGblock] at h
    split_ifs at h with hcover
    cases h
    refine ⟨rfl, rfl, fun h => h, fun _ => ?_, fun i' hi => setChunk_frame _ _ _ _ hi⟩
    simp only [ReplicatedChunk, Template.setChunk_chunk, true_and]
    omega

theorem distTemplates_replicated {t t' : Template d n} {calls : List (DistCall d n)}
    (hnodup : (calls.map DistCall.templateIndex).Nodup) (h : distTemplates t calls = .ok t') :
    t'.info = t.info ∧ ∀ c ∈ calls, t'.isFixed = true →
      ReplicatedChunk (t.info c.templateIndex) (t.ontoNodes.info c.nodesIndex).size c.nodesIndex
        (t'.chunk c.templateIndex) c.fmt := by
  have hrun := @foldlM_spec _ _ _ _ _ (fun u : Template d n => u.info = t.info ∧
      u.ontoNodes = t.ontoNodes) (fun c u => u.isFixed = true →
        ReplicatedChunk (t.info c.templateIndex) (t.ontoNodes.info c.nodesIndex).size c.nodesIndex
          (u.chunk c.templateIndex) c.fmt) DistCall.templateIndex ?_ ?_ _ hnodup _ _ ⟨rfl, rfl⟩ h
  · exact ⟨hrun.1.1, hrun.2⟩
  · rintro u c u' ⟨hinfo, hnodes⟩ hu
    have hstep := distTemplate_step hu
    refine ⟨⟨hstep.info.trans hinfo, hstep.ontoNodes.trans hnodes⟩, ?_⟩
    rw [← hinfo, ← hnodes]
    exact hstep.chunk
  · rintro u c u' c' - hu hne hP hfixed
    have hstep := distTemplate_step hu
    rw [hstep.frame _ hne]
    exact hP (hstep.fixed hfixed)

theorem distTemplates_ontoNodes {t t' : Template d n} {calls : List (DistCall d n)}
    (hnodup : (calls.map DistCall.templateIndex).Nodup) (h : distTemplates t calls = .ok t') :
    t'.ontoNodes = t.ontoNodes := by
  have hrun := @foldlM_spec _ _ _ _ _ (fun u : Template d n => u.ontoNodes = t.ontoNodes)
    (fun _ _ => True) DistCall.templateIndex ?_ ?_ _ hnodup _ _ rfl h
  · exact hrun.1
  · exact fun u c u' hnodes hu => ⟨(distTemplate_step hu).ontoNodes.trans hnodes, trivial⟩
  · exact fun _ _ _ _ _ _ _ _ => trivial

/-! ## Aligned dimensions -/

def DistManner.alignManner : DistManner → AlignManner
  | .duplication => .duplication
  | .block => .block
  | .cyclic => .cyclic
  | .blockCyclic => .blockCyclic
  | .gblock => .gblock

/-- What the alignment of one dimension leaves in the descriptor on every node. -/
def AlignedDim (t : Template d n) (ai : ArrayInfo d) : Option (Fin d × ℤ) → Prop
  | none => ai.alignManner = .notAligned ∧ ai.alignTemplateIndex = none
  | some (ti, sub) => t.isFixed = true ∧ AlignsWithin (t.info ti) ai sub ∧
      ai.alignManner = (t.chunk ti).distManner.alignManner ∧ ai.alignSubscript = sub ∧
      ai.alignTemplateIndex = some ti

structure AlignStep (a a' : XmpArray k d n) (i : Fin k) (target : Option (Fin d × ℤ)) : Prop where
  template : a'.alignTemplate = a.alignTemplate
  bounds : ∀ i', (a'.info i').serLower = (a.info i').serLower ∧
    (a'.info i').serUpper = (a.info i').serUpper
  dim : AlignedDim a.alignTemplate (a'.info i) target
  frame : ∀ i', i' ≠ i → a'.info i' = a.info i'

theorem alignStep_setInfo {a : XmpArray k d n} {i : Fin k} {ai : ArrayInfo d} {b : Bool}
    {target : Option (Fin d × ℤ)} (hl : ai.serLower = (a.info i).serLower)
    (hu : ai.serUpper = (a.info i).serUpper) (hdim : AlignedDim a.alignTemplate ai target) :
    AlignStep a (a.setInfo i ai b) i target where
  template := rfl
  bounds := by
    intro i'
    rw [XmpArray.setInfo_info]
    by_cases hi : i' = i
    · subst hi
      simp [hl, hu]
    · simp [Function.update_of_ne hi]
  dim := by simpa using hdim
  frame := fun i' hi => by simp [Function.update_of_ne hi]

theorem alignArrayWith_step {a a' : XmpArray k d n} {i : Fin k} {ti : Fin d} {sub : ℤ}
    {manner : AlignManner} {regular : Bool} {members : ArrayInfo d × Bool}
    (hl : members.1.serLower = (a.info i).serLower) (hu : members.1.serUpper = (a.info i).serUpper)
    (hfixed : a.alignTemplate.isFixed = true)
    (hm : manner = (a.alignTemplate.chunk ti).distManner.alignManner)
    (h : alignArrayWith a i ti sub manner regular members = .ok a') :
    AlignStep a a' i (some (ti, sub)) := by
  unfold alignArrayWith at h
  dsimp only at h
  split_ifs at h with hwithin
  · cases h
    refine alignStep_setInfo hl hu ⟨hfixed, ?_, hm, rfl, rfl⟩
    simpa only [AlignsWithin, hl, hu] using hwithin
  · cases h
    exact alignStep_setInfo rfl rfl ⟨hfixed, hwithin, hm, rfl, rfl⟩

theorem contiguousInfo_bounds (ai : ArrayInfo d) (chunk : TemplateChunk n) (sub : ℤ) :
    (contiguousInfo ai chunk sub).1.serLower = ai.serLower ∧
      (contiguousInfo ai chunk sub).1.serUpper = ai.serUpper := by
  unfold contiguousInfo
  dsimp only
  split_ifs <;> exact ⟨rfl, rfl⟩

theorem alignInfo_step {a a' : XmpArray k d n} {i : Fin k} {target : Option (Fin d × ℤ)}
    (h : alignInfo a i target = .ok a') : AlignStep a a' i target := by
  unfold alignInfo at h
  match target with
  | none =>
    cases h
    exact alignStep_setInfo rfl rfl ⟨rfl, rfl⟩
  | some (ti, sub) =>
    have hcont := contiguousInfo_bounds (a.info i) (a.alignTemplate.chunk ti) sub
    dsimp only at h
    split_ifs at h with hfixed
    split at h
    · next hm => exact alignArrayWith_step rfl rfl hfixed (by rw [hm]; rfl) h
    · next hm => exact alignArrayWith_step hcont.1 hcont.2 hfixed (by rw [hm]; rfl) h
    · next hm => exact alignArrayWith_step rfl rfl hfixed (by rw [hm]; rfl) h
    · next hm => exact alignArrayWith_step rfl rfl hfixed (by rw [hm]; rfl) h
    · next hm => exact alignArrayWith_step hcont.1 hcont.2 hfixed (by rw [hm]; rfl) h

theorem alignArray_dims {a a' : XmpArray k d n} {target : Fin k → Option (Fin d × ℤ)}
    (h : alignArray a target = .ok a') :
    a'.alignTemplate = a.alignTemplate ∧ ∀ i, AlignedDim a.alignTemplate (a'.info i) (target i) ∧
      (a'.info i).serLower = (a.info i).serLower ∧ (a'.info i).serUpper = (a.info i).serUpper := by
  have hrun := @foldlM_spec _ _ _ _ _ (fun b : XmpArray k d n => b.alignTemplate = a.alignTemplate ∧
      ∀ i, (b.info i).serLower = (a.info i).serLower ∧ (b.info i).serUpper = (a.info i).serUpper)
      (fun i b => AlignedDim a.alignTemplate (b.info i) (target i)) (fun i : Fin k => i) ?_ ?_ _
      (by simpa using List.nodup_finRange k) _ _ ⟨rfl, fun _ => ⟨rfl, rfl⟩⟩ h
  · exact ⟨hrun.1.1, fun i => ⟨hrun.2 i (List.mem_finRange i), hrun.1.2 i⟩⟩
  · rintro b i b' ⟨ht, hb⟩ hstep
    have hs := alignInfo_step hstep
    refine ⟨⟨hs.template.trans ht, fun i' => ?_⟩, ht ▸ hs.dim⟩
    exact ⟨(hs.bounds i').1.trans (hb i').1, (hs.bounds i').2.trans (hb i').2⟩
  · rintro b i b' i' - hstep hne hP
    rw [(alignInfo_step hstep).frame i' hne]
    exact hP

/-! ## Descriptors built from a declaration -/

/-- The members of dimension `i` that every node can rely on. -/
structure DescribedDim (decl : ArrayDecl k d n) (a : XmpArray k d n) (i : Fin k) : Prop where
  lower : (a.info i).serLower = decl.lower i
  upper : (a.info i).serUpper = decl.upper i
  unaligned : decl.target i = none →
    (a.info i).alignManner = .notAligned ∧ (a.info i).alignTemplateIndex = none
  aligned : ∀ t sub, decl.target i = some (t, sub) →
    (a.info i).alignManner = (a.alignTemplate.chunk t).distManner.alignManner ∧
      (a.info i).alignSubscript = sub ∧ (a.info i).alignTemplateIndex = some t ∧
      a.alignTemplate.info t = decl.template t ∧
      (decl.template t).serLower ≤ decl.lower i + sub ∧
      decl.upper i + sub ≤ (decl.template t).serUpper ∧
      ReplicatedChunk (decl.template t) (decl.nodesSize (decl.dist t).1) (decl.dist t).1
        (a.alignTemplate.chunk t) (decl.dist t).2

theorem ArrayDecl.Built.described {decl : ArrayDecl k d n} {c : decl.Coord} {a : XmpArray k d n}
    (h : decl.Built c a) (i : Fin k) : DescribedDim decl a i := by
  obtain ⟨t, fresh, t', hinfo, -, hdist, halign⟩ := h
  obtain ⟨htempl, hdims⟩ := alignArray_dims halign
  obtain ⟨hdim, hl, hu⟩ := hdims i
  have hnodup : (decl.calls.map DistCall.templateIndex).Nodup := by
    simpa [ArrayDecl.calls, Function.comp_def] using List.nodup_finRange d
  obtain ⟨hinfo', hchunk⟩ := distTemplates_replicated hnodup hdist
  dsimp only at htempl hdim
  refine ⟨hl, hu, fun htar => ?_, fun ti sub htar => ?_⟩
  · rw [htar] at hdim
    exact hdim
  · rw [htar] at hdim
    obtain ⟨hfixed, hwithin, hm, hsub, hidx⟩ := hdim
    have hti : t'.info ti = decl.template ti := by
      rw [hinfo', ← hinfo]
      rfl
    rw [AlignsWithin, hl, hu, hti] at hwithin
    have hrep := hchunk ⟨ti, (decl.dist ti).1, (decl.dist ti).2⟩
      (List.mem_map.mpr ⟨ti, List.mem_finRange ti, rfl⟩) hfixed
    rw [htempl]
    refine ⟨hm, hsub, hidx, hti, hwithin.1, hwithin.2, ?_⟩
    rw [← hinfo]
    exact hrep

/-! ## One-dimensional arrays -/

/-- The array `a(lower:upper)`, aligned as `a(i)` with `t(i+offset)`, where `t` is distributed onto
`p(P)`. -/
def ArrayDecl.line (P : ℕ) (t : TemplateInfo) (fmt : DistFormat) (lower upper offset : ℤ)
    (hP : P < 2 ^ 31) (hstride : fmt.StrideInInt P) (hfmt : ∀ w, fmt = .blockCyclic w → 0 < w)
    (hle : lower ≤ upper) : ArrayDecl 1 1 1 where
  nodesSize := fun _ => P
  template := fun _ => t
  dist := fun _ => (0, fmt)
  lower := fun _ => lower
  upper := fun _ => upper
  lower_le_upper := fun _ => hle
  target := fun _ => some (0, offset)
  dist_inj := fun t t' _ _ _ => Subsingleton.elim t t'
  target_inj := fun i i' _ _ _ _ _ => Subsingleton.elim i i'
  width_pos := fun _ w h => hfmt w h
  nodesSize_limit := fun _ => hP
  stride_inInt := fun _ => hstride

theorem two_nodes_lt : 2 < 2 ^ 31 := by norm_num

theorem DistFormat.block_width_pos (w : ℤ) (h : DistFormat.block = .blockCyclic w) : 0 < w := by
  cases h

/-- The descriptor of a one-dimensional array, an arbitrary one if it cannot be built. -/
def ArrayDecl.builtLine (decl : ArrayDecl 1 1 1) (c : decl.Coord) : XmpArray 1 1 1 :=
  match decl.build c with
  | .ok a => a
  | .error _ => ⟨false, lineTemplate 0 0 (by decide) (decl.nodesAt c),
      fun i => initArrayInfo (decl.lower i) (decl.upper i) (decl.lower_le_upper i)⟩

end OmniCompiler.Xmp
