import OmniCompiler.Xmp.Shadow

/-!
# The part of an array on a node

What the descriptor of an allocated array says about a dimension that is aligned with a `block` or
a `cyclic` dimension, and which nodes of a line, the nodes that differ in one coordinate only, hold
a part of the array.
-/
namespace OmniCompiler.Xmp

open MachineInt FoldExcept

variable {k d n : ℕ}

/-- The part of a dimension of the indices from `lower` to `upper` on the node whose block starts
at `x`. -/
structure BlockPart (lower upper x w : ℤ) (ai : ArrayInfo d) : Prop where
  parLower : ai.parLower = max lower x
  parUpper : ai.parUpper = min upper (x + w - 1)
  le : ai.parLower ≤ ai.parUpper
  parStride : ai.parStride = 1
  parSize : ai.parSize = ai.parUpper - ai.parLower + 1
  localLower : ai.localLower = 0
  localUpper : ai.localUpper = ai.parSize - 1
  localStride : ai.localStride = 1
  allocSize : ai.allocSize = ai.parSize

/-- The part of a dimension on the node that is dealt the index `lower + m` first. -/
structure CyclicPart (lower upper m P : ℤ) (ai : ArrayInfo d) : Prop where
  parLower : ai.parLower = lower + m
  parUpper : ai.parUpper = lower + m + (upper - lower - m).tdiv P * P
  parStride : ai.parStride = P
  parSize : ai.parSize = (upper - lower - m).tdiv P + 1

/-- The test of `_XMP_align_array_BLOCK` and `_XMP_align_array_GBLOCK` that keeps the array
allocated. -/
def ContiguousMeets (alignLower alignUpper : ℤ) (chunk : TemplateChunk n) : Prop :=
  ¬ (chunk.parLower ≤ alignLower ∧ chunk.parUpper < alignLower) ∧ chunk.parLower ≤ alignUpper

theorem contiguousInfo_flag (ai : ArrayInfo d) (chunk : TemplateChunk n) (sub : ℤ) :
    (contiguousInfo ai chunk sub).2 = true ↔
      ContiguousMeets (ai.serLower + sub) (ai.serUpper + sub) chunk := by
  unfold contiguousInfo ContiguousMeets
  dsimp only
  by_cases h₁ : chunk.parLower ≤ ai.serLower + sub ∧ chunk.parUpper < ai.serLower + sub
  · simp [h₁]
  by_cases h₂ : ai.serUpper + sub < chunk.parLower
  · simp [h₁, h₂]
  · simp [h₁, h₂, not_lt.mp h₂]

theorem blockPart_contiguousInfo {ai : ArrayInfo d} {chunk : TemplateChunk n} {sub L w tu : ℤ}
    (hlower : chunk.parLower = L) (hupper : chunk.parUpper = min tu (L + w - 1))
    (htu : ai.serUpper + sub ≤ tu) (hw : 0 < w)
    (h : ContiguousMeets (ai.serLower + sub) (ai.serUpper + sub) chunk) :
    BlockPart ai.serLower ai.serUpper (L - sub) w (contiguousInfo ai chunk sub).1 := by
  obtain ⟨h₁, h₂⟩ := h
  have hbounds := ai.lower_le_upper
  unfold contiguousInfo
  dsimp only
  rw [if_neg h₁, if_neg (not_lt.mpr h₂)]
  rw [hlower, hupper] at *
  simp only [countTriplet, Int.tdiv_one]
  have hlow : (if ai.serLower + sub < L then L - sub else ai.serLower) =
    max ai.serLower (L - sub) := by
    split_ifs <;> omega
  have hup : (if min tu (L + w - 1) < ai.serUpper + sub then min tu (L + w - 1) - sub
      else ai.serUpper) = min ai.serUpper (L - sub + w - 1) := by
    split_ifs <;> omega
  rw [hlow, hup]
  exact ⟨rfl, rfl, show max ai.serLower (L - sub) ≤ min ai.serUpper (L - sub + w - 1) by omega,
    rfl, rfl, rfl, rfl, rfl, rfl⟩

/-- On an owner of the template a dimension keeps what was computed for it. -/
theorem alignArrayWith_members {b b' : XmpArray k d n} {i : Fin k} {t : Fin d} {sub : ℤ}
    {manner : AlignManner} {regular : Bool} {members : ArrayInfo d × Bool}
    (ho : b.alignTemplate.isOwner = true)
    (h : alignArrayWith b i t sub manner regular members = .ok b') :
    b'.info i = { members.1 with
      isRegularChunk := regular
      alignManner := manner
      alignSubscript := sub
      alignTemplateIndex := some t } := by
  unfold alignArrayWith at h
  dsimp only at h
  split_ifs at h
  cases h
  simp

def DimMeets (t : Template d n) (lower upper : ℤ) : Option (Fin d × ℤ) → Prop
  | none => True
  | some (ti, sub) => (t.chunk ti).distManner = .block ∨ (t.chunk ti).distManner = .gblock →
      ContiguousMeets (lower + sub) (upper + sub) (t.chunk ti)

theorem alignArrayWith_isAllocated {a a' : XmpArray k d n} {i : Fin k} {ti : Fin d} {sub : ℤ}
    {manner : AlignManner} {regular : Bool} {members : ArrayInfo d × Bool}
    (ho : a.alignTemplate.isOwner = true)
    (h : alignArrayWith a i ti sub manner regular members = .ok a') :
    a'.isAllocated = true ↔ a.isAllocated = true ∧ members.2 = true := by
  unfold alignArrayWith at h
  dsimp only at h
  split_ifs at h
  cases h
  simp only [XmpArray.setInfo, Bool.and_eq_true]

theorem alignInfo_isAllocated_iff {a a' : XmpArray k d n} {i : Fin k} {target : Option (Fin d × ℤ)}
    (ho : a.alignTemplate.isOwner = true) (h : alignInfo a i target = .ok a') :
    a'.isAllocated = true ↔ a.isAllocated = true ∧
      DimMeets a.alignTemplate (a.info i).serLower (a.info i).serUpper target := by
  unfold alignInfo at h
  match target with
  | none =>
    cases h
    simp [alignArrayNotAligned, XmpArray.setInfo, DimMeets]
  | some (ti, sub) =>
    dsimp only at h
    split_ifs at h
    split at h
    · next hm => simp [alignArrayWith_isAllocated ho h, DimMeets, hm]
    · next hm => simp [alignArrayWith_isAllocated ho h, DimMeets, hm, contiguousInfo_flag]
    · next hm => simp [alignArrayWith_isAllocated ho h, DimMeets, hm]
    · next hm => simp [alignArrayWith_isAllocated ho h, DimMeets, hm]
    · next hm => simp [alignArrayWith_isAllocated ho h, DimMeets, hm, contiguousInfo_flag]

theorem alignArray_isAllocated {a a' : XmpArray k d n} {target : Fin k → Option (Fin d × ℤ)}
    {l : List (Fin k)} (ho : a.alignTemplate.isOwner = true)
    (h : l.foldlM (fun array i => alignInfo array i (target i)) a = .ok a') :
    a'.isAllocated = true ↔ a.isAllocated = true ∧ ∀ i ∈ l,
      DimMeets a.alignTemplate (a.info i).serLower (a.info i).serUpper (target i) := by
  induction l generalizing a with
  | nil =>
    cases h
    simp
  | cons i l ih =>
    rw [List.foldlM_cons] at h
    cases hb : alignInfo a i (target i) with
    | error e =>
      rw [hb] at h
      cases h
    | ok b =>
      rw [hb] at h
      have hstep := alignInfo_step hb
      rw [ih (hstep.template ▸ ho) h, alignInfo_isAllocated_iff ho hb, hstep.template,
        List.forall_mem_cons, and_assoc]
      simp only [(hstep.bounds _).1, (hstep.bounds _).2]

theorem isAllocated_of_alignArray {a a' : XmpArray k d n} {target : Fin k → Option (Fin d × ℤ)}
    {l : List (Fin k)} (h : l.foldlM (fun array i => alignInfo array i (target i)) a = .ok a')
    (ha : a'.isAllocated = true) : a.isAllocated = true := by
  induction l generalizing a with
  | nil =>
    cases h
    exact ha
  | cons i l ih =>
    rw [List.foldlM_cons] at h
    cases hb : alignInfo a i (target i) with
    | error e =>
      rw [hb] at h
      cases h
    | ok b =>
      rw [hb] at h
      exact alignInfo_isAllocated hb (ih h)

/-! ## The parts of a built array -/

namespace ArrayDecl

/-- The node with coordinates `c` owns an index of template dimension `t`. -/
def OwnsDim (decl : ArrayDecl k d n) (c : decl.Coord) (t : Fin d) : Prop :=
  ∃ g, (decl.template t).Contains g ∧
    Owned (decl.template t) (decl.nodesInfo c t) (decl.dist t).2 g

def blockStart (decl : ArrayDecl k d n) (c : decl.Coord) (t : Fin d) (sub : ℤ) : ℤ :=
  (decl.template t).serLower + (decl.nodesInfo c t).rank *
    ceilDiv (decl.template t).serSize (decl.nodesInfo c t).size - sub

variable {decl : ArrayDecl k d n} {c c' : decl.Coord} {a a' : XmpArray k d n}
    {i : Fin k} {t : Fin d}
  {sub : ℤ}

namespace Built

theorem isOwner_iff (h : decl.Built c a) : a.alignTemplate.isOwner = true ↔
    decl.calls.foldl (flagAfter decl.template (decl.nodesAt c)) True := by
  obtain ⟨t₀, fresh, t', hinfo, -, hdist, halign⟩ := h
  obtain ⟨htempl, -⟩ := alignArray_dims halign
  have hwidth : ∀ call ∈ decl.calls, call.WidthPos := by
    intro call hcall
    obtain ⟨t, -, rfl⟩ := List.mem_map.mp hcall
    exact decl.width_pos t
  obtain ⟨hflag, -⟩ := distTemplates_flag hwidth hdist
  rw [htempl, hflag rfl, ← hinfo]
  show decl.calls.foldl (flagAfter t₀.info (decl.nodesAt c)) (true = true) ↔ _
  rw [eq_self_iff_true]

theorem block_parLower (h : decl.Built c a) (hfmt : (decl.dist t).2 = .block) :
    (a.alignTemplate.chunk t).parLower = decl.blockStart c t 0 := by
  obtain ⟨u, u', hinfo, hnodes, hok, hchunk⟩ := h.chunk_written t
  have hni : u.ontoNodes.info (decl.dist t).1 = decl.nodesInfo c t := by rw [hnodes]; rfl
  have hm : u.ontoNodes.isMember = true := by rw [hnodes]; rfl
  have hw := ceilDiv_pos (decl.template t).serSize_pos (decl.nodesInfo c t).size_pos
  obtain ⟨-, hlower, -⟩ := blockMembers_spec (decl.template t) (decl.nodesInfo c t) hw
    (u.chunk t).parUpper
  rw [hfmt] at hok
  cases hok
  rw [hchunk, blockStart, sub_zero]
  simp only [distTemplateBlock, Template.setChunk_chunk, hm, if_true, hinfo, hni]
  exact hlower

theorem isAllocated_iff (h : decl.Built c a) : a.isAllocated = true ↔
    a.alignTemplate.isOwner = true ∧
      ∀ i, DimMeets a.alignTemplate (decl.lower i) (decl.upper i) (decl.target i) := by
  obtain ⟨t₀, fresh, t', -, -, -, halign⟩ := h
  obtain ⟨htempl, -⟩ := alignArray_dims halign
  dsimp only at htempl
  cases ho : t'.isOwner with
  | true =>
    rw [alignArray_isAllocated ho halign, htempl]
    simp [ho, initArrayInfo]
  | false =>
    rw [htempl, ho]
    have hnot : ¬ a.isAllocated = true := by
      intro ha
      have hfirst := isAllocated_of_alignArray halign ha
      rw [ho] at hfirst
      cases hfirst
    simp [hnot]

theorem meets_block (h : decl.Built c a) (ha : a.isAllocated = true)
    (htar : decl.target i = some (t, sub)) (hfmt : (decl.dist t).2 = .block) :
    ContiguousMeets (decl.lower i + sub) (decl.upper i + sub) (a.alignTemplate.chunk t) := by
  obtain ⟨-, -, -, -, -, -, hrep⟩ := (h.described i).aligned t sub htar
  have hmeets := (h.isAllocated_iff.mp ha).2 i
  rw [htar] at hmeets
  rw [hfmt] at hrep
  exact hmeets (Or.inl hrep.1)

theorem blockStart_lt (h : decl.Built c a) (ha : a.isAllocated = true)
    (htar : decl.target i = some (t, sub)) (hfmt : (decl.dist t).2 = .block) :
    ((decl.nodesInfo c t).rank : ℤ) *
      ceilDiv (decl.template t).serSize (decl.nodesInfo c t).size < (decl.template t).serSize := by
  obtain ⟨-, -, -, -, -, hup, -⟩ := (h.described i).aligned t sub htar
  obtain ⟨-, hmeets⟩ := h.meets_block ha htar hfmt
  rw [h.block_parLower hfmt, blockStart, sub_zero] at hmeets
  have hend := (decl.template t).serUpper_eq
  omega

theorem blockPart (h : decl.Built c a) (ha : a.isAllocated = true)
    (htar : decl.target i = some (t, sub)) (hfmt : (decl.dist t).2 = .block) :
    BlockPart (decl.lower i) (decl.upper i) (decl.blockStart c t sub)
      (ceilDiv (decl.template t).serSize (decl.nodesInfo c t).size) (a.info i) := by
  obtain ⟨-, -, -, -, -, hup, hrep⟩ := (h.described i).aligned t sub htar
  have hmeets := h.meets_block ha htar hfmt
  have hw := ceilDiv_pos (decl.template t).serSize_pos (decl.nodesInfo c t).size_pos
  obtain ⟨hlower, hupper⟩ := h.block_bounds hfmt (h.blockStart_lt ha htar hfmt)
  obtain ⟨howner, b, b', hb, hl, hu, hok, hinfo⟩ := h.info_written i
  rw [htar, alignInfo] at hok
  split_ifs at hok with hfixed
  rw [hfmt, ← hb] at hrep
  rw [hrep.1] at hok
  rw [← hl, ← hu, ← hb] at hmeets
  rw [← hb] at hlower hupper
  rw [← hu] at hup
  have hnext : ∀ r w : ℤ, (decl.template t).serLower + (r + 1) * w - 1 =
      (decl.template t).serLower + r * w + w - 1 := fun r w => by ring
  rw [hnext] at hupper
  have hpart := blockPart_contiguousInfo hlower hupper hup hw hmeets
  rw [hl, hu] at hpart
  rw [hinfo, alignArrayWith_members (hb ▸ howner ha) hok]
  exact ⟨hpart.parLower, hpart.parUpper, hpart.le, hpart.parStride, hpart.parSize,
    hpart.localLower, hpart.localUpper, hpart.localStride, hpart.allocSize⟩

theorem cyclicPart (h : decl.Built c a) (ha : a.isAllocated = true)
    (htar : decl.target i = some (t, sub)) (hfmt : (decl.dist t).2 = .cyclic) :
    CyclicPart (decl.lower i) (decl.upper i)
      (((decl.nodesInfo c t).rank - (decl.lower i + sub - (decl.template t).serLower)) %
        (decl.nodesInfo c t).size) (decl.nodesInfo c t).size (a.info i) := by
  obtain ⟨-, -, -, hti, hlow, -, hrep⟩ := (h.described i).aligned t sub htar
  have hdup : (decl.dist t).2 ≠ .duplication := by
    rw [hfmt]
    intro hd
    cases hd
  have hni := h.nodesInfo_eq hdup
  have hP := (decl.nodesInfo c t).size_pos
  have hx : 0 ≤ decl.lower i + sub - (decl.template t).serLower := by omega
  obtain ⟨howner, b, b', hb, hl, hu, hok, hinfo⟩ := h.info_written i
  rw [htar, alignInfo] at hok
  split_ifs at hok with hfixed
  rw [hfmt] at hrep
  obtain ⟨hmanner, -, -, hstride⟩ := hrep
  rw [if_pos rfl] at hmanner
  rw [← hb] at hmanner hstride hti hni
  have hsize : (b.alignTemplate.chunk t).nodesSize = (decl.nodesInfo c t).size := by
    rw [TemplateChunk.nodesSize, hni]
    rfl
  have hrank : (b.alignTemplate.chunk t).nodesRank = (decl.nodesInfo c t).rank := by
    rw [TemplateChunk.nodesRank, hni]
    rfl
  have hmod : modi ((decl.nodesInfo c t).rank - (decl.lower i + sub -
      (decl.template t).serLower).tmod (decl.nodesInfo c t).size) (decl.nodesInfo c t).size =
      ((decl.nodesInfo c t).rank - (decl.lower i + sub - (decl.template t).serLower)) %
        (decl.nodesInfo c t).size := by
    rw [modi_eq_emod hP, Int.tmod_eq_emod_of_nonneg hx, Int.sub_emod_emod]
  have hstride' : (b.alignTemplate.chunk t).parStride = (decl.nodesInfo c t).size := by
    rw [hstride, mul_one]
    exact toInt_of_inInt (decl.nodesInfo c t).size_inInt
  rw [hmanner] at hok
  rw [hinfo, alignArrayWith_members (hb ▸ howner ha) hok]
  simp only [cyclicInfo, hti, hl, hu, hsize, hrank, hmod, hstride']
  have hreach : ∀ m, decl.upper i - (m + decl.lower i) = decl.upper i - decl.lower i - m :=
    fun m => by ring
  constructor
  · exact add_comm _ _
  · simp only [hreach, add_comm (decl.lower i)]
  · rfl
  · simp only [hreach]

end Built

/-! ## Nodes of a line -/

/-- The nodes differ at most in coordinate `j`. -/
def OnLine (c c' : decl.Coord) (j : Fin n) : Prop := ∀ j', j' ≠ j → c' j' = c j'

/-- The node has a block of every general block dimension that the array is aligned with. Without
one its chunk is not set. -/
def OwnsGblocks (decl : ArrayDecl k d n) (c : decl.Coord) : Prop :=
  ∀ i t sub m, decl.target i = some (t, sub) → (decl.dist t).2 = .gblock (some m) → decl.OwnsDim c t

theorem nodesInfo_congr (h : c' (decl.dist t).1 = c (decl.dist t).1) :
    decl.nodesInfo c' t = decl.nodesInfo c t := by
  rw [nodesInfo, nodesInfo, h]

theorem foldl_flagAfter_mono {info : Fin d → TemplateInfo} {nodes nodes' : Nodes n}
    {calls : List (DistCall d n)}
    (howns : ∀ call ∈ calls, call.Owns info nodes → call.Owns info nodes')
    (hsets : ∀ call ∈ calls, call.Sets info nodes → call.Sets info nodes') {b b' : Prop}
    (hb : b → b') (h : calls.foldl (flagAfter info nodes) b) :
    calls.foldl (flagAfter info nodes') b' := by
  induction calls generalizing b b' with
  | nil => exact hb h
  | cons call calls ih =>
    apply ih (fun call' hcall' => howns call' (List.mem_cons_of_mem call hcall'))
      (fun call' hcall' => hsets call' (List.mem_cons_of_mem call hcall')) _ h
    intro hflag
    obtain hset | ⟨hrest, hown⟩ := sets_or_owns_of_flagAfter hflag
    · exact flagAfter_of_sets (hsets call List.mem_cons_self hset)
    · exact flagAfter_of_owns (hb hrest) (howns call List.mem_cons_self hown)

theorem other_dim_congr (hline : OnLine c c' (decl.dist t).1)
    (hdup : (decl.dist t).2 ≠ .duplication)
    {t' : Fin d} (ht : t' ≠ t) (hdup' : (decl.dist t').2 ≠ .duplication) :
    decl.nodesInfo c' t' = decl.nodesInfo c t' := by
  apply nodesInfo_congr
  apply hline
  intro hj
  exact ht (decl.dist_inj t' t hdup' hdup hj)

theorem isOwner_of_line (h : decl.Built c a) (h' : decl.Built c' a')
    (hline : OnLine c c' (decl.dist t).1)
    (hfmt : (decl.dist t).2 = .block ∨ (decl.dist t).2 = .cyclic)
    (howns : decl.OwnsDim c t → decl.OwnsDim c' t) (ho : a.alignTemplate.isOwner = true) :
    a'.alignTemplate.isOwner = true := by
  have hdup : (decl.dist t).2 ≠ .duplication := by
    intro hd
    rw [hd] at hfmt
    obtain hd | hd := hfmt
    · cases hd
    · cases hd
  rw [h.isOwner_iff] at ho
  rw [h'.isOwner_iff]
  apply foldl_flagAfter_mono _ _ id ho
  · intro call hcall
    obtain ⟨t', -, rfl⟩ := List.mem_map.mp hcall
    by_cases ht : t' = t
    · subst ht
      exact howns
    by_cases hdup' : (decl.dist t').2 = .duplication
    · rintro ⟨g, hg, -⟩
      refine ⟨g, hg, ?_⟩
      rw [hdup']
      trivial
    · have hsame := other_dim_congr hline hdup ht hdup'
      rintro ⟨g, hg, hown⟩
      refine ⟨g, hg, ?_⟩
      show Owned _ (decl.nodesInfo c' t') _ _
      rw [hsame]
      exact hown
  · intro call hcall
    obtain ⟨t', -, rfl⟩ := List.mem_map.mp hcall
    rintro ⟨m, hm, hset⟩
    have ht : t' ≠ t := by
      rintro rfl
      have hm' : (decl.dist t').2 = .gblock (some m) := hm
      rw [hm'] at hfmt
      obtain hd | hd := hfmt
      · cases hd
      · cases hd
    have hdup' : (decl.dist t').2 ≠ .duplication := by
      have hm' : (decl.dist t').2 = .gblock (some m) := hm
      rw [hm']
      intro hd
      cases hd
    have hsame := other_dim_congr hline hdup ht hdup'
    refine ⟨m, hm, ?_⟩
    show m (decl.nodesInfo c' t').rank ≠ 0 ∧ rsumArray _ m (decl.nodesInfo c' t').rank ≤ _
    rw [hsame]
    exact hset

/-- The bounds of a contiguous chunk of another dimension are the same on both nodes. -/
theorem chunk_bounds_other (h : decl.Built c a) (h' : decl.Built c' a') (ha : a.isAllocated = true)
    (hgblocks : decl.OwnsGblocks c) (hline : OnLine c c' (decl.dist t).1)
    (hdup : (decl.dist t).2 ≠ .duplication) {i' : Fin k} {t' : Fin d} {sub' : ℤ}
    (htar' : decl.target i' = some (t', sub')) (ht : t' ≠ t)
    (hfmt : (decl.dist t').2 = .block ∨ ∃ m, (decl.dist t').2 = .gblock (some m)) :
    (a'.alignTemplate.chunk t').parLower = (a.alignTemplate.chunk t').parLower ∧
      (a'.alignTemplate.chunk t').parUpper = (a.alignTemplate.chunk t').parUpper := by
  obtain hfmt | ⟨m, hfmt⟩ := hfmt
  · have hdup' : (decl.dist t').2 ≠ .duplication := by simp [hfmt]
    have hsame := other_dim_congr hline hdup ht hdup'
    have hlt := h.blockStart_lt ha htar' hfmt
    obtain ⟨hlower, hupper⟩ := h.block_bounds hfmt hlt
    rw [← hsame] at hlt hlower hupper
    obtain ⟨hlower', hupper'⟩ := h'.block_bounds hfmt hlt
    exact ⟨hlower'.trans hlower.symm, hupper'.trans hupper.symm⟩
  · have hdup' : (decl.dist t').2 ≠ .duplication := by simp [hfmt]
    have hsame := other_dim_congr hline hdup ht hdup'
    obtain ⟨g, hg, hown⟩ := hgblocks i' t' sub' m htar' hfmt
    have hstep : rsumArray (decl.template t').serLower m ((decl.nodesInfo c t').rank + 1) =
        rsumArray (decl.template t').serLower m (decl.nodesInfo c t').rank +
          m (decl.nodesInfo c t').rank := rfl
    rw [hfmt] at hown
    obtain ⟨hown₁, hown₂⟩ := hown
    have hpos : m (decl.nodesInfo c t').rank ≠ 0 := by omega
    have hle : rsumArray (decl.template t').serLower m (decl.nodesInfo c t').rank ≤
        (decl.template t').serUpper := hown₁.trans hg.2
    obtain ⟨hlower, hupper⟩ := h.gblock_bounds hfmt hpos hle
    rw [← hsame] at hpos hle hlower hupper
    obtain ⟨hlower', hupper'⟩ := h'.gblock_bounds hfmt hpos hle
    exact ⟨hlower'.trans hlower.symm, hupper'.trans hupper.symm⟩

theorem dimMeets_other (h : decl.Built c a) (h' : decl.Built c' a') (ha : a.isAllocated = true)
    (hgblocks : decl.OwnsGblocks c) (hline : OnLine c c' (decl.dist t).1)
    (hdup : (decl.dist t).2 ≠ .duplication) {i' : Fin k} {t' : Fin d} {sub' : ℤ}
    (htar' : decl.target i' = some (t', sub')) (ht : t' ≠ t) :
    DimMeets a'.alignTemplate (decl.lower i') (decl.upper i') (decl.target i') := by
  have hmeets := (h.isAllocated_iff.mp ha).2 i'
  obtain ⟨-, -, -, -, -, -, hrep⟩ := (h.described i').aligned t' sub' htar'
  obtain ⟨-, -, -, -, -, -, hrep'⟩ := (h'.described i').aligned t' sub' htar'
  have hbounds := chunk_bounds_other h h' ha hgblocks hline hdup htar' ht
  rw [htar'] at hmeets ⊢
  intro hmanner
  rw [ContiguousMeets]
  cases hfmt : (decl.dist t').2 with
  | duplication =>
    rw [hfmt] at hrep'
    rw [hrep'] at hmanner
    simp at hmanner
  | block =>
    obtain ⟨hlower, hupper⟩ := hbounds (Or.inl hfmt)
    rw [hfmt] at hrep
    rw [hlower, hupper]
    exact hmeets (Or.inl hrep.1)
  | cyclic =>
    rw [hfmt] at hrep'
    rw [hrep'.1, if_pos rfl] at hmanner
    simp at hmanner
  | blockCyclic w =>
    rw [hfmt] at hrep'
    rw [hrep'.1] at hmanner
    split_ifs at hmanner
    · simp at hmanner
    · simp at hmanner
  | gblock m =>
    cases m with
    | none =>
      rw [hfmt] at hrep'
      exact hrep'.elim
    | some m =>
      obtain ⟨hlower, hupper⟩ := hbounds (Or.inr ⟨m, hfmt⟩)
      rw [hfmt] at hrep
      rw [hlower, hupper]
      exact hmeets (Or.inr hrep.1)

theorem contiguousInfo_allocSize {ai : ArrayInfo d} {chunk : TemplateChunk n}
    (h : ContiguousMeets (ai.serLower + sub) (ai.serUpper + sub) chunk) :
    (contiguousInfo ai chunk sub).1.allocSize = countTriplet
      (if ai.serLower + sub < chunk.parLower then chunk.parLower - sub else ai.serLower)
      (if chunk.parUpper < ai.serUpper + sub then chunk.parUpper - sub else ai.serUpper) 1 := by
  unfold contiguousInfo
  dsimp only
  rw [if_neg h.1, if_neg (not_lt.mpr h.2)]

theorem contiguousInfo_allocSize_congr {ai ai' : ArrayInfo d} {chunk chunk' : TemplateChunk n}
    (hl : ai'.serLower = ai.serLower) (hu : ai'.serUpper = ai.serUpper)
    (hlower : chunk'.parLower = chunk.parLower) (hupper : chunk'.parUpper = chunk.parUpper)
    (h : ContiguousMeets (ai.serLower + sub) (ai.serUpper + sub) chunk) :
    (contiguousInfo ai' chunk' sub).1.allocSize = (contiguousInfo ai chunk sub).1.allocSize := by
  have h' : ContiguousMeets (ai'.serLower + sub) (ai'.serUpper + sub) chunk' := by
    rw [ContiguousMeets, hl, hu, hlower, hupper]
    exact h
  rw [contiguousInfo_allocSize h, contiguousInfo_allocSize h', hl, hu, hlower, hupper]

/-- The nodes of a line allocate the same size in the other dimensions. -/
theorem allocSize_other (h : decl.Built c a) (h' : decl.Built c' a') (ha : a.isAllocated = true)
    (ha' : a'.isAllocated = true) (hgblocks : decl.OwnsGblocks c)
    (hline : OnLine c c' (decl.dist t).1) (hdup : (decl.dist t).2 ≠ .duplication)
    (htar : decl.target i = some (t, sub)) {i' : Fin k} (hi : i' ≠ i) :
    (a'.info i').allocSize = (a.info i').allocSize := by
  obtain ⟨howner, b₁, b₂, hb, hl, hu, hok, hinfo⟩ := h.info_written i'
  obtain ⟨howner', b₁', b₂', hb', hl', hu', hok', hinfo'⟩ := h'.info_written i'
  rw [hinfo, hinfo']
  cases htar' : decl.target i' with
  | none =>
    rw [htar'] at hok hok'
    cases hok
    cases hok'
    simp [alignArrayNotAligned, ArrayInfo.serSize, hl, hl', hu, hu']
  | some p =>
    obtain ⟨t', sub'⟩ := p
    have ht : t' ≠ t := by
      rintro rfl
      exact hi (decl.target_inj i' i t' sub' sub htar' htar)
    obtain ⟨-, -, -, hti, -, -, hrep⟩ := (h.described i').aligned t' sub' htar'
    obtain ⟨-, -, -, hti', -, -, hrep'⟩ := (h'.described i').aligned t' sub' htar'
    have hbounds := chunk_bounds_other h h' ha hgblocks hline hdup htar' ht
    have hmeets := (h.isAllocated_iff.mp ha).2 i'
    have ho : b₁.alignTemplate.isOwner = true := hb ▸ howner ha
    have ho' : b₁'.alignTemplate.isOwner = true := hb' ▸ howner' ha'
    rw [htar'] at hmeets
    rw [htar', alignInfo] at hok hok'
    rw [← hb] at hrep hmeets hti
    rw [← hb'] at hrep' hti'
    rw [← hb, ← hb'] at hbounds
    split_ifs at hok with hfixed
    split_ifs at hok' with hfixed'
    cases hfmt : (decl.dist t').2 with
    | duplication =>
      rw [hfmt] at hrep hrep'
      rw [hrep] at hok
      rw [hrep'] at hok'
      rw [alignArrayWith_members ho hok, alignArrayWith_members ho' hok']
      simp [duplicationInfo, ArrayInfo.serSize, hl, hl', hu, hu']
    | block =>
      obtain ⟨hlower, hupper⟩ := hbounds (Or.inl hfmt)
      rw [hfmt] at hrep hrep'
      rw [hrep.1] at hok
      rw [hrep'.1] at hok'
      rw [alignArrayWith_members ho hok, alignArrayWith_members ho' hok']
      apply contiguousInfo_allocSize_congr (hl'.trans hl.symm) (hu'.trans hu.symm) hlower hupper
      rw [hl, hu]
      exact hmeets (Or.inl hrep.1)
    | cyclic =>
      have hdup' : (decl.dist t').2 ≠ .duplication := by simp [hfmt]
      have hsame := other_dim_congr hline hdup ht hdup'
      have hni := h.nodesInfo_eq hdup'
      have hni' := h'.nodesInfo_eq hdup'
      rw [hsame] at hni'
      rw [← hb] at hni
      rw [← hb'] at hni'
      rw [hfmt] at hrep hrep'
      obtain ⟨hmanner, -, -, hstride⟩ := hrep
      obtain ⟨hmanner', -, -, hstride'⟩ := hrep'
      rw [if_pos rfl] at hmanner hmanner'
      rw [hmanner] at hok
      rw [hmanner'] at hok'
      rw [alignArrayWith_members ho hok, alignArrayWith_members ho' hok']
      simp only [cyclicInfo, hl, hl', hu, hu', hti, hti', hstride, hstride',
        TemplateChunk.nodesSize, TemplateChunk.nodesRank, hni, hni']
    | blockCyclic w =>
      have hdup' : (decl.dist t').2 ≠ .duplication := by simp [hfmt]
      have hsame := other_dim_congr hline hdup ht hdup'
      have hni := h.nodesInfo_eq hdup'
      have hni' := h'.nodesInfo_eq hdup'
      rw [hsame] at hni'
      rw [← hb] at hni
      rw [← hb'] at hni'
      rw [hfmt] at hrep hrep'
      obtain ⟨hmanner, -, hwidth, hstride⟩ := hrep
      obtain ⟨hmanner', -, hwidth', hstride'⟩ := hrep'
      rw [hmanner] at hok
      rw [hmanner'] at hok'
      by_cases hone : w = 1
      · rw [if_pos hone] at hok hok'
        rw [alignArrayWith_members ho hok, alignArrayWith_members ho' hok']
        simp only [cyclicInfo, hl, hl', hu, hu', hti, hti', hstride, hstride',
          TemplateChunk.nodesSize, TemplateChunk.nodesRank, hni, hni']
      · rw [if_neg hone] at hok hok'
        rw [alignArrayWith_members ho hok, alignArrayWith_members ho' hok']
        simp only [blockCyclicInfo, hl, hl', hu, hu', hti, hti', hwidth, hwidth', hstride, hstride',
          TemplateChunk.nodesSize, TemplateChunk.nodesRank, hni, hni']
    | gblock m =>
      cases m with
      | none =>
        rw [hfmt] at hrep
        exact hrep.elim
      | some m =>
        obtain ⟨hlower, hupper⟩ := hbounds (Or.inr ⟨m, hfmt⟩)
        rw [hfmt] at hrep hrep'
        rw [hrep.1] at hok
        rw [hrep'.1] at hok'
        rw [alignArrayWith_members ho hok, alignArrayWith_members ho' hok']
        apply contiguousInfo_allocSize_congr (hl'.trans hl.symm) (hu'.trans hu.symm) hlower hupper
        rw [hl, hu]
        exact hmeets (Or.inr hrep.1)

/-- A node next to one that holds a part of the array holds a part too when it does so in the
dimension of the line. -/
theorem isAllocated_of_line (h : decl.Built c a) (h' : decl.Built c' a') (ha : a.isAllocated = true)
    (hgblocks : decl.OwnsGblocks c) (hline : OnLine c c' (decl.dist t).1)
    (htar : decl.target i = some (t, sub))
    (hfmt : (decl.dist t).2 = .block ∨ (decl.dist t).2 = .cyclic)
    (howns : decl.OwnsDim c t → decl.OwnsDim c' t)
    (hmeets : DimMeets a'.alignTemplate (decl.lower i) (decl.upper i) (decl.target i)) :
    a'.isAllocated = true := by
  have hdup : (decl.dist t).2 ≠ .duplication := by
    intro hd
    rw [hd] at hfmt
    obtain hd | hd := hfmt
    · cases hd
    · cases hd
  apply h'.isAllocated_iff.mpr
  refine ⟨isOwner_of_line h h' hline hfmt howns (h.isAllocated_iff.mp ha).1, ?_⟩
  intro i'
  cases htar' : decl.target i' with
  | none => trivial
  | some p =>
    obtain ⟨t', sub'⟩ := p
    rw [← htar']
    by_cases ht : t' = t
    · subst ht
      rw [decl.target_inj i' i t' sub' sub htar' htar]
      exact hmeets
    · exact dimMeets_other h h' ha hgblocks hline hdup htar' ht

/-- Along a `block` dimension the array is allocated where the node owns an element. -/
theorem block_isAllocated_iff (h : decl.Built c a) (h' : decl.Built c' a')
    (ha : a.isAllocated = true)
    (hgblocks : decl.OwnsGblocks c) (hline : OnLine c c' (decl.dist t).1)
    (htar : decl.target i = some (t, sub)) (hfmt : (decl.dist t).2 = .block) :
    a'.isAllocated = true ↔ decl.lower i ≤ decl.blockStart c' t sub +
        ceilDiv (decl.template t).serSize (decl.nodesInfo c' t).size - 1 ∧
      decl.blockStart c' t sub ≤ decl.upper i := by
  obtain ⟨-, -, -, -, hlow, hup, hrep⟩ := (h'.described i).aligned t sub htar
  have hw := ceilDiv_pos (decl.template t).serSize_pos (decl.nodesInfo c' t).size_pos
  have hend := (decl.template t).serUpper_eq
  have hle := decl.lower_le_upper i
  constructor
  · intro ha'
    have hpart := h'.blockPart ha' htar hfmt
    have h₁ := hpart.parLower
    have h₂ := hpart.parUpper
    have h₃ := hpart.le
    omega
  · rintro ⟨hfirst, hlast⟩
    have hlt : ((decl.nodesInfo c' t).rank : ℤ) *
        ceilDiv (decl.template t).serSize (decl.nodesInfo c' t).size <
          (decl.template t).serSize := by
      rw [blockStart] at hlast
      omega
    apply isAllocated_of_line h h' ha hgblocks hline htar (Or.inl hfmt)
    · intro _
      rw [OwnsDim, hfmt]
      exact owns_block.mpr hlt
    · rw [htar]
      intro _
      obtain ⟨hlower, hupper⟩ := h'.block_bounds hfmt hlt
      have hnext : ∀ r w : ℤ, (decl.template t).serLower + (r + 1) * w - 1 =
          (decl.template t).serLower + r * w + w - 1 := fun r w => by ring
      rw [ContiguousMeets, hlower, hupper, hnext]
      rw [blockStart] at hfirst hlast
      omega

/-- Along a `cyclic` dimension it is enough to own an index of the template. -/
theorem cyclic_isAllocated (h : decl.Built c a) (h' : decl.Built c' a') (ha : a.isAllocated = true)
    (hgblocks : decl.OwnsGblocks c) (hline : OnLine c c' (decl.dist t).1)
    (htar : decl.target i = some (t, sub)) (hfmt : (decl.dist t).2 = .cyclic)
    (howns : decl.OwnsDim c t → decl.OwnsDim c' t) : a'.isAllocated = true := by
  apply isAllocated_of_line h h' ha hgblocks hline htar (Or.inr hfmt) howns
  obtain ⟨-, -, -, -, -, -, hrep⟩ := (h'.described i).aligned t sub htar
  rw [hfmt] at hrep
  rw [htar]
  intro hmanner
  rw [hrep.1, if_pos rfl] at hmanner
  simp at hmanner

theorem ownsDim_cyclic_iff (hfmt : (decl.dist t).2 = .cyclic) :
    decl.OwnsDim c t ↔ ((decl.nodesInfo c t).rank : ℤ) < (decl.template t).serSize := by
  rw [OwnsDim, hfmt]
  have hiff := @owns_cyclic (decl.template t) (decl.nodesInfo c t) 1 one_pos
  rw [mul_one] at hiff
  exact hiff

theorem Built.cyclic_parChunkWidth (h : decl.Built c a) (hfmt : (decl.dist t).2 = .cyclic) :
    (a.alignTemplate.chunk t).parChunkWidth =
      ceilDiv (decl.template t).serSize (decl.nodesInfo c t).size := by
  obtain ⟨u, u', hinfo, hnodes, hok, hchunk⟩ := h.chunk_written t
  have hni : u.ontoNodes.info (decl.dist t).1 = decl.nodesInfo c t := by rw [hnodes]; rfl
  have hone : ceilDiv (decl.template t).serSize 1 = (decl.template t).serSize := by
    simp [ceilDiv]
  rw [hfmt] at hok
  cases hok
  rw [hchunk]
  simp only [distTemplateCyclic, distTemplateCyclicWidth, Template.setChunk_chunk, hinfo, hni, hone,
    mul_one]

end ArrayDecl

end OmniCompiler.Xmp
