import OmniCompiler.Xmp.Template

/-!
# Distributing a template dimension (`xmp_template.c`)

The five `_XMP_dist_template_*` functions write one chunk and update the flag
`is_owner` shared by all dimensions. `distTemplate` selects among them the way
translated programs do, one call for each distributed dimension.
-/
namespace OmniCompiler.Xmp

open MachineInt

variable {d n : ℕ}

def Template.setChunk (t : Template d n) (i : Fin d) (chunk : TemplateChunk n) (isOwner : Bool) :
    Template d n :=
  { t with chunk := Function.update t.chunk i chunk, isOwner := isOwner }

@[simp] theorem Template.setChunk_chunk (t : Template d n) (i : Fin d) (chunk : TemplateChunk n)
    (isOwner : Bool) : (t.setChunk i chunk isOwner).chunk i = chunk := by
  simp [Template.setChunk]

@[simp] theorem Template.setChunk_isOwner (t : Template d n) (i : Fin d) (chunk : TemplateChunk n)
    (isOwner : Bool) : (t.setChunk i chunk isOwner).isOwner = isOwner := rfl

@[simp] theorem Template.setChunk_info (t : Template d n) (i : Fin d) (chunk : TemplateChunk n)
    (isOwner : Bool) : (t.setChunk i chunk isOwner).info = t.info := rfl

@[simp] theorem Template.setChunk_ontoNodes (t : Template d n) (i : Fin d)
    (chunk : TemplateChunk n) (isOwner : Bool) :
    (t.setChunk i chunk isOwner).ontoNodes = t.ontoNodes := rfl

def distTemplateDuplication (t : Template d n) (templateIndex : Fin d) : Template d n :=
  let ti := t.info templateIndex
  t.setChunk templateIndex
    { t.chunk templateIndex with
      parLower := ti.serLower
      parUpper := ti.serUpper
      parWidth := 1
      parStride := 1
      parChunkWidth := ti.serSize
      distManner := .duplication
      isRegularChunk := true
      ontoNodesIndex := none
      ontoNodesInfo := none }
    t.isOwner

/-- The members computed by `_XMP_dist_template_BLOCK` on a member node: the bounds,
and whether the node keeps its ownership. -/
def blockMembers (ti : TemplateInfo) (ni : NodesInfo) (chunkWidth oldUpper : ℤ) : ℤ × ℤ × Bool :=
  let nodesRank : ℤ := ni.rank
  let ownerNodesSize := ceilDiv ti.serSize chunkWidth
  let parLower := nodesRank * chunkWidth + ti.serLower
  if nodesRank = ownerNodesSize - 1 then (parLower, ti.serUpper, true)
  else if nodesRank ≥ ownerNodesSize then (parLower, oldUpper, false)
  else (parLower, parLower + chunkWidth - 1, true)

def distTemplateBlock (t : Template d n) (templateIndex : Fin d) (nodesIndex : Fin n) :
    Template d n :=
  let nodes := t.ontoNodes
  let chunk := t.chunk templateIndex
  let ti := t.info templateIndex
  let ni := nodes.info nodesIndex
  let chunkWidth := ceilDiv ti.serSize ni.size
  let members := if nodes.isMember then blockMembers ti ni chunkWidth chunk.parUpper
    else (chunk.parLower, chunk.parUpper, true)
  t.setChunk templateIndex
    { chunk with
      parLower := members.1
      parUpper := members.2.1
      parWidth := 1
      parStride := 1
      parChunkWidth := chunkWidth
      distManner := .block
      isRegularChunk := decide (ti.serSize.tmod ni.size = 0)
      ontoNodesIndex := some nodesIndex
      ontoNodesInfo := some ni }
    (t.isOwner && members.2.2)

/-- The members computed by `_XMP_dist_template_CYCLIC_WIDTH` on a member node. -/
def cyclicMembers (ti : TemplateInfo) (ni : NodesInfo) (width oldLower oldUpper : ℤ) :
    ℤ × ℤ × Bool :=
  let nodesSize : ℤ := ni.size
  let nodesRank : ℤ := ni.rank
  let templateSize := ceilDiv ti.serSize width
  if templateSize < nodesSize then
    if nodesRank < templateSize then
      let parIndex := ti.serLower + nodesRank * width
      (parIndex, parIndex, true)
    else (oldLower, oldUpper, false)
  else
    let div := templateSize.tdiv nodesSize
    let mod := templateSize.tmod nodesSize
    let parSize := if mod = 0 then div else if nodesRank ≥ mod then div else div + 1
    let parLower := ti.serLower + nodesRank * width
    (parLower, parLower + nodesSize * (parSize - 1) * width, true)

def distTemplateCyclicWidth (t : Template d n) (templateIndex : Fin d) (nodesIndex : Fin n)
    (width : ℤ) : Template d n :=
  let nodes := t.ontoNodes
  let chunk := t.chunk templateIndex
  let ti := t.info templateIndex
  let ni := nodes.info nodesIndex
  let nodesSize : ℤ := ni.size
  let templateSize := ceilDiv ti.serSize width
  let members := if nodes.isMember then cyclicMembers ti ni width chunk.parLower chunk.parUpper
    else (chunk.parLower, chunk.parUpper, true)
  t.setChunk templateIndex
    { chunk with
      parLower := members.1
      parUpper := members.2.1
      parWidth := width
      parStride := toInt (nodesSize * width)
      parChunkWidth := ceilDiv templateSize nodesSize * width
      distManner := if width = 1 then .cyclic else .blockCyclic
      isRegularChunk := decide (templateSize.tmod nodesSize = 0)
      ontoNodesIndex := some nodesIndex
      ontoNodesInfo := some ni }
    (t.isOwner && members.2.2)

def distTemplateCyclic (t : Template d n) (templateIndex : Fin d) (nodesIndex : Fin n) :
    Template d n :=
  distTemplateCyclicWidth t templateIndex nodesIndex 1

def distTemplateBlockCyclic (t : Template d n) (templateIndex : Fin d) (nodesIndex : Fin n)
    (width : ℤ) : Template d n :=
  distTemplateCyclicWidth t templateIndex nodesIndex width

/-- The running sums that replace the mapping array of a general block distribution. -/
def rsumArray (serLower : ℤ) (mappingArray : ℕ → ℤ) : ℕ → ℤ
  | 0 => serLower
  | i + 1 => rsumArray serLower mappingArray i + mappingArray i

/-- The flag and bounds that `_XMP_dist_template_GBLOCK` assigns. Unlike its siblings
it starts by clearing `is_owner` and sets it again for a node with a block. -/
def gblockMembers (ti : TemplateInfo) (ni : NodesInfo) (rsum : ℕ → ℤ) (isMember : Bool)
    (oldLower oldUpper : ℤ) : ℤ × ℤ × Bool :=
  let rank : ℕ := ni.rank
  if isMember ∧ rsum (rank + 1) ≠ rsum rank then
    let parLower := rsum rank
    if parLower ≤ ti.serUpper then (parLower, min ti.serUpper (rsum (rank + 1) - 1), true)
    else (parLower, oldUpper, false)
  else (oldLower, oldUpper, false)

/-- `mappingArray = none` is the null pointer of a deferred `gblock(*)`. -/
def distTemplateGblock (t : Template d n) (templateIndex : Fin d) (nodesIndex : Fin n)
    (mappingArray : Option (ℕ → ℤ)) : Except String (Template d n) :=
  let nodes := t.ontoNodes
  let chunk := t.chunk templateIndex
  let ti := t.info templateIndex
  let ni := nodes.info nodesIndex
  match mappingArray with
  | some mapping =>
    let rsum := rsumArray ti.serLower mapping
    if ti.serUpper ≥ rsum ni.size then
      .error "The size of the template exceeds the sum of the mapping array."
    else
      let members := gblockMembers ti ni rsum nodes.isMember chunk.parLower chunk.parUpper
      .ok <| t.setChunk templateIndex
        { chunk with
          parLower := members.1
          parUpper := members.2.1
          parWidth := 1
          parStride := 1
          parChunkWidth := members.2.1 - members.1 + 1
          distManner := .gblock
          mappingArray := rsum
          isRegularChunk := false
          ontoNodesIndex := some nodesIndex
          ontoNodesInfo := some ni }
        members.2.2
  | none =>
    .ok { t.setChunk templateIndex
        { chunk with
          distManner := .gblock
          isRegularChunk := false
          ontoNodesIndex := some nodesIndex
          ontoNodesInfo := some ni }
        t.isOwner with isFixed := false }

/-- A distribution format of the `distribute` directive, with its own arguments. -/
inductive DistFormat where
  | duplication
  | block
  | cyclic
  | blockCyclic (width : ℤ)
  | gblock (mappingArray : Option (ℕ → ℤ))

/-- The runtime call made for one dimension of a `distribute` directive. -/
def distTemplate (t : Template d n) (templateIndex : Fin d) (nodesIndex : Fin n) :
    DistFormat → Except String (Template d n)
  | .duplication => .ok (distTemplateDuplication t templateIndex)
  | .block => .ok (distTemplateBlock t templateIndex nodesIndex)
  | .cyclic => .ok (distTemplateCyclic t templateIndex nodesIndex)
  | .blockCyclic width => .ok (distTemplateBlockCyclic t templateIndex nodesIndex width)
  | .gblock mapping => distTemplateGblock t templateIndex nodesIndex mapping

/-! ## What one call leaves in the chunk -/

theorem NodesInfo.size_pos (ni : NodesInfo) : (0 : ℤ) < ni.size := by
  exact_mod_cast ni.rank.pos

theorem NodesInfo.size_inInt (ni : NodesInfo) : InInt ni.size :=
  ⟨by have := ni.size_pos; omega, by exact_mod_cast ni.size_lt⟩

theorem TemplateInfo.serUpper_eq (ti : TemplateInfo) :
    ti.serUpper = ti.serLower + ti.serSize - 1 := by
  unfold TemplateInfo.serSize
  ring

theorem blockMembers_spec (ti : TemplateInfo) (ni : NodesInfo) {w : ℤ} (hw : 0 < w) (old : ℤ) :
    ((blockMembers ti ni w old).2.2 = true ↔ (ni.rank : ℤ) * w < ti.serSize) ∧
      (blockMembers ti ni w old).1 = ti.serLower + ni.rank * w ∧
      ((blockMembers ti ni w old).2.2 = true → (blockMembers ti ni w old).2.1 =
        min ti.serUpper (ti.serLower + (ni.rank + 1) * w - 1)) := by
  have hN := ti.serUpper_eq
  have h0 := lt_ceilDiv_iff (q := ni.rank) ti.serSize_pos.le hw
  have h1 := lt_ceilDiv_iff (q := ni.rank + 1) ti.serSize_pos.le hw
  have hr : ((ni.rank : ℤ) + 1) * w = ni.rank * w + w := by ring
  unfold blockMembers
  dsimp only
  split_ifs with hlast hout
  · have hge : ¬ ((ni.rank : ℤ) + 1) * w < ti.serSize := by rw [← h1]; omega
    refine ⟨by simp; omega, by ring, fun _ => ?_⟩
    rw [min_eq_left (by omega)]
  · exact ⟨by simp; omega, by ring, by simp⟩
  · have hin : ((ni.rank : ℤ) + 1) * w < ti.serSize := by rw [← h1]; omega
    refine ⟨by simp; omega, by ring, fun _ => ?_⟩
    rw [min_eq_right (by omega), hr]
    ring

/-- The last of the `P`-spaced blocks of a rank: `m` further blocks fit after the first. -/
theorem cyclicMembers_spec (ti : TemplateInfo) (ni : NodesInfo) {w : ℤ} (hw : 0 < w)
    (oldLower oldUpper : ℤ) :
    ((cyclicMembers ti ni w oldLower oldUpper).2.2 = true ↔ (ni.rank : ℤ) * w < ti.serSize) ∧
      ((cyclicMembers ti ni w oldLower oldUpper).2.2 = true →
        (cyclicMembers ti ni w oldLower oldUpper).1 = ti.serLower + ni.rank * w ∧
        ∃ m : ℤ, 0 ≤ m ∧ (cyclicMembers ti ni w oldLower oldUpper).2.1 =
            ti.serLower + ni.rank * w + m * (ni.size * w) ∧
          ∀ k : ℤ, k ≤ m ↔ (ni.rank + k * ni.size) * w < ti.serSize) := by
  have hP := ni.size_pos
  have hr0 : (0 : ℤ) ≤ ni.rank := by positivity
  have hr1 : (ni.rank : ℤ) < ni.size := by exact_mod_cast ni.rank.isLt
  have hlt : ∀ q : ℤ, q < ceilDiv ti.serSize w ↔ q * w < ti.serSize := fun q =>
    lt_ceilDiv_iff ti.serSize_pos.le hw
  have hT := ceilDiv_pos ti.serSize_pos hw
  unfold cyclicMembers
  dsimp only
  set T := ceilDiv ti.serSize w with hTdef
  split_ifs with hsmall hrank hmod hge
  · refine ⟨by simpa using (hlt _).mp hrank, fun _ => ⟨rfl, 0, le_rfl, by ring, fun k => ?_⟩⟩
    rw [← hlt]
    constructor
    · intro hk
      nlinarith
    · intro hk
      by_contra hc
      nlinarith
  · exact ⟨by simpa using fun h => hrank ((hlt _).mpr h), by simp⟩
  all_goals
    have hdm := Int.tmod_add_tdiv_mul T ni.size
    have hm0 := Int.tmod_nonneg (ni.size : ℤ) hT.le
    have hm1 := Int.tmod_lt_of_pos T hP
    set q := T.tdiv ni.size with hq
    set m := T.tmod ni.size with hm
    have hq1 : 1 ≤ q := by
      by_contra hc
      nlinarith
    refine ⟨by simpa using (hlt _).mp (by omega), fun _ => ⟨rfl, ?_⟩⟩
  · refine ⟨q - 1, by omega, by ring, fun k => ?_⟩
    rw [← hlt]
    constructor <;> intro hk
    · nlinarith
    · by_contra hc
      nlinarith
  · refine ⟨q - 1, by omega, by ring, fun k => ?_⟩
    rw [← hlt]
    constructor <;> intro hk
    · nlinarith
    · by_contra hc
      nlinarith
  · refine ⟨q, by omega, by ring, fun k => ?_⟩
    rw [← hlt]
    constructor <;> intro hk
    · nlinarith
    · by_contra hc
      nlinarith

theorem gblockMembers_spec (ti : TemplateInfo) (ni : NodesInfo) (m : ℕ → ℤ) (isMember : Bool)
    (oldLower oldUpper : ℤ) :
    let rsum := rsumArray ti.serLower m
    let members := gblockMembers ti ni rsum isMember oldLower oldUpper
    (members.2.2 = true ↔ isMember = true ∧ m ni.rank ≠ 0 ∧ rsum ni.rank ≤ ti.serUpper) ∧
      (members.2.2 = true →
        members.1 = rsum ni.rank ∧ members.2.1 = min ti.serUpper (rsum (ni.rank + 1) - 1)) := by
  intro rsum members
  have hstep : rsum (ni.rank + 1) ≠ rsum ni.rank ↔ m ni.rank ≠ 0 := by
    change rsum ni.rank + m ni.rank ≠ rsum ni.rank ↔ _
    omega
  have hmem : members = gblockMembers ti ni rsum isMember oldLower oldUpper := rfl
  unfold gblockMembers at hmem
  dsimp only at hmem
  split_ifs at hmem with h1 h2 <;> rw [hstep] at h1
  · simp [hmem, h1, h2]
  · simp [hmem, h2]
  · simp only [hmem, Bool.false_eq_true, false_iff, false_imp_iff, and_true]
    tauto

end OmniCompiler.Xmp
