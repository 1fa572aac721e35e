import OmniCompiler.Arithmetic.BlockCyclic
import OmniCompiler.Xmp.Distribution
import Mathlib.Order.CompletePartialOrder

/-!
# Ownership of template indices

`Owned` states who owns an index under each distribution format. The runtime answers
the same question in four places, each with its own arithmetic: the chunk written by
`_XMP_dist_template_*`, `_XMP_calc_template_owner_SCALAR`,
`_XMP_calc_template_par_triplet` and `xmpf_loop_test_skip__`. Each is related to
`Owned` here, and the four agree because of it.
-/
namespace OmniCompiler.Xmp

open MachineInt BlockCyclic

variable {d n : ℕ}

/-! ## The runtime's ownership queries -/

/-- The owner, counted from zero, from the lower bound of the dimension and its chunk. The result
is an `int`, and `_XMP_fatal` ends the program on a duplicated dimension. -/
def chunkOwnerScalar (serLower : ℤ) (chunk : TemplateChunk n) (refIndex : ℤ) : Except String ℤ :=
  match chunk.distManner with
  | .block =>
    if chunk.parChunkWidth = 0 then .error "division by zero"
    else .ok (toInt ((toULL (refIndex - serLower)).tdiv chunk.parChunkWidth))
  | .cyclic =>
    if chunk.parStride = 0 then .error "division by zero"
    else .ok (toInt ((refIndex - serLower).tmod chunk.parStride))
  | .blockCyclic =>
    let width := toInt chunk.parWidth
    if width = 0 ∨ chunk.parStride.tdiv width = 0 then .error "division by zero"
    else .ok (toInt (((refIndex - serLower).tdiv width).tmod (chunk.parStride.tdiv width)))
  | .gblock =>
    let m := chunk.mappingArray
    let np := chunk.ontoNodesInfo.elim 0 NodesInfo.size
    match (List.range np).find? fun i => m i ≤ refIndex ∧ refIndex < m (i + 1) with
    | some i => .ok i
    | none => .ok (-1)
  | .duplication => .error "unknown distribute manner"

def calcTemplateOwnerScalar (t : Template d n) (dimIndex : Fin d) (refIndex : ℤ) :
    Except String ℤ :=
  chunkOwnerScalar (t.info dimIndex).serLower (t.chunk dimIndex) refIndex

/-- The triplet of rank `nodesRank`, computed on any node; `none` is
`_XMP_N_INT_FALSE`. -/
def calcTemplateParTriplet (t : Template d n) (templateIndex : Fin d) (nodesRank : ℤ) :
    Except String (Option (ℤ × ℤ × ℤ)) :=
  let ti := t.info templateIndex
  let tc := t.chunk templateIndex
  match tc.distManner with
  | .duplication => .ok (some (ti.serLower, ti.serUpper, 1))
  | .block =>
    let parChunkWidth := toInt tc.parChunkWidth
    let parLower := nodesRank * parChunkWidth + ti.serLower
    let ownerNodesSize := ceilDiv ti.serSize parChunkWidth
    if nodesRank = ownerNodesSize - 1 then .ok (some (parLower, ti.serUpper, 1))
    else if nodesRank ≥ ownerNodesSize then .ok none
    else .ok (some (parLower, parLower + parChunkWidth - 1, 1))
  | .cyclic | .blockCyclic =>
    let nodesSize := tc.nodesSize
    let parWidth := toInt tc.parWidth
    let templateSize := ceilDiv ti.serSize parWidth
    let parStride := toInt (nodesSize * parWidth)
    if templateSize < nodesSize then
      if nodesRank < templateSize then
        let parIndex := ti.serLower + nodesRank * parWidth
        .ok (some (parIndex, parIndex, parStride))
      else .ok none
    else
      let div := templateSize.tdiv nodesSize
      let mod := templateSize.tmod nodesSize
      let parSize := if mod = 0 then div else if nodesRank ≥ mod then div else div + 1
      let parLower := ti.serLower + nodesRank * parWidth
      .ok (some (parLower, parLower + nodesSize * (parSize - 1) * parWidth, parStride))
  | .gblock => .error "unknown distribution manner"

/-- `_XMP_object_ref_t` of a loop nest: the template dimension and offset of each index. -/
structure ObjectRef (d n : ℕ) where
  tDesc : Template d n
  refIndex : ℕ → Fin d
  refOffset : ℕ → ℤ

/-- Returns zero exactly when the iteration is to be executed on this node. -/
def loopTestSkip (rp : ObjectRef d n) (rdim : ℕ) (i : ℤ) : ℤ :=
  let index := i + rp.refOffset rdim
  let tdim := rp.refIndex rdim
  let cp := rp.tDesc.chunk tdim
  let base := (rp.tDesc.info tdim).serLower
  let skip : Bool := match cp.distManner with
    | .duplication => false
    | .block | .gblock => index < cp.parLower ∨ cp.parUpper < index
    | .cyclic => (index - base).tmod cp.nodesSize ≠ cp.nodesRank
    | .blockCyclic =>
      let w := toInt cp.parWidth
      ((index - base).tmod (toInt (w * cp.nodesSize))).tdiv w ≠ cp.nodesRank
  if skip then 1 else 0

/-! ## Who owns an index -/

/-- Ownership of template index `g` by the node with coordinates `ni`. A deferred
general block dimension is not distributed yet and constrains nobody. -/
def Owned (ti : TemplateInfo) (ni : NodesInfo) : DistFormat → ℤ → Prop
  | .duplication, _ => True
  | .block, g => (g - ti.serLower) / ceilDiv ti.serSize ni.size = ni.rank
  | .cyclic, g => owner 1 ni.size (g - ti.serLower) = ni.rank
  | .blockCyclic w, g => owner w ni.size (g - ti.serLower) = ni.rank
  | .gblock (some m), g =>
    rsumArray ti.serLower m ni.rank ≤ g ∧ g < rsumArray ti.serLower m (ni.rank + 1)
  | .gblock none, _ => True

instance (ti : TemplateInfo) (ni : NodesInfo) (fmt : DistFormat) (g : ℤ) :
    Decidable (Owned ti ni fmt g) :=
  match fmt with
  | .duplication => inferInstanceAs (Decidable True)
  | .block | .cyclic | .blockCyclic _ => inferInstanceAs (Decidable (_ = _))
  | .gblock (some _) => inferInstanceAs (Decidable (_ ∧ _))
  | .gblock none => inferInstanceAs (Decidable True)

def TemplateInfo.Contains (ti : TemplateInfo) (g : ℤ) : Prop := ti.serLower ≤ g ∧ g ≤ ti.serUpper

instance (ti : TemplateInfo) (g : ℤ) : Decidable (ti.Contains g) :=
  inferInstanceAs (Decidable (_ ∧ _))

/-- Indices described by a block triplet: runs of `width` starting every `stride`
from `lower` on, the last run starting at `upper` at the latest, cut at `cut`. -/
def tripletSet (lower upper stride width cut : ℤ) : Set ℤ :=
  {g | ∃ k j : ℤ, 0 ≤ k ∧ 0 ≤ j ∧ j < width ∧ lower + k * stride ≤ upper ∧
    g = lower + k * stride + j ∧ g ≤ cut}

/-- Indices described by the chunk on its own node. -/
def chunkSet (t : Template d n) (i : Fin d) : Set ℤ :=
  if t.isOwner then
    tripletSet (t.chunk i).parLower (t.chunk i).parUpper (t.chunk i).parStride
      (t.chunk i).parWidth (t.info i).serUpper
  else ∅

/-- The descriptors of all ranks of node dimension `j` after dimension `i` alone has
been distributed: `tr r` is the template as it stands on rank `r`. -/
structure Distributed (t : Template d n) (i : Fin d) (nodes : Nodes n) (j : Fin n)
    (fmt : DistFormat) (tr : Fin (nodes.info j).size → Template d n) : Prop where
  member : nodes.isMember = true
  run : ∀ r, ∃ fresh, distTemplate (initTemplateChunk t (nodes.onRank j r) fresh) i j fmt =
    .ok (tr r)

/-- The regular formats with the widths the language admits. -/
def DistFormat.Regular : DistFormat → Prop
  | .block | .cyclic => True
  | .blockCyclic w => 1 ≤ w
  | .duplication | .gblock _ => False

instance (fmt : DistFormat) : Decidable fmt.Regular :=
  match fmt with
  | .block | .cyclic => inferInstanceAs (Decidable True)
  | .blockCyclic _ => inferInstanceAs (Decidable (_ ≤ _))
  | .duplication | .gblock _ => inferInstanceAs (Decidable False)

/-- The stride of the chunk, and with it the width, is in the range of `int`. -/
def DistFormat.StrideInInt (P : ℕ) : DistFormat → Prop
  | .blockCyclic w => InInt (P * w)
  | .duplication | .block | .cyclic | .gblock _ => True

instance (P : ℕ) (fmt : DistFormat) : Decidable (fmt.StrideInInt P) :=
  match fmt with
  | .blockCyclic _ => inferInstanceAs (Decidable (InInt _))
  | .duplication | .block | .cyclic | .gblock _ => inferInstanceAs (Decidable True)

/-! ## The chunk of one node after one call -/

/-- State of a dimension distributed by `_XMP_dist_template_BLOCK`. -/
structure BlockChunk (ti : TemplateInfo) (ni : NodesInfo) (t : Template d n) (i : Fin d) :
    Prop where
  info : t.info i = ti
  manner : (t.chunk i).distManner = .block
  width : (t.chunk i).parWidth = 1
  stride : (t.chunk i).parStride = 1
  chunkWidth : (t.chunk i).parChunkWidth = ceilDiv ti.serSize ni.size
  nodesInfo : (t.chunk i).ontoNodesInfo = some ni
  isOwner : t.isOwner = true ↔ (ni.rank : ℤ) * ceilDiv ti.serSize ni.size < ti.serSize
  lower : (t.chunk i).parLower = ti.serLower + ni.rank * ceilDiv ti.serSize ni.size
  upper : t.isOwner = true → (t.chunk i).parUpper =
    min ti.serUpper (ti.serLower + (ni.rank + 1) * ceilDiv ti.serSize ni.size - 1)

/-- State of a dimension distributed by `_XMP_dist_template_CYCLIC_WIDTH`. -/
structure CyclicChunk (w : ℤ) (ti : TemplateInfo) (ni : NodesInfo) (t : Template d n) (i : Fin d) :
    Prop where
  info : t.info i = ti
  manner : (t.chunk i).distManner = if w = 1 then .cyclic else .blockCyclic
  width : (t.chunk i).parWidth = w
  stride : (t.chunk i).parStride = toInt (ni.size * w)
  nodesInfo : (t.chunk i).ontoNodesInfo = some ni
  isOwner : t.isOwner = true ↔ (ni.rank : ℤ) * w < ti.serSize
  bounds : t.isOwner = true → (t.chunk i).parLower = ti.serLower + ni.rank * w ∧
    ∃ m : ℤ, 0 ≤ m ∧ (t.chunk i).parUpper = ti.serLower + ni.rank * w + m * (ni.size * w) ∧
      ∀ k : ℤ, k ≤ m ↔ (ni.rank + k * ni.size) * w < ti.serSize

/-- State of a dimension distributed by `_XMP_dist_template_GBLOCK`. -/
structure GblockChunk (m : ℕ → ℤ) (ti : TemplateInfo) (ni : NodesInfo) (t : Template d n)
    (i : Fin d) : Prop where
  info : t.info i = ti
  manner : (t.chunk i).distManner = .gblock
  width : (t.chunk i).parWidth = 1
  stride : (t.chunk i).parStride = 1
  mapping : (t.chunk i).mappingArray = rsumArray ti.serLower m
  nodesInfo : (t.chunk i).ontoNodesInfo = some ni
  covers : ti.serUpper < rsumArray ti.serLower m ni.size
  isOwner : t.isOwner = true ↔ m ni.rank ≠ 0 ∧ rsumArray ti.serLower m ni.rank ≤ ti.serUpper
  bounds : t.isOwner = true → (t.chunk i).parLower = rsumArray ti.serLower m ni.rank ∧
    (t.chunk i).parUpper = min ti.serUpper (rsumArray ti.serLower m (ni.rank + 1) - 1)

/-- State of a dimension passed to `_XMP_dist_template_DUPLICATION`. -/
structure DuplicationChunk (ti : TemplateInfo) (t : Template d n) (i : Fin d) : Prop where
  info : t.info i = ti
  manner : (t.chunk i).distManner = .duplication
  width : (t.chunk i).parWidth = 1
  stride : (t.chunk i).parStride = 1
  isOwner : t.isOwner = true
  lower : (t.chunk i).parLower = ti.serLower
  upper : (t.chunk i).parUpper = ti.serUpper

theorem NodesInfo.width_inInt (ni : NodesInfo) {w : ℤ} (hw : 0 < w) (hs : InInt (ni.size * w)) :
    InInt w := by
  have hP := ni.size_pos
  have hle : 1 * w ≤ ni.size * w := mul_le_mul_of_nonneg_right (by omega) hw.le
  have hlt := hs.2
  constructor <;> omega

theorem NodesInfo.stride_one (ni : NodesInfo) : InInt (ni.size * 1) := by
  rw [mul_one]
  exact ni.size_inInt

theorem CyclicChunk.stride_eq {w : ℤ} {ti : TemplateInfo} {ni : NodesInfo} {t : Template d n}
    {i : Fin d} (h : CyclicChunk w ti ni t i) (hs : InInt (ni.size * w)) :
    (t.chunk i).parStride = ni.size * w := by
  rw [h.stride, toInt_of_inInt hs]

theorem distTemplateBlock_chunk (t : Template d n) (i : Fin d) (j : Fin n)
    (hm : t.ontoNodes.isMember = true) (ho : t.isOwner = true) :
    BlockChunk (t.info i) (t.ontoNodes.info j) (distTemplateBlock t i j) i := by
  have hw := ceilDiv_pos (t.info i).serSize_pos (t.ontoNodes.info j).size_pos
  have hspec := blockMembers_spec (t.info i) (t.ontoNodes.info j) hw (t.chunk i).parUpper
  constructor <;> simp only [distTemplateBlock, Template.setChunk_info, Template.setChunk_chunk,
    Template.setChunk_isOwner, hm, ho, if_true, Bool.true_and]
  · exact hspec.1
  · exact hspec.2.1
  · exact hspec.2.2

theorem distTemplateCyclicWidth_chunk (t : Template d n) (i : Fin d) (j : Fin n) {w : ℤ}
    (hw : 0 < w) (hm : t.ontoNodes.isMember = true) (ho : t.isOwner = true) :
    CyclicChunk w (t.info i) (t.ontoNodes.info j) (distTemplateCyclicWidth t i j w) i := by
  have hspec := cyclicMembers_spec (t.info i) (t.ontoNodes.info j) hw (t.chunk i).parLower
    (t.chunk i).parUpper
  constructor <;> simp only [distTemplateCyclicWidth, Template.setChunk_info,
    Template.setChunk_chunk, Template.setChunk_isOwner, hm, ho, if_true, Bool.true_and]
  · exact hspec.1
  · exact hspec.2

theorem distTemplateGblock_chunk {t t' : Template d n} {i : Fin d} {j : Fin n} {m : ℕ → ℤ}
    (hm : t.ontoNodes.isMember = true) (h : distTemplateGblock t i j (some m) = .ok t') :
    GblockChunk m (t.info i) (t.ontoNodes.info j) t' i := by
  unfold distTemplateGblock at h
  dsimp only at h
  split_ifs at h with hcover
  cases h
  have hspec := gblockMembers_spec (t.info i) (t.ontoNodes.info j) m t.ontoNodes.isMember
    (t.chunk i).parLower (t.chunk i).parUpper
  simp only [hm, true_and] at hspec
  have hcov : (t.info i).serUpper < rsumArray (t.info i).serLower m (t.ontoNodes.info j).size := by
    omega
  refine ⟨rfl, ?_, ?_, ?_, ?_, ?_, hcov, ?_, ?_⟩ <;> simp only [Template.setChunk_chunk,
    Template.setChunk_isOwner, hm]
  · exact hspec.1
  · exact hspec.2

namespace Distributed

variable {t : Template d n} {i : Fin d} {nodes : Nodes n} {j : Fin n}
variable {tr : Fin (nodes.info j).size → Template d n}

theorem block (h : Distributed t i nodes j .block tr) (r : Fin (nodes.info j).size) :
    BlockChunk (t.info i) ⟨_, r, (nodes.info j).size_lt⟩ (tr r) i := by
  obtain ⟨fresh, hrun⟩ := h.run r
  simp only [distTemplate, Except.ok.injEq] at hrun
  rw [← hrun]
  simpa [initTemplateChunk] using
    distTemplateBlock_chunk (initTemplateChunk t (nodes.onRank j r) fresh) i j h.member h.member

theorem cyclicWidth {w : ℤ} (hw : 0 < w) (hm : nodes.isMember = true)
    (run : ∀ r, ∃ fresh, distTemplateCyclicWidth (initTemplateChunk t (nodes.onRank j r) fresh) i j
      w = tr r) (r : Fin (nodes.info j).size) :
    CyclicChunk w (t.info i) ⟨_, r, (nodes.info j).size_lt⟩ (tr r) i := by
  obtain ⟨fresh, hrun⟩ := run r
  rw [← hrun]
  simpa [initTemplateChunk] using
    distTemplateCyclicWidth_chunk (initTemplateChunk t (nodes.onRank j r) fresh) i j hw hm hm

theorem cyclic (h : Distributed t i nodes j .cyclic tr) (r : Fin (nodes.info j).size) :
    CyclicChunk 1 (t.info i) ⟨_, r, (nodes.info j).size_lt⟩ (tr r) i := by
  refine cyclicWidth one_pos h.member (fun r => ?_) r
  obtain ⟨fresh, hrun⟩ := h.run r
  exact ⟨fresh, by simpa [distTemplate, distTemplateCyclic] using hrun⟩

theorem blockCyclic {w : ℤ} (hw : 0 < w) (h : Distributed t i nodes j (.blockCyclic w) tr)
    (r : Fin (nodes.info j).size) :
    CyclicChunk w (t.info i) ⟨_, r, (nodes.info j).size_lt⟩ (tr r) i := by
  refine cyclicWidth hw h.member (fun r => ?_) r
  obtain ⟨fresh, hrun⟩ := h.run r
  exact ⟨fresh, by simpa [distTemplate, distTemplateBlockCyclic] using hrun⟩

theorem duplication (h : Distributed t i nodes j .duplication tr) (r : Fin (nodes.info j).size) :
    DuplicationChunk (t.info i) (tr r) i := by
  obtain ⟨fresh, hrun⟩ := h.run r
  simp only [distTemplate, Except.ok.injEq] at hrun
  rw [← hrun]
  constructor <;> simp [distTemplateDuplication, initTemplateChunk, h.member]

theorem gblock {m : ℕ → ℤ} (h : Distributed t i nodes j (.gblock (some m)) tr)
    (r : Fin (nodes.info j).size) :
    GblockChunk m (t.info i) ⟨_, r, (nodes.info j).size_lt⟩ (tr r) i := by
  obtain ⟨fresh, hrun⟩ := h.run r
  simpa [initTemplateChunk] using distTemplateGblock_chunk h.member hrun

end Distributed

/-! ## Every query answers `Owned` -/

theorem mem_tripletSet_one {lower upper cut g : ℤ} :
    g ∈ tripletSet lower upper 1 1 cut ↔ lower ≤ g ∧ g ≤ upper ∧ g ≤ cut := by
  constructor
  · rintro ⟨k, j, h0, h1, h2, h3, rfl, h4⟩
    omega
  · rintro ⟨h0, h1, h2⟩
    exact ⟨g - lower, 0, by omega, le_rfl, one_pos, by omega, by omega, h2⟩

/-- Runs of `w` spaced by `P * w` whose last start is bounded by the template size are
the owned indices of a block-cyclic layout. -/
theorem mem_tripletSet_cyclic {ti : TemplateInfo} {ni : NodesInfo} {w m g : ℤ} (hw : 0 < w)
    (hm : ∀ k : ℤ, k ≤ m ↔ (ni.rank + k * ni.size) * w < ti.serSize) :
    g ∈ tripletSet (ti.serLower + ni.rank * w) (ti.serLower + ni.rank * w + m * (ni.size * w))
        (ni.size * w) w ti.serUpper ↔
      ti.Contains g ∧ owner w ni.size (g - ti.serLower) = ni.rank := by
  have hP := ni.size_pos
  have hr0 : (0 : ℤ) ≤ ni.rank := by positivity
  have hr1 : (ni.rank : ℤ) < ni.size := by exact_mod_cast ni.rank.isLt
  have hPw : 0 < ni.size * w := by positivity
  have hN := ti.serUpper_eq
  constructor
  · rintro ⟨k, j, h0, h1, h2, -, rfl, h4⟩
    have hk : 0 ≤ k * (ni.size * w) := by positivity
    have hrw : 0 ≤ (ni.rank : ℤ) * w := by positivity
    exact ⟨⟨by omega, h4⟩, (owner_eq_iff hw hr0 hr1 _).mpr ⟨k, j, h1, h2, by ring⟩⟩
  · rintro ⟨⟨h0, h1⟩, ho⟩
    obtain ⟨k, j, hk, hj0, hj1, hg⟩ :=
      (owner_eq_iff_of_nonneg hw hr0 hr1 (by omega : 0 ≤ g - ti.serLower)).mp ho
    have hlt : (ni.rank + k * ni.size) * w < ti.serSize := by omega
    refine ⟨k, j, hk, hj0, hj1, ?_, by linarith, h1⟩
    have := mul_le_mul_of_nonneg_right ((hm k).mpr hlt) hPw.le
    linarith

section Queries

variable {ti : TemplateInfo} {ni : NodesInfo} {t : Template d n} {i : Fin d} {w : ℤ}

theorem owned_block_iff {g : ℤ} : Owned ti ni .block g ↔
    ni.rank * ceilDiv ti.serSize ni.size ≤ g - ti.serLower ∧
      g - ti.serLower < ni.rank * ceilDiv ti.serSize ni.size + ceilDiv ti.serSize ni.size :=
  Int.ediv_eq_iff_of_pos (ceilDiv_pos ti.serSize_pos ni.size_pos)

theorem BlockChunk.mem_chunkSet (h : BlockChunk ti ni t i) (g : ℤ) :
    g ∈ chunkSet t i ↔ ti.Contains g ∧ Owned ti ni .block g := by
  have hN := ti.serUpper_eq
  have hW := ceilDiv_pos ti.serSize_pos ni.size_pos
  have hr0 : (0 : ℤ) ≤ ni.rank * ceilDiv ti.serSize ni.size := by positivity
  have hr1 : ((ni.rank : ℤ) + 1) * ceilDiv ti.serSize ni.size =
      ni.rank * ceilDiv ti.serSize ni.size + ceilDiv ti.serSize ni.size := by ring
  have ho := h.isOwner
  rw [owned_block_iff, TemplateInfo.Contains, chunkSet]
  split_ifs with hown
  · rw [h.lower, h.upper hown, h.stride, h.width, h.info, mem_tripletSet_one, le_min_iff, hr1]
    omega
  · rw [Bool.not_eq_true] at hown
    simp only [hown, Bool.false_eq_true, false_iff] at ho
    simp only [Set.mem_empty_iff_false, false_iff]
    omega

theorem CyclicChunk.mem_chunkSet (h : CyclicChunk w ti ni t i) (hw : 0 < w)
    (hs : InInt (ni.size * w)) (g : ℤ) :
    g ∈ chunkSet t i ↔ ti.Contains g ∧ owner w ni.size (g - ti.serLower) = ni.rank := by
  rw [chunkSet]
  split_ifs with hown
  · obtain ⟨hl, m, -, hu, hm⟩ := h.bounds hown
    rw [hl, hu, h.stride_eq hs, h.width, h.info]
    exact mem_tripletSet_cyclic hw hm
  · have hr0 : (0 : ℤ) ≤ ni.rank := by positivity
    have hr1 : (ni.rank : ℤ) < ni.size := by exact_mod_cast ni.rank.isLt
    have hP := ni.size_pos
    have hN := ti.serUpper_eq
    have hge : ¬ (ni.rank : ℤ) * w < ti.serSize := fun hlt => hown (h.isOwner.mpr hlt)
    simp only [Set.mem_empty_iff_false, false_iff, not_and]
    rintro ⟨h0, h1⟩ ho
    obtain ⟨k, j, hk, hj0, hj1, hg⟩ :=
      (owner_eq_iff_of_nonneg hw hr0 hr1 (by omega : 0 ≤ g - ti.serLower)).mp ho
    have : 0 ≤ k * ni.size * w := by positivity
    linarith

theorem DuplicationChunk.mem_chunkSet (h : DuplicationChunk ti t i) (g : ℤ) :
    g ∈ chunkSet t i ↔ ti.Contains g := by
  rw [chunkSet, if_pos h.isOwner, h.lower, h.upper, h.stride, h.width, h.info, mem_tripletSet_one,
    and_self]
  rfl

/-- No sign condition on the mapping array: the chunk follows its running sums. -/
theorem GblockChunk.mem_chunkSet {m : ℕ → ℤ} (h : GblockChunk m ti ni t i) (g : ℤ) :
    g ∈ chunkSet t i ↔ Owned ti ni (.gblock (some m)) g ∧ g ≤ ti.serUpper := by
  have hstep : rsumArray ti.serLower m (ni.rank + 1) =
      rsumArray ti.serLower m ni.rank + m ni.rank := rfl
  have ho := h.isOwner
  rw [Owned, chunkSet]
  split_ifs with hown
  · obtain ⟨hl, hu⟩ := h.bounds hown
    rw [hl, hu, h.stride, h.width, h.info, mem_tripletSet_one, le_min_iff]
    omega
  · simp only [Set.mem_empty_iff_false, false_iff]
    rintro ⟨⟨h0, h1⟩, h2⟩
    exact hown (ho.mpr ⟨by omega, by omega⟩)

theorem serLower_le_rsumArray (serLower : ℤ) {m : ℕ → ℤ} {k : ℕ} (hm : ∀ i < k, 0 ≤ m i) :
    serLower ≤ rsumArray serLower m k := by
  induction k with
  | zero => exact le_rfl
  | succ k ih =>
    have h0 := ih fun i hi => hm i (by omega)
    have h1 := hm k (by omega)
    rw [rsumArray]
    omega

theorem GblockChunk.mem_chunkSet_of_nonneg {m : ℕ → ℤ} (h : GblockChunk m ti ni t i)
    (hm : ∀ k < ni.size, 0 ≤ m k) (g : ℤ) :
    g ∈ chunkSet t i ↔ ti.Contains g ∧ Owned ti ni (.gblock (some m)) g := by
  have hle := serLower_le_rsumArray ti.serLower fun k hk => hm k (hk.trans ni.rank.isLt)
  rw [h.mem_chunkSet]
  simp only [Owned, TemplateInfo.Contains]
  omega

theorem BlockChunk.ownerScalar (h : BlockChunk ti ni t i) {g : ℤ} (hg : ti.Contains g) :
    calcTemplateOwnerScalar t i g = .ok ((g - ti.serLower) / ceilDiv ti.serSize ni.size) := by
  have hW := ceilDiv_pos ti.serSize_pos ni.size_pos
  have hN := ti.serUpper_eq
  have hlt := ti.serSize_lt
  obtain ⟨h0, h1⟩ := hg
  have hq0 := Int.ediv_nonneg (show 0 ≤ g - ti.serLower by omega) hW.le
  have hq1 := Int.ediv_le_self (ceilDiv ti.serSize ni.size) (show 0 ≤ g - ti.serLower by omega)
  simp only [calcTemplateOwnerScalar, chunkOwnerScalar, h.manner, h.info, h.chunkWidth, hW.ne',
    if_false]
  rw [toULL_of_nonneg (by omega) (by omega), Int.tdiv_eq_ediv_of_nonneg (by omega),
    toInt_of_inInt ⟨by omega, by omega⟩]

theorem NodesInfo.coord_inInt (ni : NodesInfo) {x : ℤ} (h0 : 0 ≤ x) (h1 : x < ni.size) :
    InInt x := by
  have := ni.size_inInt.2
  constructor <;> omega

theorem CyclicChunk.ownerScalar (h : CyclicChunk w ti ni t i) (hw : 0 < w)
    (hs : InInt (ni.size * w)) {g : ℤ} (hg : ti.Contains g) :
    calcTemplateOwnerScalar t i g = .ok (owner w ni.size (g - ti.serLower)) := by
  have hP := ni.size_pos
  have hx : 0 ≤ g - ti.serLower := by have := hg.1; omega
  unfold calcTemplateOwnerScalar chunkOwnerScalar
  simp only [h.manner, h.info, h.width, h.stride_eq hs, toInt_of_inInt (ni.width_inInt hw hs)]
  by_cases h1 : w = 1
  · simp only [h1, if_true, mul_one, owner, Int.ediv_one, hP.ne', if_false]
    rw [Int.tmod_eq_emod_of_nonneg hx, toInt_of_inInt
      (ni.coord_inInt (Int.emod_nonneg _ hP.ne') (Int.emod_lt_of_pos _ hP))]
  · simp only [h1, if_false, owner, Int.mul_tdiv_cancel _ hw.ne', hw.ne', hP.ne', or_self]
    rw [Int.tdiv_eq_ediv_of_nonneg hx, Int.tmod_eq_emod_of_nonneg (Int.ediv_nonneg hx hw.le),
      toInt_of_inInt (ni.coord_inInt (Int.emod_nonneg _ hP.ne') (Int.emod_lt_of_pos _ hP))]

theorem TemplateInfo.chunkWidth_inInt (ti : TemplateInfo) (ni : NodesInfo) :
    InInt (ceilDiv ti.serSize ni.size) := by
  have hP := ni.size_pos
  have hpos := ceilDiv_pos ti.serSize_pos hP
  have hle : ceilDiv ti.serSize ni.size ≤ ti.serSize := by
    by_contra hc
    have := (lt_ceilDiv_iff ti.serSize_pos.le hP).mp (not_le.mp hc)
    have hN := ti.serSize_pos
    nlinarith
  have hlt := ti.serSize_lt
  constructor <;> omega

theorem BlockChunk.parTriplet (h : BlockChunk ti ni t i) (r : Fin ni.size) :
    calcTemplateParTriplet t i r =
      let m := blockMembers ti ⟨ni.size, r, ni.size_lt⟩ (ceilDiv ti.serSize ni.size) 0
      .ok (if m.2.2 then some (m.1, m.2.1, 1) else none) := by
  simp only [calcTemplateParTriplet, h.manner, h.info, h.chunkWidth, blockMembers,
    toInt_of_inInt (ti.chunkWidth_inInt ni)]
  split_ifs <;> simp_all

theorem CyclicChunk.parTriplet (h : CyclicChunk w ti ni t i) (hw : 0 < w)
    (hs : InInt (ni.size * w)) (r : Fin ni.size) :
    calcTemplateParTriplet t i r =
      let m := cyclicMembers ti ⟨ni.size, r, ni.size_lt⟩ w 0 0
      .ok (if m.2.2 then some (m.1, m.2.1, ni.size * w) else none) := by
  have hm : (t.chunk i).distManner = .cyclic ∨ (t.chunk i).distManner = .blockCyclic := by
    rw [h.manner]
    split_ifs <;> simp
  rcases hm with hm | hm <;>
    simp only [calcTemplateParTriplet, hm, h.info, h.width, TemplateChunk.nodesSize, h.nodesInfo,
      Option.elim_some, cyclicMembers, toInt_of_inInt (ni.width_inInt hw hs), toInt_of_inInt hs] <;>
    split_ifs <;> simp_all

theorem BlockChunk.testSkip (h : BlockChunk ti ni t i) (ho : t.isOwner = true) {g : ℤ}
    (hg : ti.Contains g) (rp : ObjectRef d n) (rdim : ℕ) (hrp : rp.tDesc = t)
    (hdim : rp.refIndex rdim = i) :
    loopTestSkip rp rdim (g - rp.refOffset rdim) = 0 ↔ Owned ti ni .block g := by
  have hN := ti.serUpper_eq
  obtain ⟨h0, h1⟩ := hg
  have hr1 : ((ni.rank : ℤ) + 1) * ceilDiv ti.serSize ni.size =
      ni.rank * ceilDiv ti.serSize ni.size + ceilDiv ti.serSize ni.size := by ring
  simp only [loopTestSkip, hrp, hdim, h.manner, h.lower, h.upper ho, sub_add_cancel, hr1]
  rw [owned_block_iff]
  simp only [decide_eq_true_eq, min_lt_iff, ite_eq_right_iff, one_ne_zero, imp_false, not_or,
    not_lt]
  omega

theorem CyclicChunk.testSkip (h : CyclicChunk w ti ni t i) (hw : 0 < w)
    (hs : InInt (ni.size * w)) {g : ℤ} (hg : ti.Contains g) (rp : ObjectRef d n) (rdim : ℕ)
    (hrp : rp.tDesc = t) (hdim : rp.refIndex rdim = i) :
    loopTestSkip rp rdim (g - rp.refOffset rdim) = 0 ↔
      owner w ni.size (g - ti.serLower) = ni.rank := by
  have hx : 0 ≤ g - ti.serLower := by have := hg.1; omega
  have hP := ni.size_pos
  simp only [loopTestSkip, hrp, hdim, h.manner, h.info, h.width, TemplateChunk.nodesSize,
    TemplateChunk.nodesRank, h.nodesInfo, Option.elim_some, sub_add_cancel,
    toInt_of_inInt (ni.width_inInt hw hs), mul_comm w, toInt_of_inInt hs]
  by_cases h1 : w = 1
  · simp [h1, owner, Int.tmod_eq_emod_of_nonneg hx]
  · have hmod := Int.emod_nonneg (g - ti.serLower) (mul_pos hw hP).ne'
    rw [mul_comm (ni.size : ℤ)]
    simp [h1, Int.tmod_eq_emod_of_nonneg hx, Int.tdiv_eq_ediv_of_nonneg hmod, emod_mul_ediv hw hP]

end Queries

/-! ## Agreement of all ranks -/

/-- All ranks' answers to the ownership question, as one function of the index. -/
structure QueriesAgree (ti : TemplateInfo) (i : Fin d) {P : ℕ} (tr : Fin P → Template d n)
    (own : ℤ → ℤ) : Prop where
  info : ∀ r, (tr r).info i = ti
  width : ∀ r r', ((tr r).chunk i).parWidth = ((tr r').chunk i).parWidth
  range : ∀ g, ti.Contains g → 0 ≤ own g ∧ own g < P
  chunk : ∀ r g, g ∈ chunkSet (tr r) i ↔ ti.Contains g ∧ own g = (r : ℕ)
  scalar : ∀ r g, ti.Contains g → calcTemplateOwnerScalar (tr r) i g = .ok (own g)
  skip : ∀ r g, (tr r).isOwner = true → ti.Contains g → ∀ (rp : ObjectRef d n) (rdim : ℕ),
    rp.tDesc = tr r → rp.refIndex rdim = i →
      (loopTestSkip rp rdim (g - rp.refOffset rdim) = 0 ↔ own g = (r : ℕ))
  triplet : ∀ r r' : Fin P, calcTemplateParTriplet (tr r') i (r : ℕ) =
    .ok (if (tr r).isOwner then some (((tr r).chunk i).parLower, ((tr r).chunk i).parUpper,
      ((tr r).chunk i).parStride) else none)
  nonempty : ∀ r, (tr r).isOwner = true → (chunkSet (tr r) i).Nonempty

theorem BlockChunk.queriesAgree {ti : TemplateInfo} {i : Fin d} {P : ℕ} {tr : Fin P → Template d n}
    (hP : (0 : ℤ) < P) (hP' : P < 2 ^ 31) (h : ∀ r, BlockChunk ti ⟨P, r, hP'⟩ (tr r) i) :
    QueriesAgree ti i tr fun g => (g - ti.serLower) / ceilDiv ti.serSize P where
  info := fun r => (h r).info
  width := fun r r' => (h r).width.trans (h r').width.symm
  range := by
    intro g hg
    have hW := ceilDiv_pos ti.serSize_pos hP
    have hle := (ceilDiv_bounds ti.serSize_pos.le hP).1
    have hN := ti.serUpper_eq
    obtain ⟨h0, h1⟩ := hg
    exact ⟨Int.ediv_nonneg (by omega) hW.le, Int.ediv_lt_of_lt_mul hW (by linarith)⟩
  chunk := fun r g => (h r).mem_chunkSet g
  scalar := fun r g hg => (h r).ownerScalar hg
  skip := fun r g ho hg rp rdim hrp hdim => (h r).testSkip ho hg rp rdim hrp hdim
  triplet := by
    intro r r'
    have hW := ceilDiv_pos ti.serSize_pos hP
    obtain ⟨h1, h2, h3⟩ := blockMembers_spec ti ⟨P, r, hP'⟩ hW 0
    have ho := (h r).isOwner
    rw [(h r').parTriplet r, (h r).lower, (h r).stride]
    by_cases hown : (tr r).isOwner = true
    · have hm := h1.mpr (ho.mp hown)
      simp only [hm, hown, if_true, h2, h3 hm, (h r).upper hown]
    · have hm : ¬ _ := fun hm => hown (ho.mpr (h1.mp hm))
      simp [hm, hown]
  nonempty := by
    intro r ho
    refine ⟨ti.serLower + r * ceilDiv ti.serSize P, ((h r).mem_chunkSet _).mpr ⟨?_, ?_⟩⟩
    · have hlt := (h r).isOwner.mp ho
      have hN := ti.serUpper_eq
      have hW := ceilDiv_pos ti.serSize_pos hP
      have : 0 ≤ (r : ℤ) * ceilDiv ti.serSize P := by positivity
      dsimp only at hlt
      constructor <;> omega
    · have hW := ceilDiv_pos ti.serSize_pos hP
      rw [owned_block_iff]
      dsimp only
      constructor <;> omega

theorem CyclicChunk.queriesAgree {ti : TemplateInfo} {i : Fin d} {P : ℕ}
    {tr : Fin P → Template d n} {w : ℤ} (hP : (0 : ℤ) < P) (hP' : P < 2 ^ 31) (hw : 0 < w)
    (hs : InInt (P * w)) (h : ∀ r, CyclicChunk w ti ⟨P, r, hP'⟩ (tr r) i) :
    QueriesAgree ti i tr fun g => owner w P (g - ti.serLower) where
  info := fun r => (h r).info
  width := fun r r' => (h r).width.trans (h r').width.symm
  range := fun g _ => ⟨Int.emod_nonneg _ hP.ne', Int.emod_lt_of_pos _ hP⟩
  chunk := fun r g => (h r).mem_chunkSet hw hs g
  scalar := fun r g hg => (h r).ownerScalar hw hs hg
  skip := fun r g _ hg rp rdim hrp hdim => (h r).testSkip hw hs hg rp rdim hrp hdim
  triplet := by
    intro r r'
    obtain ⟨h1, h2⟩ := cyclicMembers_spec ti ⟨P, r, hP'⟩ hw 0 0
    have ho := (h r).isOwner
    rw [(h r').parTriplet hw hs r, (h r).stride_eq hs]
    by_cases hown : (tr r).isOwner = true
    · have hm := h1.mpr (ho.mp hown)
      obtain ⟨hlo, m, -, hup, hk⟩ := (h r).bounds hown
      obtain ⟨hlo', m', -, hup', hk'⟩ := h2 hm
      have hmm : m = m' := by
        have e1 := (hk m').mpr ((hk' m').mp le_rfl)
        have e2 := (hk' m).mpr ((hk m).mp le_rfl)
        omega
      simp only [hm, hown, if_true, hlo, hup, hlo', hup', hmm]
    · have hm : ¬ _ := fun hm => hown (ho.mpr (h1.mp hm))
      simp [hm, hown]
  nonempty := by
    intro r ho
    have hlt := (h r).isOwner.mp ho
    have hN := ti.serUpper_eq
    have hr0 : (0 : ℤ) ≤ r * w := by positivity
    refine ⟨ti.serLower + r * w, ((h r).mem_chunkSet hw hs _).mpr ⟨?_, ?_⟩⟩
    · dsimp only at hlt
      constructor <;> omega
    · have hr1 : ((r : ℕ) : ℤ) < P := by exact_mod_cast r.isLt
      exact (owner_eq_iff hw (by positivity) hr1 _).mpr ⟨0, 0, le_rfl, hw, by ring⟩

theorem Distributed.queriesAgree {t : Template d n} {i : Fin d} {nodes : Nodes n} {j : Fin n}
    {fmt : DistFormat} {tr : Fin (nodes.info j).size → Template d n} (hreg : fmt.Regular)
    (h : Distributed t i nodes j fmt tr) (hs : fmt.StrideInInt (nodes.info j).size) :
    ∃ own, QueriesAgree (t.info i) i tr own := by
  have hP := (nodes.info j).size_pos
  have hP' := (nodes.info j).size_lt
  match fmt with
  | .block => exact ⟨_, BlockChunk.queriesAgree hP hP' h.block⟩
  | .cyclic => exact ⟨_, CyclicChunk.queriesAgree hP hP' one_pos (nodes.info j).stride_one h.cyclic⟩
  | .blockCyclic w => exact ⟨_, CyclicChunk.queriesAgree hP hP' hreg hs (h.blockCyclic hreg)⟩

/-! ## One owner for each index -/

theorem rsumArray_le (serLower : ℤ) {m : ℕ → ℤ} {k k' : ℕ} (hm : ∀ i < k', 0 ≤ m i)
    (hk : k ≤ k') : rsumArray serLower m k ≤ rsumArray serLower m k' := by
  induction k' with
  | zero =>
    obtain rfl : k = 0 := by omega
    exact le_rfl
  | succ k' ih =>
    rcases hk.lt_or_eq with h | rfl
    · have h0 := ih (fun i hi => hm i (by omega)) (by omega)
      have h1 := hm k' (by omega)
      rw [rsumArray]
      omega
    · exact le_rfl

theorem exists_rsumArray_block {serLower : ℤ} {m : ℕ → ℤ} {P : ℕ} {g : ℤ} (h0 : serLower ≤ g)
    (h1 : g < rsumArray serLower m P) :
    ∃ k < P, rsumArray serLower m k ≤ g ∧ g < rsumArray serLower m (k + 1) := by
  induction P with
  | zero =>
    rw [rsumArray] at h1
    omega
  | succ P ih =>
    by_cases h : g < rsumArray serLower m P
    · obtain ⟨k, hk, hb⟩ := ih h
      exact ⟨k, by omega, hb⟩
    · exact ⟨P, by omega, by omega, h1⟩

/-- The mapping array of a general block distribution has no negative block sizes. -/
def DistFormat.NonnegMapping (P : ℕ) (fmt : DistFormat) : Prop :=
  ∀ m, fmt = .gblock (some m) → ∀ k < P, 0 ≤ m k

theorem Distributed.existsUnique_owned {t : Template d n} {i : Fin d} {nodes : Nodes n} {j : Fin n}
    {fmt : DistFormat} {tr : Fin (nodes.info j).size → Template d n}
    (hfmt : fmt.Regular ∨ ∃ m, fmt = .gblock (some m))
    (hm : fmt.NonnegMapping (nodes.info j).size) (h : Distributed t i nodes j fmt tr) {g : ℤ}
    (hg : (t.info i).Contains g) : ∃! r, Owned (t.info i) ⟨_, r, (nodes.info j).size_lt⟩ fmt g := by
  have hP := (nodes.info j).size_pos
  have of_own : ∀ own : ℤ, 0 ≤ own → own < (nodes.info j).size →
      ∃! r : Fin (nodes.info j).size, own = (r : ℕ) := fun own h0 h1 =>
    ⟨⟨own.toNat, by omega⟩, by simp [h0], fun r hr => Fin.ext (by simp [hr])⟩
  rcases hfmt with hreg | ⟨m, rfl⟩
  · match fmt with
    | .block =>
      have hW := ceilDiv_pos (t.info i).serSize_pos hP
      have hle := (ceilDiv_bounds (t.info i).serSize_pos.le hP).1
      have hN := (t.info i).serUpper_eq
      obtain ⟨h0, h1⟩ := hg
      exact of_own _ (Int.ediv_nonneg (by omega) hW.le)
        (Int.ediv_lt_of_lt_mul hW (by linarith))
    | .cyclic => exact of_own _ (Int.emod_nonneg _ hP.ne') (Int.emod_lt_of_pos _ hP)
    | .blockCyclic w => exact of_own _ (Int.emod_nonneg _ hP.ne') (Int.emod_lt_of_pos _ hP)
  · have hcov := (h.gblock (nodes.info j).rank).covers
    obtain ⟨h0, h1⟩ := hg
    obtain ⟨k, hk, hb⟩ := exists_rsumArray_block h0 (h1.trans_lt hcov)
    refine ⟨⟨k, hk⟩, hb, fun r hr => Fin.ext ?_⟩
    have hnn := hm m rfl
    simp only [Owned] at hr
    dsimp only at hk
    rcases lt_trichotomy (r : ℕ) k with hlt | heq | hgt
    · have := rsumArray_le (t.info i).serLower (fun l hl => hnn l (by omega))
        (show (r : ℕ) + 1 ≤ k from hlt)
      omega
    · exact heq
    · have := rsumArray_le (t.info i).serLower (fun l hl => hnn l (by omega))
        (show k + 1 ≤ (r : ℕ) from hgt)
      omega

/-- The chunks of all ranks partition the template, and the four ownership queries of
the runtime agree with the partition on every rank. -/
theorem distTemplate_queries_partition {t : Template d n} {i : Fin d} {nodes : Nodes n} {j : Fin n}
    {fmt : DistFormat} {tr : Fin (nodes.info j).size → Template d n} (hreg : fmt.Regular)
    (h : Distributed t i nodes j fmt tr) (hs : fmt.StrideInInt (nodes.info j).size) :
    (Pairwise fun r r' => Disjoint (chunkSet (tr r) i) (chunkSet (tr r') i)) ∧
      (⋃ r, chunkSet (tr r) i) = Set.Icc (t.info i).serLower (t.info i).serUpper ∧
      ∀ g ∈ Set.Icc (t.info i).serLower (t.info i).serUpper, ∀ r r',
        (g ∈ chunkSet (tr r) i ↔ calcTemplateOwnerScalar (tr r') i g = .ok ((r : ℕ) : ℤ)) ∧
        ((tr r).isOwner = true → ∀ (rp : ObjectRef d n) (rdim : ℕ), rp.tDesc = tr r →
          rp.refIndex rdim = i →
            (g ∈ chunkSet (tr r) i ↔ loopTestSkip rp rdim (g - rp.refOffset rdim) = 0)) ∧
        (g ∈ chunkSet (tr r) i ↔ ∃ lower upper stride,
          calcTemplateParTriplet (tr r') i (r : ℕ) = .ok (some (lower, upper, stride)) ∧
            g ∈ tripletSet lower upper stride ((tr r').chunk i).parWidth (t.info i).serUpper) ∧
        (calcTemplateParTriplet (tr r') i (r : ℕ) = .ok none ↔ chunkSet (tr r) i = ∅) := by
  obtain ⟨own, hq⟩ := h.queriesAgree hreg hs
  refine ⟨fun r r' hne => ?_, ?_, fun g hg r r' => ⟨?_, fun ho rp rdim hrp hdim => ?_, ?_, ?_⟩⟩
  · refine Set.disjoint_left.mpr fun g hg hg' => ?_
    have hr := ((hq.chunk r g).mp hg).2.symm.trans ((hq.chunk r' g).mp hg').2
    exact hne (Fin.ext (by exact_mod_cast hr))
  · ext g
    rw [Set.mem_iUnion, Set.mem_Icc]
    constructor
    · rintro ⟨r, hg⟩
      exact ((hq.chunk r g).mp hg).1
    · intro hg
      obtain ⟨h0, h1⟩ := hq.range g hg
      exact ⟨⟨(own g).toNat, by omega⟩, (hq.chunk _ g).mpr ⟨hg, (Int.toNat_of_nonneg h0).symm⟩⟩
  · rw [hq.chunk, hq.scalar r' g hg, Except.ok.injEq]
    exact and_iff_right hg
  · rw [hq.chunk, hq.skip r g ho hg rp rdim hrp hdim]
    exact and_iff_right hg
  · rw [hq.triplet, chunkSet, hq.info, hq.width r r']
    by_cases ho : (tr r).isOwner = true <;> simp [ho]
  · rw [hq.triplet]
    by_cases ho : (tr r).isOwner = true
    · simpa [ho] using (hq.nonempty r ho).ne_empty
    · simp [ho, chunkSet]

/-- Eleven indices dealt in blocks of three to four ranks: the last block is ragged. -/
theorem distTemplate_queries_partition_ragged :
    let nodes := lineNodes 4 (by decide)
    let t := lineTemplate (-5) 5 (by decide) nodes
    let tr : Fin 4 → Template 1 1 := fun r =>
      distTemplateBlockCyclic (initTemplateChunk t (nodes.onRank 0 r) fun _ => default) 0 0 3
    (⋃ r, chunkSet (tr r) 0) = Set.Icc (-5) 5 := by
  intro nodes t tr
  have h : Distributed t 0 nodes 0 (.blockCyclic 3) tr := ⟨rfl, fun _ => ⟨fun _ => default, rfl⟩⟩
  exact (distTemplate_queries_partition (by decide) h (by decide)).2.1

end OmniCompiler.Xmp
