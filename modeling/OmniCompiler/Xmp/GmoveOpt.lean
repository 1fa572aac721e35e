import OmniCompiler.Xmp.Align

/-!
# The optimized paths of a gmove (`xmp_gmove.c`)

`_XMP_gmove_garray_garray_opt` tries a number of patterns before the general algorithm. The
descriptors hold what the tests read. Arrays are indexed like the C pointers: an index past the end
reads whatever is stored there. Nothing that is read is changed before the last test. Two of the
patterns end the program where an alignment is not implemented; a run that ends there has no
outcome.
-/
namespace OmniCompiler.Xmp.GmoveOpt

open MachineInt

/-- `_XMP_nodes_t`. Node sets and communicators are compared by address; `rank` is the position of
the executing process. -/
structure NodesFields where
  addr : ℕ
  inheritNodes : Option ℕ
  comm : ℕ
  commSize : ℤ
  dim : ℕ
  size : ℤ → ℤ
  rank : ℤ → ℤ

/-- `_XMP_template_chunk_t`. -/
structure ChunkFields where
  parWidth : ℤ
  parChunkWidth : ℤ
  distManner : DistManner
  mappingAddr : ℕ
  mappingArray : ℕ → ℤ
  ontoNodesIndex : ℤ

/-- `_XMP_template_t`. -/
structure TemplateFields where
  addr : ℕ
  dim : ℕ
  serLower : ℤ → ℤ
  serUpper : ℤ → ℤ
  chunk : ℤ → ChunkFields
  ontoNodes : NodesFields

def TemplateFields.serSize (t : TemplateFields) (i : ℤ) : ℤ := t.serUpper i - t.serLower i + 1

/-- `_XMP_array_info_t`; `align_template_index` is `-1` in a dimension that is not aligned. -/
structure InfoFields where
  serLower : ℤ
  serUpper : ℤ
  alignManner : AlignManner
  alignSubscript : ℤ
  alignTemplateIndex : ℤ
  shadowSizeLo : ℤ
  shadowSizeHi : ℤ

def InfoFields.serSize (ai : InfoFields) : ℤ := ai.serUpper - ai.serLower + 1

/-- `_XMP_array_t`. -/
structure ArrayFields where
  dim : ℕ
  isAllocated : Bool
  info : ℕ → InfoFields
  alignTemplate : TemplateFields
  arrayNodes : NodesFields

structure Desc where
  isGlobal : Bool
  ndims : ℕ
  aDesc : ArrayFields
  lb : ℕ → ℤ
  ub : ℕ → ℤ
  st : ℕ → ℤ

/-- The bounds, strides and element distances that are passed along with a descriptor. -/
structure Bounds where
  l : ℕ → ℤ
  u : ℕ → ℤ
  s : ℕ → ℤ
  d : ℕ → ℤ

/-! ## Comparisons of descriptors -/

def isSameAxis (a0 a1 : ArrayFields) : Bool :=
  a0.dim = a1.dim && (List.range a0.dim).all fun i =>
    (a0.info i).alignTemplateIndex = (a1.info i).alignTemplateIndex

def isSameOffset (a0 a1 : ArrayFields) : Bool :=
  a0.dim = a1.dim && (List.range a0.dim).all fun i =>
    (a0.info i).alignSubscript = (a1.info i).alignSubscript

/-- `xmp_dist_gblockmap`, for the template dimension `dim` counted from zero; the entries that it
does not store keep what the array `map` held. -/
def distGblockmap (t : TemplateFields) (dim : ℤ) (map : ℕ → ℤ) : ℕ → ℤ :=
  let chunk := t.chunk dim
  let size := t.ontoNodes.size chunk.ontoNodesIndex
  fun i =>
    if (i : ℤ) < size - 1 then chunk.mappingArray (i + 1) - chunk.mappingArray i
    else if 1 < size ∧ (i : ℤ) = size - 1 then
      t.serSize dim - (chunk.mappingArray (i - 1 + 1) - chunk.mappingArray (i - 1))
    else if size = 1 ∧ i = 0 then t.serSize dim
    else map i

/-- The comparison of two GBLOCK dimensions. `xmp_dist_gblockmap` is given the node axis. -/
def isSameGblockmap (map0 map1 : ℕ → ℤ) (a0 a1 : ArrayFields) (i : ℕ) : Bool :=
  let naxis0 := (a0.alignTemplate.chunk (a0.info i).alignTemplateIndex).ontoNodesIndex
  let naxis1 := (a1.alignTemplate.chunk (a1.info i).alignTemplateIndex).ontoNodesIndex
  let nsize0 := a0.arrayNodes.size naxis0
  let nsize1 := a1.arrayNodes.size naxis1
  nsize0 = nsize1 && (List.range nsize0.toNat).all fun ii =>
    distGblockmap a0.alignTemplate naxis0 map0 ii = distGblockmap a1.alignTemplate naxis1 map1 ii

def isSameAlignmanner (map0 map1 : ℕ → ℕ → ℤ) (a0 a1 : ArrayFields) : Bool :=
  a0.dim = a1.dim && (List.range a0.dim).all fun i =>
    if (a0.info i).alignManner = .duplication ∨ (a1.info i).alignManner = .duplication then false
    else if (a0.info i).alignManner ≠ (a1.info i).alignManner then false
    else if (a0.info i).alignManner = .blockCyclic then
      (a0.alignTemplate.chunk (a0.info i).alignTemplateIndex).parWidth =
        (a1.alignTemplate.chunk (a1.info i).alignTemplateIndex).parWidth
    else if (a0.info i).alignManner = .gblock then isSameGblockmap (map0 i) (map1 i) a0 a1 i
    else true

def isSameArrayShape (a0 a1 : ArrayFields) : Bool :=
  a0.dim = a1.dim && (List.range a0.dim).all fun i =>
    (a0.info i).serLower = (a1.info i).serLower && (a0.info i).serUpper = (a1.info i).serUpper

def isSameTemplateShape (t0 t1 : TemplateFields) : Bool :=
  t0.dim = t1.dim && (List.range t0.dim).all fun i =>
    t0.serLower i = t1.serLower i && t0.serUpper i = t1.serUpper i

def isWhole (desc : Desc) : Bool :=
  (List.range desc.aDesc.dim).all fun i =>
    (desc.lb i = 0 && desc.ub i = 0 && desc.st i = 0) ||
      ((desc.aDesc.info i).serLower = desc.lb i && (desc.aDesc.info i).serUpper = desc.ub i &&
        desc.st i = 1)

def isOneBlock (a : ArrayFields) : Bool :=
  ((List.range a.dim).all fun i =>
    (a.info i).alignManner = .block || (a.info i).alignManner = .notAligned) &&
  ((List.range a.dim).filter fun i => (a.info i).alignManner = .block).length = 1

def isTheSameShapeTemplateDim (dstDim : ℤ) (dst : TemplateFields) (srcDim : ℤ)
    (src : TemplateFields) : Bool :=
  if dst.addr = src.addr then true
  else if dst.serLower dstDim ≠ src.serLower srcDim then false
  else if (dst.chunk dstDim).distManner = (src.chunk srcDim).distManner then
    match (dst.chunk dstDim).distManner with
    | .blockCyclic => (dst.chunk dstDim).parWidth = (src.chunk srcDim).parWidth
    | .gblock => (dst.chunk dstDim).mappingAddr = (src.chunk srcDim).mappingAddr
    | _ => true
  else false

/-! ## Local positions -/

section

variable (arrayDim : ℕ) (gmvDesc : Desc) (index : ℤ)

/-- The chunk and the node set dimension that the positions of an array dimension refer to. -/
def dimChunk : ChunkFields :=
  gmvDesc.aDesc.alignTemplate.chunk (gmvDesc.aDesc.info arrayDim).alignTemplateIndex

def dimSize : ℤ :=
  gmvDesc.aDesc.alignTemplate.ontoNodes.size (gmvDesc.aDesc.info arrayDim).alignTemplateIndex

def dimRank : ℤ :=
  gmvDesc.aDesc.alignTemplate.ontoNodes.rank (gmvDesc.aDesc.info arrayDim).alignTemplateIndex

/-- The rounds of all nodes before an index of a block-cyclic dimension, its place in the round and
the node of this place. -/
def blockCyclicPlace : Option (ℤ × ℤ × ℤ) := do
  let parWidth := (dimChunk arrayDim gmvDesc).parWidth
  let interval := toInt (parWidth * dimSize arrayDim gmvDesc)
  let n ← cdiv index interval
  let n ← cint n
  let tmpLocalIndex := index - n * interval
  let hasIndex ← cdiv tmpLocalIndex parWidth
  some (n, tmpLocalIndex, toInt hasIndex)

def getLocalStartIndex : Option ℤ :=
  let key := dimRank arrayDim gmvDesc
  match (gmvDesc.aDesc.info arrayDim).alignManner with
  | .block =>
    let width := (dimChunk arrayDim gmvDesc).parChunkWidth
    if key * width ≤ index ∧ index < (key + 1) * width then some (toInt (index.tmod width))
    else if index < key * width then some 0
    else some (toInt width)
  | .blockCyclic => do
    let parWidth := (dimChunk arrayDim gmvDesc).parWidth
    let (n, tmpLocalIndex, hasIndex) ← blockCyclicPlace arrayDim gmvDesc index
    if hasIndex = key then some (toInt (n * parWidth + tmpLocalIndex.tmod parWidth))
    else if key < hasIndex then do
      let next ← cint (n + 1)
      some (toInt (next * parWidth))
    else some (toInt (n * parWidth))
  | _ => none

def getLocalEndIndex : Option ℤ :=
  let key := dimRank arrayDim gmvDesc
  match (gmvDesc.aDesc.info arrayDim).alignManner with
  | .block =>
    let width := (dimChunk arrayDim gmvDesc).parChunkWidth
    if key * width ≤ index ∧ index < (key + 1) * width then some (toInt (index.tmod width))
    else if index < key * width then some (-1)
    else some (toInt (width - 1))
  | .blockCyclic => do
    let parWidth := (dimChunk arrayDim gmvDesc).parWidth
    let (n, tmpLocalIndex, hasIndex) ← blockCyclicPlace arrayDim gmvDesc index
    if hasIndex = key then some (toInt (n * parWidth + tmpLocalIndex.tmod parWidth))
    else if key < hasIndex then do
      let next ← cint (n + 1)
      some (toInt (next * parWidth - 1))
    else some (toInt (n * parWidth - 1))
  | _ => none

def getLocalLength (gLb gUb : ℤ) : Option ℤ := do
  let e ← getLocalEndIndex arrayDim gmvDesc gUb
  let s ← getLocalStartIndex arrayDim gmvDesc gLb
  let dist ← cint (e - s)
  cint (dist + 1)

def getOwnerDim : Option ℤ :=
  match (gmvDesc.aDesc.info arrayDim).alignManner with
  | .block => do
    let q ← cdiv (toULL index) (dimChunk arrayDim gmvDesc).parChunkWidth
    some (toInt q)
  | .blockCyclic => do
    let (_, _, hasIndex) ← blockCyclicPlace arrayDim gmvDesc index
    some hasIndex
  | _ => none

end

/-- `get_owner` for two dimensions. Neither of the alignments that lead here is `-1`. -/
def getOwner (gmv : Desc) (index : ℕ → ℤ) : Option Bool := do
  let nodes := gmv.aDesc.alignTemplate.ontoNodes
  let dim0 := (gmv.aDesc.info 0).alignTemplateIndex.toNat
  let owner0 ← getOwnerDim dim0 gmv (index dim0)
  let dim1 := (gmv.aDesc.info 1).alignTemplateIndex.toNat
  let owner1 ← getOwnerDim dim1 gmv (index dim1)
  some (nodes.rank 0 = owner0 && nodes.rank 1 = owner1)

/-! ## The patterns -/

/-- What a process does in a broadcast: whether it copies its own elements first, and the
elements and the root it broadcasts with. -/
structure Part where
  copies : Bool
  dstOffset : ℤ
  srcOffset : ℤ
  localLength : ℤ
  root : ℤ
  deriving DecidableEq, Repr

/-- The transfers. The local copy is made on the processes where the destination is allocated, a
broadcast on those that have elements of the section; the others have no part of it. -/
inductive Transfer where
  | localCopy (isAllocated : Bool)
  | transpose
  | broadcast53 (part : Option Part)
  | broadcast54 (part : Option Part)
  | blockCyclic
  | oneToOne
  deriving DecidableEq, Repr

def gmoveGarrayGarrayBroadcast54 (dstGmv srcGmv : Desc) (dst src : Bounds) :
    Option (Option Part) := do
  let localLength ← getLocalLength 1 srcGmv (src.l 1) (src.u 1)
  if localLength = 0 then some none
  else do
    let root ← getOwnerDim 0 srcGmv (src.l 0)
    let dstOffset ← getLocalStartIndex 0 dstGmv (dst.l 0)
    let start ← getLocalStartIndex 0 srcGmv (src.l 0)
    let srcOffset := toInt (start * src.d 0 + dstOffset)
    some (some ⟨root = srcGmv.aDesc.arrayNodes.rank 1, dstOffset, srcOffset, localLength, root⟩)

def gmoveGarrayGarrayBroadcast53 (dstGmv srcGmv : Desc) (dst src : Bounds) :
    Option (Option Part) := do
  let localLength ← getLocalLength 0 dstGmv (dst.l 0) (dst.u 0)
  if localLength = 0 then some none
  else do
    let dstOffset ← getLocalStartIndex 0 dstGmv (dst.l 0)
    let start0 ← getLocalStartIndex 0 srcGmv (src.l 0)
    let start1 ← getLocalStartIndex 1 srcGmv (src.l 1)
    let srcOffset := toInt (start0 * src.d 0 + start1)
    let copies ← getOwner srcGmv src.l
    let root ← getOwnerDim 1 srcGmv (src.l 1)
    some (some ⟨copies, dstOffset, srcOffset, localLength, root⟩)

structure Outcome where
  ret : Bool
  transfer : Option Transfer
  deriving DecidableEq, Repr

/-- `_XMP_gmove_transpose`: whether it goes on to the exchange. -/
def gmoveTranspose (dst src : ArrayFields) : Bool :=
  let nnodes := dst.alignTemplate.ontoNodes.commSize
  if (dst.info 0).shadowSizeLo ≠ 0 ∨ (dst.info 0).shadowSizeHi ≠ 0 ∨
      (src.info 0).shadowSizeLo ≠ 0 ∨ (src.info 0).shadowSizeHi ≠ 0 then false
  else if (dst.info 0).serSize.tmod nnodes ≠ 0 then false
  else if 1 < ((List.range dst.dim).filter fun i => (dst.info i).alignManner = .block).length then
    false
  else if 1 < ((List.range src.dim).filter fun i => (src.info i).alignManner = .block).length then
    false
  else true

inductive Mode where
  | normal
  | gmoveIn
  | gmoveOut
  deriving DecidableEq, Repr

/-- The arguments of a gmove and the global state that it reads. `map0 i` and `map1 i` are the
contents of the arrays for the GBLOCK maps of dimension `i` before these are filled. -/
structure Call where
  left : Desc
  right : Desc
  dst : Bounds
  src : Bounds
  mode : Mode
  isAsync : Bool
  execCommSize : ℤ
  xmpfRunning : Bool
  xmpcRunning : Bool
  map0 : ℕ → ℕ → ℤ
  map1 : ℕ → ℕ → ℤ

namespace Call

def dstArray (c : Call) : ArrayFields := c.left.aDesc

def srcArray (c : Call) : ArrayFields := c.right.aDesc

def dstTemplate (c : Call) : TemplateFields := c.dstArray.alignTemplate

def srcTemplate (c : Call) : TemplateFields := c.srcArray.alignTemplate

def dstNodes (c : Call) : NodesFields := c.dstTemplate.ontoNodes

def srcNodes (c : Call) : NodesFields := c.srcTemplate.ontoNodes

/-- The outer test of the HPL-specific pattern. -/
def hplShape (c : Call) : Bool :=
  c.left.ndims = 1 && c.right.ndims = 2 && c.dstNodes.inheritNodes = some c.srcNodes.addr

/-- The inner test of the HPL-specific pattern. `par_width` is unsigned. -/
def hplApplies (c : Call) : Bool :=
  (c.srcArray.info 0).alignManner = .block &&
  c.srcTemplate.serSize 1 = c.srcNodes.size 1 &&
  (c.srcArray.info 1).alignManner = .blockCyclic &&
  (c.dstArray.info 0).alignManner = .blockCyclic &&
  isTheSameShapeTemplateDim 0 c.dstTemplate 0 c.srcTemplate &&
  (toULL (c.src.u 1 - c.src.l 1 + 1) ≤ (c.srcTemplate.chunk 0).parWidth) &&
  (toULL (c.dst.u 0 - c.dst.l 0 + 1) ≤ (c.dstTemplate.chunk 0).parWidth) &&
  c.src.s 1 = 1 && c.dst.s 0 = 1 &&
  (c.dstArray.info 0).alignTemplateIndex = 0 &&
  (c.srcArray.info 1).alignTemplateIndex = 0 &&
  c.src.u 0 - c.src.l 0 = 0 &&
  (toULL (c.dst.l 0)).tmod (c.dstTemplate.chunk 0).parWidth = 0 &&
  ((toULL (c.src.l 1)).tdiv (c.srcTemplate.chunk 0).parWidth).tmod (toULL (c.srcNodes.size 1)) =
    toULL (c.src.l 0)

def rowApplies (c : Call) : Bool :=
  isTheSameShapeTemplateDim 0 c.dstTemplate 1 c.srcTemplate &&
  c.dst.s 0 = 1 && c.src.s 1 = 1 &&
  (c.dstArray.info 0).alignManner = .blockCyclic && (c.dstArray.info 0).alignTemplateIndex = 0 &&
  (c.srcArray.info 1).alignManner = .blockCyclic && (c.srcArray.info 1).alignTemplateIndex = 0

def blockOrCyclic (t : TemplateFields) : Bool :=
  (List.range t.dim).all fun i =>
    (t.chunk i).distManner = .block || (t.chunk i).distManner = .cyclic

def plainlyAligned (a : ArrayFields) (dims : ℕ) : Bool :=
  (List.range dims).all fun i => (a.info i).alignSubscript = 0 &&
    ((a.info i).alignManner = .block || (a.info i).alignManner = .cyclic)

/-- The tests before `_XMP_gmove_garray_garray_block_cyclic`. -/
def blockCyclicApplies (c : Call) : Bool :=
  blockOrCyclic c.dstTemplate && blockOrCyclic c.srcTemplate &&
  if c.left.ndims = c.dstNodes.dim then
    c.right.ndims = c.srcNodes.dim && plainlyAligned c.dstArray c.left.ndims &&
      plainlyAligned c.srcArray c.right.ndims && isWhole c.left && isWhole c.right
  else if c.left.ndims < c.dstNodes.dim then
    c.right.ndims < c.srcNodes.dim && c.dstNodes.dim = 2 && c.srcNodes.dim = 2 &&
      (c.dstArray.info 0).alignSubscript = 0 && (c.srcArray.info 0).alignSubscript = 0
  else
    c.srcNodes.dim < c.right.ndims && !(c.xmpfRunning && !c.xmpcRunning)

/-- The last part of `_XMP_gmove_garray_garray_opt`. -/
def optGeneral (c : Call) : Outcome :=
  if c.blockCyclicApplies then ⟨true, some .blockCyclic⟩ else ⟨false, none⟩

def gmoveGarrayGarrayOpt (c : Call) : Option Outcome :=
  if c.hplShape then
    if c.hplApplies then do
      let part ← gmoveGarrayGarrayBroadcast53 c.left c.right c.dst c.src
      some ⟨true, some (.broadcast53 part)⟩
    else some ⟨true, none⟩
  else if c.execCommSize ≠ c.dstNodes.commSize ∨ c.execCommSize ≠ c.srcNodes.commSize then
    some ⟨false, none⟩
  else if isSameArrayShape c.dstArray c.srcArray && isWhole c.left && isWhole c.right then
    if isSameTemplateShape c.dstTemplate c.srcTemplate && isSameAxis c.dstArray c.srcArray &&
        isSameOffset c.dstArray c.srcArray &&
        isSameAlignmanner c.map0 c.map1 c.dstArray c.srcArray then
      some ⟨true, some (.localCopy c.dstArray.isAllocated)⟩
    else if isOneBlock c.dstArray && isOneBlock c.srcArray &&
        c.dstTemplate.dim ≤ c.dstArray.dim && c.srcTemplate.dim ≤ c.srcArray.dim then
      if gmoveTranspose c.dstArray c.srcArray then some ⟨true, some .transpose⟩
      else some c.optGeneral
    else some c.optGeneral
  else if c.left.ndims = 1 && c.right.ndims = 2 && c.dstNodes.comm = c.srcNodes.comm then
    if c.rowApplies then do
      let part ← gmoveGarrayGarrayBroadcast54 c.left c.right c.dst c.src
      some ⟨true, some (.broadcast54 part)⟩
    else some c.optGeneral
  else some c.optGeneral

/-- `_XMP_gmove_array_array_common`: the transfer it makes. -/
def gmoveArrayArrayCommon (c : Call) : Option (Option Transfer) :=
  if !c.isAsync && c.left.isGlobal && c.right.isGlobal && c.mode = .normal then do
    let opt ← c.gmoveGarrayGarrayOpt
    if opt.ret then some opt.transfer else some (some .oneToOne)
  else some (some .oneToOne)

end Call

/-! ## Where the positions are implemented -/

/-- The alignments for which `get_owner_dim` and its siblings are implemented. -/
def Located (manner : AlignManner) : Prop := manner = .block ∨ manner = .blockCyclic

/-- The sizes of an aligned dimension are those of a distribution, and a round of blocks is an
`int`. -/
structure DimFits (arrayDim : ℕ) (gmvDesc : Desc) : Prop where
  block : (gmvDesc.aDesc.info arrayDim).alignManner = .block →
    0 < (dimChunk arrayDim gmvDesc).parChunkWidth
  blockCyclic : (gmvDesc.aDesc.info arrayDim).alignManner = .blockCyclic →
    0 < (dimChunk arrayDim gmvDesc).parWidth ∧ 0 < dimSize arrayDim gmvDesc ∧
    0 ≤ dimRank arrayDim gmvDesc ∧
    (dimChunk arrayDim gmvDesc).parWidth * dimSize arrayDim gmvDesc < 2 ^ 31

variable {arrayDim : ℕ} {gmvDesc : Desc} {index : ℤ}

/-- An index whose node is not the first one is not the last `int`, so that the next round is
counted without overflow. -/
theorem blockCyclicPlace_spec (hdim : DimFits arrayDim gmvDesc)
    (hmanner : (gmvDesc.aDesc.info arrayDim).alignManner = .blockCyclic) (hindex : InInt index) :
    ∃ n tmp has, blockCyclicPlace arrayDim gmvDesc index = some (n, tmp, has) ∧
      (dimRank arrayDim gmvDesc < has → InInt (n + 1)) := by
  obtain ⟨hw, hP, hrank, hint⟩ := hdim.blockCyclic hmanner
  have hpos := mul_pos hw hP
  have hI := toInt_of_inInt (show InInt ((dimChunk arrayDim gmvDesc).parWidth *
    dimSize arrayDim gmvDesc) from ⟨by omega, hint⟩)
  have hn := inInt_tdiv hpos hindex
  simp only [blockCyclicPlace, hI]
  generalize (dimChunk arrayDim gmvDesc).parWidth * dimSize arrayDim gmvDesc = I at *
  generalize (dimChunk arrayDim gmvDesc).parWidth = w at *
  refine ⟨index.tdiv I, index - index.tdiv I * I, toInt ((index - index.tdiv I * I).tdiv w), ?_, ?_⟩
  · simp only [cdiv_of_ne_zero hpos.ne', cint_of_inInt hn, cdiv_of_ne_zero hw.ne',
      Option.bind_eq_bind, Option.bind_some]
  · intro hhas
    have hdm := Int.tmod_add_tdiv_mul index I
    have htmp : 0 < index - index.tdiv I * I := by
      by_contra hc
      have hr : InInt (index - index.tdiv I * I) := by
        have := Int.lt_tmod_of_pos index hpos
        constructor <;> omega
      rw [toInt_of_inInt (inInt_tdiv hw hr)] at hhas
      have := tdiv_nonpos_of_nonpos hw (not_lt.mp hc)
      omega
    obtain ⟨h0, h1⟩ := hindex
    obtain ⟨h2, h3⟩ := hn
    refine ⟨by omega, ?_⟩
    rcases le_total 0 (index.tdiv I) with hq | hq
    · have hle : index.tdiv I ≤ index.tdiv I * I := le_mul_of_one_le_right hq hpos
      omega
    · omega

theorem getLocalStartIndex_isSome (hdim : DimFits arrayDim gmvDesc) (hindex : InInt index) :
    (getLocalStartIndex arrayDim gmvDesc index).isSome ↔
      Located (gmvDesc.aDesc.info arrayDim).alignManner := by
  unfold getLocalStartIndex Located
  cases hmanner : (gmvDesc.aDesc.info arrayDim).alignManner with
  | notAligned | duplication | cyclic | gblock => simp
  | block =>
    simp only [true_or, iff_true]
    split_ifs <;> rfl
  | blockCyclic =>
    obtain ⟨n, tmp, has, hplace, hnext⟩ := blockCyclicPlace_spec hdim hmanner hindex
    simp only [hplace, Option.bind_eq_bind, Option.bind_some, or_true, iff_true]
    split_ifs with h1 h2
    · rfl
    · rw [cint_of_inInt (hnext h2)]
      rfl
    · rfl

theorem getLocalEndIndex_isSome (hdim : DimFits arrayDim gmvDesc) (hindex : InInt index) :
    (getLocalEndIndex arrayDim gmvDesc index).isSome ↔
      Located (gmvDesc.aDesc.info arrayDim).alignManner := by
  unfold getLocalEndIndex Located
  cases hmanner : (gmvDesc.aDesc.info arrayDim).alignManner with
  | notAligned | duplication | cyclic | gblock => simp
  | block =>
    simp only [true_or, iff_true]
    split_ifs <;> rfl
  | blockCyclic =>
    obtain ⟨n, tmp, has, hplace, hnext⟩ := blockCyclicPlace_spec hdim hmanner hindex
    simp only [hplace, Option.bind_eq_bind, Option.bind_some, or_true, iff_true]
    split_ifs with h1 h2
    · rfl
    · rw [cint_of_inInt (hnext h2)]
      rfl
    · rfl

theorem getOwnerDim_isSome (hdim : DimFits arrayDim gmvDesc) (hindex : InInt index) :
    (getOwnerDim arrayDim gmvDesc index).isSome ↔
      Located (gmvDesc.aDesc.info arrayDim).alignManner := by
  unfold getOwnerDim Located
  cases hmanner : (gmvDesc.aDesc.info arrayDim).alignManner with
  | notAligned | duplication | cyclic | gblock => simp
  | block =>
    simp [cdiv_of_ne_zero (hdim.block hmanner).ne']
  | blockCyclic =>
    obtain ⟨n, tmp, has, hplace, -⟩ := blockCyclicPlace_spec hdim hmanner hindex
    simp [hplace]

def LengthFits (arrayDim : ℕ) (gmvDesc : Desc) (gLb gUb : ℤ) : Prop :=
  ∀ s e, getLocalStartIndex arrayDim gmvDesc gLb = some s →
    getLocalEndIndex arrayDim gmvDesc gUb = some e → InInt (e - s) ∧ InInt (e - s + 1)

def HasPart (arrayDim : ℕ) (gmvDesc : Desc) (gLb gUb : ℤ) : Prop :=
  ∃ s e, getLocalStartIndex arrayDim gmvDesc gLb = some s ∧
    getLocalEndIndex arrayDim gmvDesc gUb = some e ∧ e - s + 1 ≠ 0

theorem getLocalLength_spec {gLb gUb : ℤ} (hdim : DimFits arrayDim gmvDesc) (hlb : InInt gLb)
    (hub : InInt gUb) (hfits : LengthFits arrayDim gmvDesc gLb gUb)
    (hmanner : Located (gmvDesc.aDesc.info arrayDim).alignManner) :
    ∃ len, getLocalLength arrayDim gmvDesc gLb gUb = some len ∧
      (len ≠ 0 ↔ HasPart arrayDim gmvDesc gLb gUb) := by
  obtain ⟨s, hs⟩ := Option.isSome_iff_exists.mp
    ((getLocalStartIndex_isSome hdim hlb).mpr hmanner)
  obtain ⟨e, he⟩ := Option.isSome_iff_exists.mp ((getLocalEndIndex_isSome hdim hub).mpr hmanner)
  obtain ⟨hdist, hlen⟩ := hfits s e hs he
  refine ⟨e - s + 1, ?_, ?_⟩
  · simp only [getLocalLength, hs, he, cint_of_inInt hdist, cint_of_inInt hlen,
      Option.bind_eq_bind, Option.bind_some]
  · simp [HasPart, hs, he]

/-! ## When the data is moved -/

namespace Call

/-- The dimension that `get_owner` looks up first in the source. -/
def ownerDim (c : Call) : ℕ := (c.srcArray.info 0).alignTemplateIndex.toNat

def SrcDim (c : Call) (i : ℕ) : Prop := i = 0 ∨ i = 1 ∨ i = c.ownerDim

/-- Indices, and the lengths of the sections on the process, are `int`s. -/
structure Fits (c : Call) : Prop where
  dimFits_dst : DimFits 0 c.left
  dimFits_src : ∀ i, c.SrcDim i → DimFits i c.right
  inInt_dst : InInt (c.dst.l 0) ∧ InInt (c.dst.u 0)
  inInt_src : ∀ i, c.SrcDim i → InInt (c.src.l i) ∧ InInt (c.src.u i)
  lengthFits_dst : LengthFits 0 c.left (c.dst.l 0) (c.dst.u 0)
  lengthFits_src : LengthFits 1 c.right (c.src.l 1) (c.src.u 1)

/-- The section is moved along the pattern for a row of a block-cyclic array. -/
def TakesRow (c : Call) : Prop :=
  c.hplShape = false ∧ c.execCommSize = c.dstNodes.commSize ∧
  c.execCommSize = c.srcNodes.commSize ∧
  (isSameArrayShape c.dstArray c.srcArray && isWhole c.left && isWhole c.right) = false ∧
  c.left.ndims = 1 ∧ c.right.ndims = 2 ∧ c.dstNodes.comm = c.srcNodes.comm ∧
  c.rowApplies = true

/-- A process with elements of the section finds its way through the broadcast. -/
structure Carries (c : Call) : Prop where
  hpl : c.hplShape = true → c.hplApplies = true ∧
    (HasPart 0 c.left (c.dst.l 0) (c.dst.u 0) → Located (c.srcArray.info c.ownerDim).alignManner)
  row : c.TakesRow → HasPart 1 c.right (c.src.l 1) (c.src.u 1) →
    Located (c.srcArray.info 0).alignManner

variable {c : Call}

theorem srcDim_zero : c.SrcDim 0 := Or.inl rfl

theorem srcDim_one : c.SrcDim 1 := Or.inr (Or.inl rfl)

theorem srcDim_ownerDim : c.SrcDim c.ownerDim := Or.inr (Or.inr rfl)

theorem exists_of_isSome {α : Type} {x : Option α} {p : Prop} (h : x.isSome ↔ p) (hp : p) :
    ∃ y, x = some y := Option.isSome_iff_exists.mp (h.mpr hp)

theorem broadcast53_isSome (hfits : c.Fits) (happlies : c.hplApplies = true) :
    (gmoveGarrayGarrayBroadcast53 c.left c.right c.dst c.src).isSome ↔
      (HasPart 0 c.left (c.dst.l 0) (c.dst.u 0) →
        Located (c.srcArray.info c.ownerDim).alignManner) := by
  simp only [hplApplies, Bool.and_eq_true, decide_eq_true_eq] at happlies
  obtain ⟨⟨⟨⟨⟨⟨⟨⟨⟨⟨⟨⟨⟨hsrc0, -⟩, hsrc1⟩, hdst0⟩, -⟩, -⟩, -⟩, -⟩, -⟩, -⟩, hdim1⟩, -⟩, -⟩, -⟩ :=
    happlies
  have hloc0 : Located (c.right.aDesc.info 0).alignManner := Or.inl hsrc0
  have hloc1 : Located (c.right.aDesc.info 1).alignManner := Or.inr hsrc1
  have hlocd : Located (c.left.aDesc.info 0).alignManner := Or.inr hdst0
  obtain ⟨len, hlen, hpart⟩ := getLocalLength_spec hfits.dimFits_dst hfits.inInt_dst.1
    hfits.inInt_dst.2 hfits.lengthFits_dst hlocd
  rw [← hpart, gmoveGarrayGarrayBroadcast53, hlen]
  simp only [Option.bind_eq_bind, Option.bind_some]
  split_ifs with h0
  · simp [h0]
  obtain ⟨d, hd⟩ := exists_of_isSome
    (getLocalStartIndex_isSome hfits.dimFits_dst hfits.inInt_dst.1) hlocd
  obtain ⟨s0, hs0⟩ := exists_of_isSome
    (getLocalStartIndex_isSome (hfits.dimFits_src _ srcDim_zero)
      (hfits.inInt_src _ srcDim_zero).1) hloc0
  obtain ⟨s1, hs1⟩ := exists_of_isSome
    (getLocalStartIndex_isSome (hfits.dimFits_src _ srcDim_one)
      (hfits.inInt_src _ srcDim_one).1) hloc1
  obtain ⟨r, hr⟩ := exists_of_isSome
    (getOwnerDim_isSome (hfits.dimFits_src _ srcDim_one) (hfits.inInt_src _ srcDim_one).1) hloc1
  obtain ⟨o, ho⟩ := exists_of_isSome
    (getOwnerDim_isSome (hfits.dimFits_src _ srcDim_zero) (hfits.inInt_src _ srcDim_zero).1) hloc0
  have hindex1 : (c.right.aDesc.info 1).alignTemplateIndex.toNat = 0 := by
    rw [show (c.right.aDesc.info 1).alignTemplateIndex = 0 from hdim1]
    rfl
  have howner :=
    getOwnerDim_isSome (hfits.dimFits_src _ srcDim_ownerDim) (hfits.inInt_src _ srcDim_ownerDim).1
  simp only [hd, hs0, hs1, hr, Option.bind_some, getOwner, hindex1, ho, Option.bind_eq_bind]
  rw [imp_iff_right h0]
  refine Iff.trans ?_ howner
  change (Option.bind
    (Option.bind (getOwnerDim c.ownerDim c.right (c.src.l c.ownerDim)) _) _).isSome
    ↔ _
  cases getOwnerDim c.ownerDim c.right (c.src.l c.ownerDim) with
  | none => exact Iff.rfl
  | some y => simp

theorem broadcast54_isSome (hfits : c.Fits) (happlies : c.rowApplies = true) :
    (gmoveGarrayGarrayBroadcast54 c.left c.right c.dst c.src).isSome ↔
      (HasPart 1 c.right (c.src.l 1) (c.src.u 1) → Located (c.srcArray.info 0).alignManner) := by
  simp only [rowApplies, Bool.and_eq_true, decide_eq_true_eq] at happlies
  obtain ⟨⟨⟨⟨-, hdst0⟩, -⟩, hsrc1⟩, -⟩ := happlies
  have hloc1 : Located (c.right.aDesc.info 1).alignManner := Or.inr hsrc1
  have hlocd : Located (c.left.aDesc.info 0).alignManner := Or.inr hdst0
  obtain ⟨len, hlen, hpart⟩ :=
    getLocalLength_spec (hfits.dimFits_src _ srcDim_one) (hfits.inInt_src _ srcDim_one).1
    (hfits.inInt_src _ srcDim_one).2 hfits.lengthFits_src hloc1
  rw [← hpart, gmoveGarrayGarrayBroadcast54, hlen]
  simp only [Option.bind_eq_bind, Option.bind_some]
  split_ifs with h0
  · simp [h0]
  rw [imp_iff_right h0]
  obtain ⟨d, hd⟩ := exists_of_isSome
    (getLocalStartIndex_isSome hfits.dimFits_dst hfits.inInt_dst.1) hlocd
  have howner :=
    getOwnerDim_isSome (hfits.dimFits_src _ srcDim_zero) (hfits.inInt_src _ srcDim_zero).1
  have hstart :=
    getLocalStartIndex_isSome (hfits.dimFits_src _ srcDim_zero) (hfits.inInt_src _ srcDim_zero).1
  constructor
  · intro h
    apply howner.mp
    cases hget : getOwnerDim 0 c.right (c.src.l 0) with
    | none => rw [hget] at h; exact h
    | some y => rfl
  · intro h
    obtain ⟨r, hr⟩ := exists_of_isSome howner h
    obtain ⟨s, hs⟩ := exists_of_isSome hstart h
    simp [hr, hd, hs]

theorem opt_of_hplShape (h : c.hplShape = true) :
    c.gmoveGarrayGarrayOpt = if c.hplApplies then
        (gmoveGarrayGarrayBroadcast53 c.left c.right c.dst c.src).map fun part =>
          ⟨true, some (.broadcast53 part)⟩
      else some ⟨true, none⟩ := by
  rw [gmoveGarrayGarrayOpt, if_pos h]
  cases gmoveGarrayGarrayBroadcast53 c.left c.right c.dst c.src <;> rfl

theorem opt_of_takesRow (h : c.TakesRow) :
    c.gmoveGarrayGarrayOpt =
      (gmoveGarrayGarrayBroadcast54 c.left c.right c.dst c.src).map fun part =>
        ⟨true, some (.broadcast54 part)⟩ := by
  obtain ⟨hshape, hdst, hsrc, hwhole, hleft, hright, hcomm, hrow⟩ := h
  rw [gmoveGarrayGarrayOpt, if_neg (by simp [hshape]), if_neg (by simp [← hdst, ← hsrc]),
    if_neg (by simp [hwhole]), if_pos (by simp [hleft, hright, hcomm]), if_pos hrow]
  cases gmoveGarrayGarrayBroadcast54 c.left c.right c.dst c.src <;> rfl

theorem opt_of_not_takesRow (hshape : c.hplShape = false) (h : ¬ c.TakesRow) :
    ∃ o, c.gmoveGarrayGarrayOpt = some o ∧ o.ret = o.transfer.isSome := by
  have hgeneral : c.optGeneral.ret = c.optGeneral.transfer.isSome := by
    unfold optGeneral
    split_ifs <;> rfl
  rw [gmoveGarrayGarrayOpt, if_neg (by simp [hshape])]
  split_ifs with hsize hwhole hsame hone htrans hdims hrow
  · exact ⟨_, rfl, rfl⟩
  · exact ⟨_, rfl, rfl⟩
  · exact ⟨_, rfl, rfl⟩
  · exact ⟨_, rfl, hgeneral⟩
  · exact ⟨_, rfl, hgeneral⟩
  · refine absurd ?_ h
    simp only [not_or, not_not] at hsize
    simp only [Bool.and_eq_true, decide_eq_true_eq] at hdims
    exact ⟨hshape, hsize.1, hsize.2, by simpa using hwhole, hdims.1.1, hdims.1.2, hdims.2, hrow⟩
  · exact ⟨_, rfl, hgeneral⟩
  · exact ⟨_, rfl, hgeneral⟩

/-- Where the optimized paths report success, one of them made a transfer. -/
def OptMoves (c : Call) : Prop :=
  ∀ o, c.gmoveGarrayGarrayOpt = some o → o.ret = true → ∃ t, o.transfer = some t

theorem optMoves_iff (c : Call) :
    c.OptMoves ↔ (c.hplShape = true → c.hplApplies = true) := by
  cases h : c.hplShape with
  | true =>
    rw [OptMoves, opt_of_hplShape h]
    cases happlies : c.hplApplies with
    | true =>
      refine iff_of_true (fun o ho _ => ?_) fun _ => rfl
      obtain ⟨part, -, rfl⟩ := Option.map_eq_some_iff.mp ho
      exact ⟨_, rfl⟩
    | false => simp
  | false =>
    refine iff_of_true (fun o ho hret => ?_) fun h => absurd h (by decide)
    by_cases hrow : c.TakesRow
    · rw [opt_of_takesRow hrow] at ho
      obtain ⟨part, -, rfl⟩ := Option.map_eq_some_iff.mp ho
      exact ⟨_, rfl⟩
    · obtain ⟨o', ho', hsome⟩ := opt_of_not_takesRow h hrow
      obtain rfl := Option.some_inj.mp (ho'.symm.trans ho)
      exact Option.isSome_iff_exists.mp (hsome ▸ hret)

/-- A synchronous gmove in normal mode tries the optimized paths first. -/
theorem common_eq (hleft : c.left.isGlobal = true) (hright : c.right.isGlobal = true)
    (hmode : c.mode = .normal) (hasync : c.isAsync = false) :
    c.gmoveArrayArrayCommon = c.gmoveGarrayGarrayOpt.map fun o =>
      if o.ret then o.transfer else some .oneToOne := by
  rw [gmoveArrayArrayCommon, if_pos (by simp [hleft, hright, hmode, hasync])]
  cases c.gmoveGarrayGarrayOpt with
  | none => rfl
  | some o => cases h : o.ret <;> simp [h]

end Call

/-- Four processes `p(2,2)` and its rows `r(2) = p(*,1:2)`, on the last process. -/
def gridNodes : NodesFields := ⟨1, none, 10, 4, 2, fun _ => 2, fun _ => 1⟩

def rowNodes : NodesFields := ⟨2, some 1, 11, 2, 1, fun _ => 2, fun _ => 1⟩

/-- `t(0:7,0:1)` distributed `(cyclic(2),block)` onto `p`, and `u(0:7)` distributed `cyclic(2)` onto
`r`. -/
def gridTemplate : TemplateFields where
  addr := 3
  dim := 2
  serLower := fun _ => 0
  serUpper := fun i => if i = 0 then 7 else 1
  chunk := fun i => if i = 0 then ⟨2, 4, .blockCyclic, 0, fun _ => 0, 0⟩
    else ⟨1, 1, .block, 0, fun _ => 0, 1⟩
  ontoNodes := gridNodes

def rowTemplate : TemplateFields where
  addr := 4
  dim := 1
  serLower := fun _ => 0
  serUpper := fun _ => 7
  chunk := fun _ => ⟨2, 4, .blockCyclic, 0, fun _ => 0, 0⟩
  ontoNodes := rowNodes

/-- `src[i][j]` is aligned with `t(j,i)` and `dst[j]` with `u(j)`. -/
def srcFields : ArrayFields where
  dim := 2
  isAllocated := true
  info := fun i => if i = 0 then ⟨0, 1, .block, 0, 1, 0, 0⟩ else ⟨0, 7, .blockCyclic, 0, 0, 0, 0⟩
  alignTemplate := gridTemplate
  arrayNodes := gridNodes

def dstFields : ArrayFields where
  dim := 1
  isAllocated := true
  info := fun _ => ⟨0, 7, .blockCyclic, 0, 0, 0, 0⟩
  alignTemplate := rowTemplate
  arrayNodes := rowNodes

/-- The gmove `dst[lo:hi] = src[row][lo:hi]`, with bounds that are included. -/
def rowCall (row lo hi : ℤ) : Call where
  left := ⟨true, 1, dstFields, fun _ => lo, fun _ => hi, fun _ => 1⟩
  right := ⟨true, 2, srcFields, fun i => if i = 0 then row else lo,
    fun i => if i = 0 then row else hi, fun i => if i = 0 then 0 else 1⟩
  dst := ⟨fun _ => lo, fun _ => hi, fun _ => 1, fun _ => 1⟩
  src := ⟨fun i => if i = 0 then row else lo, fun i => if i = 0 then row else hi,
    fun i => if i = 0 then 0 else 1, fun i => if i = 0 then 4 else 1⟩
  mode := .normal
  isAsync := false
  execCommSize := 4
  xmpfRunning := false
  xmpcRunning := true
  map0 := fun _ _ => 0
  map1 := fun _ _ => 0

theorem rowCall_fits : (rowCall 1 2 3).Fits where
  dimFits_dst := ⟨by decide, by decide⟩
  dimFits_src i := by
    rintro (rfl | rfl | rfl)
    · exact ⟨by decide, by decide⟩
    · exact ⟨by decide, by decide⟩
    · exact ⟨by decide, by decide⟩
  inInt_dst := by decide
  inInt_src i := by
    rintro (rfl | rfl | rfl)
    · decide
    · decide
    · decide
  lengthFits_dst s e hs he := by
    obtain rfl : 0 = s := Option.some_inj.mp hs
    obtain rfl : 1 = e := Option.some_inj.mp he
    decide
  lengthFits_src s e hs he := by
    obtain rfl : 0 = s := Option.some_inj.mp hs
    obtain rfl : 1 = e := Option.some_inj.mp he
    decide

end OmniCompiler.Xmp.GmoveOpt
