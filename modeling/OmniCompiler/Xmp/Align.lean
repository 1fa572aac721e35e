import OmniCompiler.Xmp.OwnerFlag

/-!
# Aligning an array with a template (`xmp_align.c`)

Each `_XMP_align_array_*` function fills one dimension of the array descriptor from one
dimension of the template. `alignInfo` selects among them as `xmpf_align_info__` does; in
translated C programs the selection is made at compile time.
-/
namespace OmniCompiler.Xmp

open MachineInt

variable {k d n : ℕ}

inductive AlignManner where
  | notAligned
  | duplication
  | block
  | cyclic
  | blockCyclic
  | gblock
  deriving DecidableEq, Repr

/-- `_XMP_array_info_t`. The bounds are set when the descriptor is created and are not
empty; `alignTemplateIndex = none` is `_XMP_N_NO_ALIGN_TEMPLATE`. -/
structure ArrayInfo (d : ℕ) where
  serLower : ℤ
  serUpper : ℤ
  lower_le_upper : serLower ≤ serUpper
  isRegularChunk : Bool
  alignManner : AlignManner
  parLower : ℤ
  parUpper : ℤ
  parStride : ℤ
  parSize : ℤ
  localLower : ℤ
  localUpper : ℤ
  localStride : ℤ
  allocSize : ℤ
  shadowSizeLo : ℤ
  shadowSizeHi : ℤ
  alignSubscript : ℤ
  alignTemplateIndex : Option (Fin d)

def ArrayInfo.serSize (ai : ArrayInfo d) : ℤ := ai.serUpper - ai.serLower + 1

/-- One dimension as `_XMP_init_array_desc` leaves it. -/
def initArrayInfo (lower upper : ℤ) (h : lower ≤ upper) : ArrayInfo d where
  serLower := lower
  serUpper := upper
  lower_le_upper := h
  isRegularChunk := false
  alignManner := .notAligned
  parLower := 0
  parUpper := 0
  parStride := 0
  parSize := 0
  localLower := 0
  localUpper := 0
  localStride := 0
  allocSize := 0
  shadowSizeLo := 0
  shadowSizeHi := 0
  alignSubscript := 0
  alignTemplateIndex := none

/-- `_XMP_array_t` with `k` dimensions, as it stands on one executing node. -/
structure XmpArray (k d n : ℕ) where
  isAllocated : Bool
  alignTemplate : Template d n
  info : Fin k → ArrayInfo d

def XmpArray.setInfo (array : XmpArray k d n) (arrayIndex : Fin k) (ai : ArrayInfo d)
    (isAllocated : Bool) : XmpArray k d n :=
  { array with isAllocated := isAllocated, info := Function.update array.info arrayIndex ai }

@[simp] theorem XmpArray.setInfo_alignTemplate (array : XmpArray k d n) (i : Fin k)
    (ai : ArrayInfo d) (b : Bool) : (array.setInfo i ai b).alignTemplate = array.alignTemplate :=
  rfl

@[simp] theorem XmpArray.setInfo_info (array : XmpArray k d n) (i : Fin k) (ai : ArrayInfo d)
    (b : Bool) : (array.setInfo i ai b).info = Function.update array.info i ai := rfl

def alignArrayNotAligned (array : XmpArray k d n) (arrayIndex : Fin k) : XmpArray k d n :=
  let ai := array.info arrayIndex
  array.setInfo arrayIndex
    { ai with
      isRegularChunk := true
      alignManner := .notAligned
      parLower := ai.serLower
      parUpper := ai.serUpper
      parStride := 1
      parSize := ai.serSize
      localLower := 0
      localUpper := ai.serUpper - ai.serLower
      localStride := 1
      allocSize := ai.serSize
      alignSubscript := 0
      alignTemplateIndex := none }
    array.isAllocated

def AlignsWithin (ti : TemplateInfo) (ai : ArrayInfo d) (alignSubscript : ℤ) : Prop :=
  ti.serLower ≤ ai.serLower + alignSubscript ∧ ai.serUpper + alignSubscript ≤ ti.serUpper

instance (ti : TemplateInfo) (ai : ArrayInfo d) (alignSubscript : ℤ) :
    Decidable (AlignsWithin ti ai alignSubscript) :=
  inferInstanceAs (Decidable (_ ∧ _))

/-- The parallel members of a duplicated dimension on a node that owns part of the
template. -/
def duplicationInfo (ai : ArrayInfo d) : ArrayInfo d :=
  { ai with
    parLower := ai.serLower
    parUpper := ai.serUpper
    parStride := 1
    parSize := ai.serSize
    localLower := ai.serLower
    localUpper := ai.serUpper
    localStride := 1
    allocSize := ai.serSize }

/-- The chunk of `_XMP_align_array_BLOCK` and `_XMP_align_array_GBLOCK`, cut at the array
bounds. The flag is false when the node holds no element. -/
def contiguousInfo (ai : ArrayInfo d) (chunk : TemplateChunk n) (alignSubscript : ℤ) :
    ArrayInfo d × Bool :=
  let alignLower := ai.serLower + alignSubscript
  let alignUpper := ai.serUpper + alignSubscript
  let templateLower := chunk.parLower
  let templateUpper := chunk.parUpper
  if templateLower ≤ alignLower ∧ templateUpper < alignLower then (ai, false)
  else
    let parLower := if alignLower < templateLower then templateLower - alignSubscript
      else ai.serLower
    if alignUpper < templateLower then ({ ai with parLower := parLower }, false)
    else
      let parUpper := if templateUpper < alignUpper then templateUpper - alignSubscript
        else ai.serUpper
      let parSize := countTriplet parLower parUpper 1
      ({ ai with
          parLower := parLower
          parUpper := parUpper
          parStride := 1
          parSize := parSize
          localLower := 0
          localUpper := parSize - 1
          localStride := 1
          allocSize := parSize }, true)

def cyclicInfo (ti : TemplateInfo) (ai : ArrayInfo d) (chunk : TemplateChunk n)
    (alignSubscript : ℤ) : ArrayInfo d :=
  let cycle := chunk.parStride
  let nsize := chunk.nodesSize
  let rankLb := (ai.serLower + alignSubscript - ti.serLower).tmod nsize
  let mod := modi (chunk.nodesRank - rankLb) nsize
  let dist := (ai.serUpper - (mod + ai.serLower)).tdiv cycle
  let parLower := mod + ai.serLower
  let parSize := dist + 1
  { ai with
    parLower := parLower
    parUpper := parLower + dist * cycle
    parStride := cycle
    parSize := parSize
    localLower := 0
    localUpper := parSize - 1
    localStride := 1
    allocSize := parSize }

def blockCyclicInfo (ti : TemplateInfo) (ai : ArrayInfo d) (chunk : TemplateChunk n)
    (alignSubscript : ℤ) : ArrayInfo d :=
  let cycle := chunk.parStride
  let nsize := chunk.nodesSize
  let rankDist := (ai.serLower + alignSubscript - ti.serLower).tdiv chunk.parWidth
  let vLower := ti.serLower + chunk.parWidth * rankDist - alignSubscript
  let rankLb := rankDist.tmod nsize
  let mod := modi (chunk.nodesRank - rankLb) nsize
  let parLower := max ai.serLower (mod * chunk.parWidth + vLower)
  -- `par_width` is unsigned, and so are the difference and the division
  let dist := toInt ((toULL (ai.serUpper - (mod * chunk.parWidth + vLower))).tdiv (toULL cycle))
  let last := parLower + toInt (dist * cycle) + (chunk.parWidth - 1)
  let diff := ai.serUpper - last
  let parUpper := if 0 < diff then last else ai.serUpper
  let parSize := toInt (if 0 < diff then (dist + 1) * chunk.parWidth
    else (dist + 1) * chunk.parWidth + diff)
  { ai with
    parLower := parLower
    parUpper := parUpper
    parStride := chunk.parStride
    parSize := parSize
    localLower := 0
    localUpper := parSize - 1
    localStride := 1
    allocSize := parSize }

/-- What the aligned formats have in common: the range check, the members computed on an
owner of the template, and the members every node sets. -/
def alignArrayWith (array : XmpArray k d n) (arrayIndex : Fin k) (templateIndex : Fin d)
    (alignSubscript : ℤ) (alignManner : AlignManner) (isRegularChunk : Bool)
    (members : ArrayInfo d × Bool) : Except String (XmpArray k d n) :=
  let template := array.alignTemplate
  let ai := array.info arrayIndex
  if AlignsWithin (template.info templateIndex) ai alignSubscript then
    let members := if template.isOwner then members else (ai, true)
    .ok <| array.setInfo arrayIndex
      { members.1 with
        isRegularChunk := isRegularChunk
        alignManner := alignManner
        alignSubscript := alignSubscript
        alignTemplateIndex := some templateIndex }
      (array.isAllocated && members.2)
  else .error "aligned array is out of template bound"

def alignIsRegular (ti : TemplateInfo) (ai : ArrayInfo d) (chunk : TemplateChunk n)
    (alignSubscript : ℤ) : Bool :=
  decide (ti.serLower = ai.serLower + alignSubscript) && chunk.isRegularChunk

section

variable (array : XmpArray k d n) (arrayIndex : Fin k) (templateIndex : Fin d) (alignSubscript : ℤ)

def alignArrayDuplication : Except String (XmpArray k d n) :=
  alignArrayWith array arrayIndex templateIndex alignSubscript .duplication true
    (duplicationInfo (array.info arrayIndex), true)

def alignArrayBlock : Except String (XmpArray k d n) :=
  let ti := array.alignTemplate.info templateIndex
  let chunk := array.alignTemplate.chunk templateIndex
  let ai := array.info arrayIndex
  alignArrayWith array arrayIndex templateIndex alignSubscript .block
    (alignIsRegular ti ai chunk alignSubscript) (contiguousInfo ai chunk alignSubscript)

def alignArrayCyclic : Except String (XmpArray k d n) :=
  let ti := array.alignTemplate.info templateIndex
  let chunk := array.alignTemplate.chunk templateIndex
  let ai := array.info arrayIndex
  alignArrayWith array arrayIndex templateIndex alignSubscript .cyclic
    (alignIsRegular ti ai chunk alignSubscript) (cyclicInfo ti ai chunk alignSubscript, true)

def alignArrayBlockCyclic : Except String (XmpArray k d n) :=
  let ti := array.alignTemplate.info templateIndex
  let chunk := array.alignTemplate.chunk templateIndex
  let ai := array.info arrayIndex
  alignArrayWith array arrayIndex templateIndex alignSubscript .blockCyclic true
    (blockCyclicInfo ti ai chunk alignSubscript, true)

def alignArrayGblock : Except String (XmpArray k d n) :=
  let ti := array.alignTemplate.info templateIndex
  let chunk := array.alignTemplate.chunk templateIndex
  let ai := array.info arrayIndex
  alignArrayWith array arrayIndex templateIndex alignSubscript .gblock
    (alignIsRegular ti ai chunk alignSubscript) (contiguousInfo ai chunk alignSubscript)

end

/-- The target of one array dimension is `none` for a dimension that is not aligned, else
the template dimension and the offset. -/
def alignInfo (array : XmpArray k d n) (arrayIndex : Fin k) (target : Option (Fin d × ℤ)) :
    Except String (XmpArray k d n) :=
  match target with
  | none => .ok (alignArrayNotAligned array arrayIndex)
  | some (templateIndex, alignSubscript) =>
    if array.alignTemplate.isFixed then
      match (array.alignTemplate.chunk templateIndex).distManner with
      | .duplication => alignArrayDuplication array arrayIndex templateIndex alignSubscript
      | .block => alignArrayBlock array arrayIndex templateIndex alignSubscript
      | .cyclic => alignArrayCyclic array arrayIndex templateIndex alignSubscript
      | .blockCyclic => alignArrayBlockCyclic array arrayIndex templateIndex alignSubscript
      | .gblock => alignArrayGblock array arrayIndex templateIndex alignSubscript
    else .error "The align-target template is not fixed"

def alignArray (array : XmpArray k d n) (target : Fin k → Option (Fin d × ℤ)) :
    Except String (XmpArray k d n) :=
  (List.finRange k).foldlM (fun array i => alignInfo array i (target i)) array

end OmniCompiler.Xmp
