import OmniCompiler.Arithmetic.Odometer
import OmniCompiler.Memory.Datatype
import OmniCompiler.Xmp.CoarrayLocal

/-!
# Remote coarray put and get (`xmp_coarray_mpi.c`)

A put writes into the memory of another node, a get reads from it. Two contiguous sections are one
transfer of bytes; otherwise nested datatypes describe both sections. A single element is spread
over the destination: a put sends one block for each place of the outer dimensions, a get fetches
the element once and copies it at home. A transfer moves its bytes when it is called.
-/
namespace OmniCompiler.Xmp.Coarray

open Memory MixedRadix

variable {β : Type}

structure Memories (β : Type) where
  here : ℤ → β
  remote : ℤ → β

/-- `_XMP_N_COARRAY_PUT` and `_XMP_N_COARRAY_GET`. -/
inductive CoarrayOp
  | put
  | get
  deriving DecidableEq

def mpiContiguous (op : CoarrayOp) (m : Memories β) (remoteDesc : CoarrayDesc) (addr : ℤ)
    (remoteOffset localOffset transferSize : ℕ) : Option (Memories β) :=
  if transferSize = 0 then some m
  else
    let laddr := addr + localOffset
    let raddr := remoteDesc.realAddr + remoteOffset
    match op with
    | .put => (moveBytes transferSize m.here m.remote raddr laddr).map fun r =>
      { m with remote := r }
    | .get => (moveBytes transferSize m.remote m.here laddr raddr).map fun h => { m with here := h }

/-- `types[0]` of `_mpi_make_types`; each dimension is a vector of the next one. -/
def mpiMakeTypes (elementSize : ℕ) : List ArraySection → Option Datatype
  | [] => some Datatype.byte
  | section' :: sections => do
    let oldtype ← mpiMakeTypes elementSize sections
    let blocklength := if sections.isEmpty then elementSize else 1
    Datatype.hvector section'.length blocklength (section'.distance * section'.stride) oldtype

def mpiNonContiguous (op : CoarrayOp) (m : Memories β) (remoteDesc : CoarrayDesc) (addr : ℤ)
    (remoteOffset localOffset : ℕ) (remoteInfo localInfo : List ArraySection) :
    Option (Memories β) := do
  let laddr := addr + localOffset
  let raddr := remoteDesc.realAddr + remoteOffset
  let localType ← mpiMakeTypes remoteDesc.elmtSize localInfo
  let remoteType ← mpiMakeTypes remoteDesc.elmtSize remoteInfo
  match op with
  | .put => (moveTyped remoteType localType m.here m.remote raddr laddr).map fun r =>
      { m with remote := r }
  | .get => (moveTyped localType remoteType m.remote m.here laddr raddr).map fun h =>
      { m with here := h }

/-- `allelmt_size`: the bytes of a block whose dimensions are complete. -/
def allelmtSize (elementSize : ℕ) (dstInfo : List ArraySection) : Option ℕ :=
  if getDimOfAllelmts dstInfo = dstInfo.length then some elementSize
  else dstInfo[getDimOfAllelmts dstInfo]?.map fun d => d.distance * d.elmts

/-- `offset` of a put; `idxs` starts with the index of dimension 0. -/
def putOffset (dstInfo : List ArraySection) (idxs : List ℕ) : ℕ :=
  (List.zipWith (fun d i => d.distance * i * d.stride) dstInfo idxs).sum

/-- The block that a put sends, with its address; `fresh` is the contents of a new block. -/
def putBlock (elementSize size : ℕ) (complete : Bool) (here fresh : ℤ → β) (src : ℤ) :
    (ℤ → β) × ℤ :=
  if complete then (here, src)
  else
    (transfers elementSize here fresh
      ((List.range (size / elementSize)).map fun i => (((elementSize * i : ℕ) : ℤ), src)), 0)

/-- `_mpi_scalar_mput`; the loop is given `fuel`. -/
def mpiScalarMput (fuel : ℕ) (m : Memories β) (dstDesc : CoarrayDesc) (src : ℤ)
    (dstOffset srcOffset : ℕ) (dstInfo : List ArraySection) (fresh : ℤ → β) :
    Option (Memories β) := do
  let allelmtDim := getDimOfAllelmts dstInfo
  let size ← allelmtSize dstDesc.elmtSize dstInfo
  let block := putBlock dstDesc.elmtSize size (allelmtDim = dstInfo.length) m.here fresh
    (src + srcOffset)
  let raddr := dstDesc.realAddr + dstOffset
  let remote ← odometerLoop
    (fun idxs r => moveBytes size block.1 r (raddr + putOffset dstInfo idxs) block.2)
    ((dstInfo.take allelmtDim).map ArraySection.length) fuel (List.replicate allelmtDim 0) m.remote
  some { m with remote := remote }

/-- `_unpack_scalar`; `_XMP_stride_memcpy_1dim` to `_XMP_stride_memcpy_7dim` run through the
section. -/
def unpackScalar (dst : ℤ) (src : ℤ) (dstInfo : List ArraySection) (here : ℤ → β) :
    Option (ℤ → β) :=
  let dstOffset := getOffset dstInfo
  if dstInfo.length ≤ 7 then
    dstInfo.getLast?.bind fun d =>
      scalarCopy (dst + dstOffset) src d.distance here (offsets dstInfo)
  else none

def mpiScalarMget (m : Memories β) (dst : ℤ) (srcDesc : CoarrayDesc) (dstOffset srcOffset : ℕ)
    (dstInfo : List ArraySection) : Option (Memories β) := do
  let laddr := dst + dstOffset
  let raddr := srcDesc.realAddr + srcOffset
  let fetched ← moveBytes srcDesc.elmtSize m.remote m.here laddr raddr
  let here ← unpackScalar dst laddr dstInfo fetched
  some { m with here := here }

/-- `_XMP_mpi_put`; `none` is a failed call or `_XMP_fatal`. -/
def mpiPut (fuel : ℕ) (dstContiguous srcContiguous : Bool) (dstInfo srcInfo : List ArraySection)
    (dstDesc : CoarrayDesc) (src : ℤ) (dstElmts srcElmts : ℕ) (m : Memories β) (fresh : ℤ → β) :
    Option (Memories β) :=
  let dstOffset := getOffset dstInfo
  let srcOffset := getOffset srcInfo
  let transferSize := dstDesc.elmtSize * dstElmts
  if dstElmts = srcElmts then
    if dstContiguous && srcContiguous then
      mpiContiguous .put m dstDesc src dstOffset srcOffset transferSize
    else mpiNonContiguous .put m dstDesc src dstOffset srcOffset dstInfo srcInfo
  else if srcElmts = 1 then mpiScalarMput fuel m dstDesc src dstOffset srcOffset dstInfo fresh
  else none

def mpiGet (srcContiguous dstContiguous : Bool) (srcInfo dstInfo : List ArraySection)
    (srcDesc : CoarrayDesc) (dst : ℤ) (srcElmts dstElmts : ℕ) (m : Memories β) :
    Option (Memories β) :=
  let dstOffset := getOffset dstInfo
  let srcOffset := getOffset srcInfo
  let transferSize := srcDesc.elmtSize * srcElmts
  if srcElmts = dstElmts then
    if srcContiguous && dstContiguous then
      mpiContiguous .get m srcDesc dst srcOffset dstOffset transferSize
    else mpiNonContiguous .get m srcDesc dst srcOffset dstOffset srcInfo dstInfo
  else if srcElmts = 1 then mpiScalarMget m dst srcDesc dstOffset srcOffset dstInfo
  else none

variable {elmtSize : ℕ} {d : ArraySection} {ds info : List ArraySection}

/-! ## Nested datatypes -/

/-- Counts and byte strides that fit in an `int`. -/
def StridesFit (info : List ArraySection) : Prop := ∀ d ∈ info, d.distance * d.stride < 2 ^ 31

theorem length_lt (hw : WellFormed elmtSize info) (hcount : sectionElmts info < 2 ^ 31) :
    ∀ d ∈ info, d.length < 2 ^ 31 := by
  intro d hd
  have hdvd : d.length ∣ sectionElmts info := List.dvd_prod (List.mem_map_of_mem hd)
  exact (Nat.le_of_dvd (sectionElmts_pos hw) hdvd).trans_lt hcount

theorem distance_getLast (hw : WellFormed elmtSize info) {d : ArraySection}
    (hd : info.getLast? = some d) : d.distance = elmtSize ∧ 0 < d.stride := by
  induction info with
  | nil => cases hd
  | cons e ds ih =>
    cases ds with
    | nil =>
      have heq : e = d := Option.some.inj hd
      rw [← heq, hw.2.2.2.1]
      exact ⟨one_mul elmtSize, hw.2.1⟩
    | cons e' ds =>
      rw [List.getLast?_cons_cons] at hd
      exact ih hw.2.2.2.2 hd

theorem elmtSize_lt (hw : WellFormed elmtSize info) (hne : info ≠ []) (hfit : StridesFit info) :
    elmtSize < 2 ^ 31 := by
  have hlast : info.getLast? = some (info.getLast hne) := List.getLast?_eq_some_getLast hne
  obtain ⟨hdist, hpos⟩ := distance_getLast hw hlast
  have hbytes := hfit _ (List.getLast_mem hne)
  rw [hdist] at hbytes
  exact (Nat.le_mul_of_pos_right _ hpos).trans_lt hbytes

theorem mpiMakeTypes_spec (hne : info ≠ []) (he : elmtSize < 2 ^ 31)
    (hlen : ∀ d ∈ info, d.length < 2 ^ 31) (hfit : StridesFit info) :
    ∃ t, mpiMakeTypes elmtSize info = some t ∧ t.typeMap = span elmtSize (offsets info) := by
  induction info with
  | nil => exact absurd rfl hne
  | cons d ds ih =>
    have hd := hlen d List.mem_cons_self
    have hbytes := hfit d List.mem_cons_self
    cases ds with
    | nil =>
      obtain ⟨t, ht, hmap⟩ := Datatype.hvector_eq hd he hbytes Datatype.byte
      refine ⟨t, ht, ?_⟩
      rw [hmap, offsets, span_flatMap]
      apply List.flatMap_congr
      intro i _
      have hrow : span elmtSize ((offsets []).map (d.strideOffset * i + ·)) =
          (List.range elmtSize).map (d.strideOffset * i + ·) := by
        rw [offsets, List.map_singleton, span_cons, span_nil, List.append_nil, add_zero,
          List.range'_eq_map_range]
      rw [hrow, List.map_eq_flatMap]
      apply List.flatMap_congr
      intro j _
      rw [Datatype.byte, List.map_singleton, ArraySection.strideOffset]
      ring_nf
    | cons e ds =>
      obtain ⟨old, hold, holdmap⟩ := ih (List.cons_ne_nil e ds)
        (fun x hx => hlen x (List.mem_cons_of_mem d hx))
        fun x hx => hfit x (List.mem_cons_of_mem d hx)
      obtain ⟨t, ht, hmap⟩ := Datatype.hvector_eq hd (show 1 < 2 ^ 31 by decide) hbytes old
      refine ⟨t, ?_, ?_⟩
      · rw [mpiMakeTypes, hold]
        exact ht
      · rw [hmap, span_offsets_cons, holdmap]
        apply List.flatMap_congr
        intro i _
        rw [List.range_one, List.flatMap_singleton]
        apply List.map_congr_left
        intro o _
        rw [ArraySection.strideOffset]
        ring

/-! ## Blocks of complete dimensions -/

/-- The bytes of the complete dimensions are the blocks that the outer dimensions move. -/
theorem allelmtSize_spec (hw : WellFormed elmtSize info) (hne : info ≠ []) :
    allelmtSize elmtSize info = some (extent elmtSize (info.drop (getDimOfAllelmts info))) ∧
      span elmtSize (offsets info) = span (extent elmtSize (info.drop (getDimOfAllelmts info)))
        (offsets (info.take (getDimOfAllelmts info))) := by
  induction info with
  | nil => exact absurd rfl hne
  | cons d ds ih =>
    rw [getDimOfAllelmts_cons]
    split_ifs with hds hd
    · have hall : (d :: ds).all ArraySection.isAll = true := by
        rw [List.all_cons, hd, hds]
        rfl
      have hk : getDimOfAllelmts (d :: ds) = 0 := by
        rw [getDimOfAllelmts_cons, if_pos hds, if_pos hd]
      constructor
      · rw [allelmtSize, hk, if_neg (by rw [List.length_cons]; omega), List.drop_zero, extent_cons,
          ← hw.2.2.2.1, mul_comm]
        rfl
      · rw [span_offsets_of_all hw hall, List.drop_zero, List.take_zero, offsets,
          span_cons, span_nil,
          List.append_nil]
    · have hk : getDimOfAllelmts (d :: ds) = 1 := by
        rw [getDimOfAllelmts_cons, if_pos hds, if_neg hd]
      have hrow : span elmtSize (offsets ds) = List.range' 0 d.distance := by
        rw [hw.2.2.2.1]
        exact span_offsets_of_all hw.2.2.2.2 hds
      constructor
      · rw [allelmtSize, hk]
        cases ds with
        | nil =>
          exact congrArg some (one_mul elmtSize).symm
        | cons e es =>
          rw [if_neg (by rw [List.length_cons, List.length_cons]; omega), List.drop_one,
            List.tail_cons,
            extent_cons, ← hw.2.2.2.2.2.2.2.1, mul_comm]
          rfl
      · rw [span_offsets_of_rows hrow, List.drop_one, List.tail_cons, ← hw.2.2.2.1,
          List.take_succ_cons, List.take_zero, offsets, List.map_eq_flatMap]
        rfl
    · have hne' : ds ≠ [] := by
        rintro rfl
        exact hds rfl
      obtain ⟨hsize, hspan⟩ := ih hw.2.2.2.2 hne'
      have hk : getDimOfAllelmts (d :: ds) = getDimOfAllelmts ds + 1 := by
        rw [getDimOfAllelmts_cons, if_neg hds]
      constructor
      · rw [List.drop_succ_cons, ← hsize, allelmtSize, allelmtSize, hk, List.length_cons,
          List.getElem?_cons_succ]
        simp only [Nat.add_right_cancel_iff]
      · rw [List.drop_succ_cons, List.take_succ_cons, span_offsets_cons, hspan, offsets,
          span_flatMap]
        simp only [span_map_add]

theorem map_putOffset (outer rest : List ArraySection) :
    ((List.range (outer.map ArraySection.length).prod).map
      (odometer (outer.map ArraySection.length))).map (putOffset (outer ++ rest)) =
        offsets outer := by
  induction outer with
  | nil =>
    show [putOffset rest []] = [0]
    rw [putOffset, List.zipWith_nil_right, List.sum_nil]
  | cons d outer ih =>
    rw [List.map_cons, map_odometer_cons, List.map_flatMap, offsets, ← ih]
    apply List.flatMap_congr
    intro i _
    generalize (List.range (outer.map ArraySection.length).prod).map
      (odometer (outer.map ArraySection.length)) = places
    rw [List.map_map, List.map_map]
    apply List.map_congr_left
    intro idxs _
    rw [Function.comp_apply, Function.comp_apply, putOffset, putOffset, List.cons_append,
      List.zipWith_cons_cons, List.sum_cons, ArraySection.strideOffset]
    ring

theorem distance_dvd (hw : WellFormed elmtSize info) : ∀ d ∈ info, elmtSize ∣ d.distance := by
  induction info with
  | nil => nofun
  | cons e ds ih =>
    intro d hd
    obtain rfl | hd := List.mem_cons.mp hd
    · rw [hw.2.2.2.1]
      exact elmtSize_dvd_extent
    · exact ih hw.2.2.2.2 d hd

theorem offsets_dvd (h : ∀ d ∈ info, elmtSize ∣ d.distance) : ∀ o ∈ offsets info, elmtSize ∣ o := by
  induction info with
  | nil =>
    intro o ho
    obtain rfl := List.mem_singleton.mp ho
    exact dvd_zero _
  | cons d ds ih =>
    intro o ho
    obtain ⟨i, -, ho⟩ := List.mem_flatMap.mp ho
    obtain ⟨x, hx, rfl⟩ := List.mem_map.mp ho
    apply dvd_add
    · rw [ArraySection.strideOffset]
      exact ((h d List.mem_cons_self).mul_left _).mul_right _
    · exact ih (fun e he => h e (List.mem_cons_of_mem d he)) x hx

/-! ## Spreading one element -/

section Spread

variable {n : ℕ} {os os' : List ℕ} {dst l s : ℤ} {buf src mem mem' : ℤ → β}

/-- Blocks that repeat an element write it to each of the elements that they consist of. -/
theorem isAssignment_spread (hspan : span n os = span elmtSize os') (hos : ∀ o ∈ os, elmtSize ∣ o)
    (hos' : ∀ o ∈ os', elmtSize ∣ o)
    (hbuf : ∀ r : ℕ, r < n → buf (l + r) = src (s + (r % elmtSize : ℕ)))
    (h : IsAssignment n (os.map fun o : ℕ => (dst + o, l)) buf mem mem') :
    IsAssignment elmtSize (os'.map fun o : ℕ => (dst + o, s)) src mem mem' := by
  constructor
  · intro p hp r hr
    obtain ⟨o', ho', rfl⟩ := List.mem_map.mp hp
    have hmem : o' + r ∈ span n os := by
      rw [hspan]
      exact mem_span.mpr ⟨o', ho', by omega, by omega⟩
    obtain ⟨o, ho, hle, hlt⟩ := mem_span.mp hmem
    -- byte `r` of the element is byte `k` of the block
    obtain ⟨k, hk⟩ := Nat.exists_eq_add_of_le hle
    have hmod : k % elmtSize = r := by
      obtain ⟨a, rfl⟩ := hos o ho
      obtain ⟨b, rfl⟩ := hos' o' ho'
      have hmods := congrArg (· % elmtSize) hk
      rw [Nat.mul_add_mod, Nat.mul_add_mod, Nat.mod_eq_of_lt hr] at hmods
      exact hmods.symm
    have hmoved := h.moved (dst + o, l) (List.mem_map_of_mem ho) k (by omega)
    rw [hbuf k (by omega), hmod] at hmoved
    have haddr : dst + (o' : ℤ) + (r : ℤ) = dst + (o : ℤ) + (k : ℤ) := by omega
    dsimp only at hmoved ⊢
    rw [haddr, hmoved]
  · intro a ha
    apply h.kept
    intro p hp r hr heq
    obtain ⟨o, ho, rfl⟩ := List.mem_map.mp hp
    have hmem : o + r ∈ span elmtSize os' := by
      rw [← hspan]
      exact mem_span.mpr ⟨o, ho, by omega, by omega⟩
    obtain ⟨o', ho', hle, hlt⟩ := mem_span.mp hmem
    apply ha (dst + o', s) (List.mem_map_of_mem ho') (o + r - o') (by omega)
    omega

theorem isAssignment_repeat (h : os.Pairwise fun x y => x + n ≤ y) (dst l : ℤ) (buf mem : ℤ → β) :
    IsAssignment n (os.map fun o : ℕ => (dst + o, l)) buf mem
      (transfers n buf mem (os.map fun o : ℕ => (dst + o, l))) := by
  apply isAssignment_transfers
  rw [DisjointBlocks, List.pairwise_map]
  apply h.imp
  intro x y hxy
  dsimp only
  omega

theorem foldlM_moveBytes {c : ℕ} (hc : mpiCount n = some c) (buf mem : ℤ → β) (dst l : ℤ)
    (os : List ℕ) : os.foldlM (fun r o => moveBytes n buf r (dst + (o : ℕ)) l) mem =
      some (transfers c buf mem (os.map fun o : ℕ => (dst + o, l))) := by
  induction os generalizing mem with
  | nil => rfl
  | cons o os ih =>
    rw [List.foldlM_cons, moveBytes, hc]
    exact ih (transfer c buf mem (dst + o) l)

theorem putBlock_spec {size : ℕ} (complete : Bool) (hdvd : elmtSize ∣ size)
    (hcomplete : complete = true → size = elmtSize) (here fresh : ℤ → β) (src : ℤ) (r : ℕ)
    (hr : r < size) :
    (putBlock elmtSize size complete here fresh src).1
      ((putBlock elmtSize size complete here fresh src).2 + r) =
        here (src + (r % elmtSize : ℕ)) := by
  cases complete with
  | true =>
    rw [Nat.mod_eq_of_lt (hcomplete rfl ▸ hr)]
    rfl
  | false =>
    have he : 0 < elmtSize := by
      apply Nat.pos_of_ne_zero
      rintro rfl
      rw [Nat.eq_zero_of_zero_dvd hdvd] at hr
      omega
    have hdisjoint : DisjointBlocks elmtSize
        ((List.range (size / elmtSize)).map fun i => (((elmtSize * i : ℕ) : ℤ), src)) := by
      rw [DisjointBlocks, List.pairwise_map]
      apply List.pairwise_lt_range.imp
      intro i j hij
      left
      have hle := Nat.mul_le_mul_left elmtSize (Nat.succ_le_of_lt hij)
      rw [Nat.mul_succ] at hle
      dsimp only
      exact_mod_cast hle
    have hblock : (((elmtSize * (r / elmtSize) : ℕ) : ℤ), src) ∈
        (List.range (size / elmtSize)).map fun i => (((elmtSize * i : ℕ) : ℤ), src) := by
      apply List.mem_map_of_mem
      rw [List.mem_range]
      exact Nat.div_lt_div_of_lt_of_dvd hdvd hr
    have hmoved := @transfers_inside _ _ _ here _ fresh hdisjoint _ hblock (Nat.mod_lt r he)
    have haddr : (0 : ℤ) + (r : ℤ) = ((elmtSize * (r / elmtSize) : ℕ) : ℤ) +
      ((r % elmtSize : ℕ) : ℤ) := by
      rw [zero_add]
      exact_mod_cast (Nat.div_add_mod r elmtSize).symm
    rw [putBlock, if_neg Bool.false_ne_true]
    dsimp only
    rw [haddr]
    exact hmoved

end Spread

/-! ## Puts and gets -/

/-- The blocks of an assignment: the `k`-th element of the source goes to the `k`-th element of the
destination; a single element goes to all. -/
def assignedBlocks (dst src : ℤ) (dstInfo srcInfo : List ArraySection) : List (ℤ × ℤ) :=
  if sectionElmts dstInfo = sectionElmts srcInfo then
    blocksAt dst src (elementOffsets dstInfo) (elementOffsets srcInfo)
  else (elementOffsets srcInfo).flatMap fun s : ℕ =>
    (elementOffsets dstInfo).map fun d : ℕ => (dst + d, src + s)

/-- A put assigns the section of the target and changes nothing else, whatever the memories hold; it
does so with any fuel from some amount on. -/
def PutAssigns (desc : CoarrayDesc) (src : ℤ) (dstContiguous srcContiguous : Bool)
    (dstInfo srcInfo : List ArraySection) : Prop :=
  ∃ enough, ∀ fuel ≥ enough, ∀ (m : Memories UInt8) (fresh : ℤ → UInt8), ∃ m',
    mpiPut fuel dstContiguous srcContiguous dstInfo srcInfo desc src (sectionElmts dstInfo)
      (sectionElmts srcInfo) m fresh = some m' ∧ m'.here = m.here ∧
    IsAssignment desc.elmtSize (assignedBlocks desc.realAddr src dstInfo srcInfo) m.here m.remote
      m'.remote

/-- A get assigns the section at home and changes nothing else. -/
def GetAssigns (desc : CoarrayDesc) (dst : ℤ) (dstContiguous srcContiguous : Bool)
    (dstInfo srcInfo : List ArraySection) : Prop :=
  ∀ m : Memories UInt8, ∃ m',
    mpiGet srcContiguous dstContiguous srcInfo dstInfo desc dst (sectionElmts srcInfo)
      (sectionElmts dstInfo) m = some m' ∧ m'.remote = m.remote ∧
    IsAssignment desc.elmtSize (assignedBlocks dst desc.realAddr dstInfo srcInfo) m.remote m.here
      m'.here

/-- The bytes that `MPI_BYTE` transfers are asked to move at once fit in an `int`. -/
def ContiguousFits (elmtSize : ℕ) (dstContiguous srcContiguous : Bool)
    (dstInfo : List ArraySection) :
    Prop :=
  dstContiguous = true → srcContiguous = true → elmtSize * sectionElmts dstInfo < 2 ^ 31

def BlockFits (elmtSize : ℕ) (dstInfo : List ArraySection) : Prop :=
  ∀ size, allelmtSize elmtSize dstInfo = some size → size < 2 ^ 31

section Move

variable {src mem : ℤ → UInt8} {dst s : ℤ} {d' s' : Section elmtSize}

theorem isAssignment_contiguous (he : 0 < elmtSize) (hd : OneRun d'.info) (hs : OneRun s'.info)
    (hN : sectionElmts d'.info = sectionElmts s'.info) {mem' : ℤ → UInt8} :
    IsAssignment elmtSize (blocksAt dst s (elementOffsets d'.info) (elementOffsets s'.info)) src mem
        mem' ↔
      IsAssignment (elmtSize * sectionElmts d'.info)
        (blocksAt (dst + getOffset d'.info) (s + getOffset s'.info) [0] [0]) src mem mem' := by
  rw [elementOffsets_eq, elementOffsets_eq, blocksAt_shift]
  have hblock : ∀ n, span n [0] = List.range' 0 n := fun n => List.append_nil _
  apply isAssignment_blocksAt_congr
  · rw [length_offsets, length_offsets, hN]
  · rfl
  · rw [hd.span_offsets he d'.wellFormed d'.ne_nil, hblock, mul_comm]
  · rw [hs.span_offsets he s'.wellFormed s'.ne_nil, hblock, ← hN, mul_comm]

theorem moveBytes_of_lt {n : ℕ} (h : n < 2 ^ 31) : moveBytes n src mem dst s =
    some (transfer n src mem dst s) := by
  rw [moveBytes, mpiCount_of_lt h]
  rfl

/-- One transfer of bytes is the assignment if their number fits in an `int`. -/
theorem moveBytes_assigns {n : ℕ} (h : n < 2 ^ 31) : ∃ mem', moveBytes n src mem dst s = some mem' ∧
    IsAssignment n (blocksAt dst s [0] [0]) src mem mem' := by
  refine ⟨_, moveBytes_of_lt h, ?_⟩
  have hone := isAssignment_transfers (disjointBlocks_blocksAt dst s [0]
    (List.pairwise_singleton (fun x y => x + n ≤ y) 0)) src mem
  rw [blocksAt] at hone ⊢
  simpa using hone

theorem contiguous_iff (he : 0 < elmtSize) (hd : OneRun d'.info) (hs : OneRun s'.info)
    (hN : sectionElmts d'.info = sectionElmts s'.info) (dst s : ℤ) :
    (∀ src mem : ℤ → UInt8, ∃ mem',
      moveBytes (elmtSize * sectionElmts d'.info) src mem (dst + getOffset d'.info)
        (s + getOffset s'.info) = some mem' ∧
      IsAssignment elmtSize (blocksAt dst s (elementOffsets d'.info) (elementOffsets s'.info)) src
        mem mem') ↔ elmtSize * sectionElmts d'.info < 2 ^ 31 := by
  simp only [isAssignment_contiguous he hd hs hN]
  constructor
  · intro h
    by_contra hlarge
    obtain ⟨mem', hmove, hassign⟩ := h (fun _ => 1) (fun _ => 0)
    rw [moveBytes, Option.map_eq_some_iff] at hmove
    obtain ⟨c, hc, rfl⟩ := hmove
    obtain ⟨a, ha, hout⟩ := exists_unmoved (List.cons_ne_nil 0 []) (lt_of_mpiCount hlarge hc)
    obtain ⟨o, ho, -, hlt⟩ := mem_span.mp ha
    obtain rfl := List.mem_singleton.mp ho
    have hmoved := hassign.moved _ List.mem_cons_self a (by omega)
    have hkept := hout 0 List.mem_cons_self
    rw [transfer_outside (by dsimp only; omega)] at hmoved
    cases hmoved
  · intro h src mem
    exact moveBytes_assigns h

end Move

section ScalarMput

variable {n : ℕ} {os : List ℕ} {dst l : ℤ} {buf mem : ℤ → UInt8}

theorem length_pos (hw : WellFormed elmtSize info) : ∀ d ∈ info, 0 < d.length := by
  induction info with
  | nil => nofun
  | cons e ds ih =>
    intro d hd
    obtain rfl | hd := List.mem_cons.mp hd
    · exact hw.1
    · exact ih hw.2.2.2.2 d hd

theorem putLoop_eq (hw : WellFormed elmtSize info) {fuel : ℕ} (hfuel : sectionElmts info ≤ fuel)
    (size : ℕ) (buf mem : ℤ → UInt8) (raddr laddr : ℤ) :
    odometerLoop (fun idxs r => moveBytes size buf r (raddr + putOffset info idxs) laddr)
        ((info.take (getDimOfAllelmts info)).map ArraySection.length) fuel
        (List.replicate (getDimOfAllelmts info) 0) mem =
      (offsets (info.take (getDimOfAllelmts info))).foldlM
        (fun r o => moveBytes size buf r (raddr + (o : ℕ)) laddr) mem := by
  have hlen : ((info.take (getDimOfAllelmts info)).map ArraySection.length).length =
      getDimOfAllelmts info := by
    rw [List.length_map, List.length_take, min_eq_left (getDimOfAllelmts_le info)]
  have hpos : 0 < ((info.take (getDimOfAllelmts info)).map ArraySection.length).prod := by
    apply Nat.pos_of_ne_zero
    rw [Ne, List.prod_eq_zero_iff]
    intro hzero
    obtain ⟨d, hd, hd0⟩ := List.mem_map.mp hzero
    exact (length_pos hw d (List.mem_of_mem_take hd)).ne' hd0
  have hprod : ((info.take (getDimOfAllelmts info)).map ArraySection.length).prod ≤ fuel := by
    apply le_trans _ hfuel
    rw [List.map_take]
    exact Nat.le_of_dvd (sectionElmts_pos hw) ((List.take_sublist _ _).prod_dvd_prod)
  have hloop := odometerLoop_eq
    (fun idxs r => moveBytes size buf r (raddr + putOffset info idxs) laddr) hpos hprod mem
  rw [hlen] at hloop
  have hplaces := map_putOffset (info.take (getDimOfAllelmts info))
    (info.drop (getDimOfAllelmts info))
  rw [List.take_append_drop] at hplaces
  rw [hloop, ← hplaces, List.foldlM_map, List.foldlM_map, List.foldlM_map]

theorem foldlM_moveBytes_none (hc : mpiCount n = none) (hne : os ≠ []) :
    os.foldlM (fun r o => moveBytes n buf r (dst + (o : ℕ)) l) mem = none := by
  cases os with
  | nil => exact absurd rfl hne
  | cons o os =>
    rw [List.foldlM_cons, moveBytes, hc]
    rfl

theorem elementOffsets_single (s : Section elmtSize) (h : sectionElmts s.info = 1) :
    elementOffsets s.info = [getOffset s.info] := by
  have hone : (offsets s.info).length = 1 := by rw [length_offsets, h]
  obtain ⟨o, ho⟩ := List.length_eq_one_iff.mp hone
  have hhead := head_offsets s.wellFormed
  rw [ho] at hhead
  rw [elementOffsets_eq, ho, Option.some.inj hhead]
  rfl

theorem assignedBlocks_single {d s : Section elmtSize} (h : sectionElmts s.info = 1)
    (hne : sectionElmts d.info ≠ sectionElmts s.info) (dst src : ℤ) :
    assignedBlocks dst src d.info s.info =
      (offsets d.info).map fun o : ℕ => (dst + getOffset d.info + o, src + getOffset s.info) := by
  rw [assignedBlocks, if_neg hne, elementOffsets_single s h, List.flatMap_singleton,
    elementOffsets_eq, List.map_map]
  apply List.map_congr_left
  intro o _
  rw [Function.comp_apply, Nat.cast_add, add_assoc]

/-- A put of one element sends a block that repeats it to each place of the outer dimensions. -/
theorem mpiScalarMput_eq (d : Section elmtSize) {size : ℕ}
    (hsize : allelmtSize elmtSize d.info = some size) {fuel : ℕ}
    (hfuel : sectionElmts d.info ≤ fuel) (m : Memories UInt8) (fresh : ℤ → UInt8) (base src : ℤ)
    (srcOffset : ℕ) :
    ∃ buf laddr, (∀ r : ℕ, r < size →
        buf (laddr + r) = m.here (src + srcOffset + (r % elmtSize : ℕ))) ∧
      mpiScalarMput fuel m ⟨base, elmtSize⟩ src (getOffset d.info) srcOffset d.info fresh =
        ((offsets (d.info.take (getDimOfAllelmts d.info))).foldlM
          (fun r o => moveBytes size buf r (base + getOffset d.info + (o : ℕ)) laddr)
          m.remote).map fun r => { m with remote := r } := by
  have hextent := (allelmtSize_spec d.wellFormed d.ne_nil).1
  rw [hsize, Option.some.injEq] at hextent
  have hdvd : elmtSize ∣ size := by
    rw [hextent]
    exact elmtSize_dvd_extent
  have hcomplete : decide (getDimOfAllelmts d.info = d.info.length) = true → size = elmtSize := by
    intro hk
    rw [hextent, of_decide_eq_true hk, List.drop_length]
    exact one_mul elmtSize
  refine ⟨_, _, putBlock_spec (decide (getDimOfAllelmts d.info = d.info.length)) hdvd hcomplete
    m.here fresh (src + srcOffset), ?_⟩
  rw [mpiScalarMput]
  dsimp only
  rw [hsize, Option.bind_eq_bind, Option.bind_some, putLoop_eq d.wellFormed hfuel,
    Option.map_eq_bind]
  rfl

/-- Spreading an element in blocks is the assignment if and only if a block fits in an `int`. -/
theorem mpiScalarMput_iff (he : 0 < elmtSize) (d s : Section elmtSize)
    (h : sectionElmts s.info = 1) (hne : sectionElmts d.info ≠ sectionElmts s.info)
    (base src : ℤ) :
    (∃ enough, ∀ fuel ≥ enough, ∀ (m : Memories UInt8) (fresh : ℤ → UInt8), ∃ m',
      mpiScalarMput fuel m ⟨base, elmtSize⟩ src (getOffset d.info) (getOffset s.info) d.info fresh =
        some m' ∧ m'.here = m.here ∧
      IsAssignment elmtSize (assignedBlocks base src d.info s.info) m.here m.remote m'.remote) ↔
      BlockFits elmtSize d.info := by
  obtain ⟨hsize, hspan⟩ := allelmtSize_spec d.wellFormed d.ne_nil
  have hrun := fun fuel (hfuel : sectionElmts d.info ≤ fuel) m fresh =>
    mpiScalarMput_eq d hsize hfuel m fresh base src (getOffset s.info)
  rw [BlockFits, hsize, assignedBlocks_single h hne]
  simp only [Option.some.injEq, forall_eq']
  have hdvd := distance_dvd d.wellFormed
  have hdvdOuter := offsets_dvd fun x hx =>
    hdvd x (List.mem_of_mem_take (i := getDimOfAllelmts d.info) hx)
  generalize extent elmtSize (d.info.drop (getDimOfAllelmts d.info)) = size at *
  generalize offsets (d.info.take (getDimOfAllelmts d.info)) = os at *
  have hbytes : os.length * size = sectionElmts d.info * elmtSize := by
    rw [← length_span, ← hspan, length_span, length_offsets]
  have hpos := Nat.mul_pos (sectionElmts_pos d.wellFormed) he
  have hos : os ≠ [] := by
    rintro rfl
    rw [List.length_nil, zero_mul] at hbytes
    omega
  constructor
  · intro ⟨enough, hput⟩
    by_contra hlarge
    obtain ⟨m', hm', -, hassign⟩ := hput (enough + sectionElmts d.info) (Nat.le_add_right _ _)
      ⟨fun _ => 1, fun _ => 0⟩ fun _ => 0
    obtain ⟨buf, laddr, -, heq⟩ := hrun (enough + sectionElmts d.info) (Nat.le_add_left _ _)
      ⟨fun _ => 1, fun _ => 0⟩ fun _ => 0
    rw [heq] at hm'
    cases hc : mpiCount size with
    | none =>
      rw [foldlM_moveBytes_none hc hos] at hm'
      cases hm'
    | some c =>
      rw [foldlM_moveBytes hc] at hm'
      obtain rfl := Option.some.inj hm'
      obtain ⟨a, ha, hout⟩ := exists_unmoved hos (lt_of_mpiCount hlarge hc)
      rw [← hspan] at ha
      obtain ⟨o, ho, hle, hlt⟩ := mem_span.mp ha
      have hmoved := hassign.moved _ (List.mem_map_of_mem ho) (a - o) (by omega)
      dsimp only at hmoved
      rw [transfers_outside] at hmoved
      · cases hmoved
      · intro p hp hin
        obtain ⟨o', ho', rfl⟩ := List.mem_map.mp hp
        have hkept := hout o' ho'
        dsimp only at hin
        omega
  · intro hsmall
    refine ⟨sectionElmts d.info, ?_⟩
    intro fuel hfuel m fresh
    obtain ⟨buf, laddr, hbuf, heq⟩ := hrun fuel hfuel m fresh
    rw [heq, foldlM_moveBytes (mpiCount_of_lt hsmall)]
    refine ⟨_, rfl, rfl, ?_⟩
    have hsorted : os.Pairwise fun x y => x + size ≤ y := by
      apply pairwise_of_span
      · apply Nat.pos_of_ne_zero
        rintro rfl
        rw [mul_zero] at hbytes
        omega
      · rw [← hspan]
        exact pairwise_span_offsets d.wellFormed
    exact isAssignment_spread hspan.symm hdvdOuter (offsets_dvd hdvd) hbuf
      (isAssignment_repeat hsorted _ _ _ _)

end ScalarMput

section ScalarMget

theorem scalarCopy_cons (dst src : ℤ) (mem : ℤ → β) (o : ℕ) (os : List ℕ) :
    scalarCopy dst src elmtSize mem (o :: os) =
      (if dst + o ≠ src then memcpy elmtSize mem (dst + o) src else some mem).bind fun mem =>
        scalarCopy dst src elmtSize mem os :=
  rfl

theorem scalarCopy_moves {os : List ℕ} (he : 0 < elmtSize) (h : ∀ o ∈ os, elmtSize ≤ o) (a : ℤ)
    (mem : ℤ → β) : scalarCopy a a elmtSize mem os =
      some (moves elmtSize mem (os.map fun o : ℕ => (a + o, a))) := by
  induction os generalizing mem with
  | nil => rfl
  | cons o os ih =>
    have ho := h o List.mem_cons_self
    rw [scalarCopy_cons, if_pos (by omega), memcpy_of_sep mem (by omega), Option.bind_some,
      ih fun x hx => h x (List.mem_cons_of_mem o hx)]
    rfl

/-- The fetched element is copied to the other elements of the section. -/
theorem scalarCopy_spec {os : List ℕ} (he : 0 < elmtSize)
    (hsorted : (0 :: os).Pairwise fun x y => x + elmtSize ≤ y) (a s : ℤ) (src mem : ℤ → β) :
    ∃ mem', scalarCopy a a elmtSize (transfer elmtSize src mem a s) (0 :: os) = some mem' ∧
      IsAssignment elmtSize ((0 :: os).map fun o : ℕ => (a + o, s)) src mem mem' := by
  have hrest : ∀ o ∈ os, elmtSize ≤ o := by
    intro o ho
    have := (List.pairwise_cons.mp hsorted).1 o ho
    omega
  have hsep : ∀ p ∈ os.map fun o : ℕ => (a + (o : ℤ), a),
    ∀ q ∈ os.map fun o : ℕ => (a + (o : ℤ), a),
      p.1 + elmtSize ≤ q.2 ∨ q.2 + elmtSize ≤ p.1 := by
    intro p hp q hq
    obtain ⟨o, ho, rfl⟩ := List.mem_map.mp hp
    obtain ⟨o', -, rfl⟩ := List.mem_map.mp hq
    have := hrest o ho
    dsimp only
    omega
  have hcopied := isAssignment_repeat (List.pairwise_cons.mp hsorted).2 a a
    (transfer elmtSize src mem a s) (transfer elmtSize src mem a s)
  refine ⟨transfers elmtSize (transfer elmtSize src mem a s) (transfer elmtSize src mem a s)
    (os.map fun o : ℕ => (a + (o : ℤ), a)), ?_, ?_⟩
  · rw [scalarCopy_cons, Nat.cast_zero, add_zero, if_neg (not_not.mpr rfl), Option.bind_some,
      scalarCopy_moves he hrest, moves_eq_transfers hsep _ fun _ _ _ _ => rfl]
  · constructor
    · intro p hp r hr
      obtain ⟨o, ho, rfl⟩ := List.mem_map.mp hp
      obtain rfl | ho := List.mem_cons.mp ho
      · dsimp only
        rw [Nat.cast_zero, add_zero, hcopied.kept, transfer_inside hr]
        intro q hq k hk heq
        obtain ⟨o, ho, rfl⟩ := List.mem_map.mp hq
        have := hrest o ho
        dsimp only at heq
        omega
      · have hmoved := hcopied.moved _ (List.mem_map_of_mem ho) r hr
        dsimp only at hmoved ⊢
        rw [hmoved, transfer_inside hr]
    · intro b hb
      have hfirst := hb (a + (0 : ℕ), s) List.mem_cons_self
      rw [hcopied.kept, transfer_outside]
      · intro hin
        apply hfirst (b - a).toNat (by omega)
        dsimp only
        omega
      · intro q hq k hk
        obtain ⟨o, ho, rfl⟩ := List.mem_map.mp hq
        exact hb (a + o, s) (List.mem_cons_of_mem _ (List.mem_map_of_mem ho)) k hk

theorem mpiScalarMget_assigns (he : 0 < elmtSize) (he' : elmtSize < 2 ^ 31) (d s : Section elmtSize)
    (h : sectionElmts s.info = 1) (hne : sectionElmts d.info ≠ sectionElmts s.info)
    (dst base : ℤ) (m : Memories UInt8) :
    ∃ m', mpiScalarMget m dst ⟨base, elmtSize⟩ (getOffset d.info) (getOffset s.info) d.info =
        some m' ∧ m'.remote = m.remote ∧
      IsAssignment elmtSize (assignedBlocks dst base d.info s.info) m.remote m.here m'.here := by
  obtain ⟨os, hos⟩ := List.head?_eq_some_iff.mp (head_offsets d.wellFormed)
  have hsorted : (0 :: os).Pairwise fun x y => x + elmtSize ≤ y := by
    rw [← hos]
    exact pairwise_of_span he (pairwise_span_offsets d.wellFormed)
  obtain ⟨here, hcopy, hassign⟩ := scalarCopy_spec he hsorted (dst + getOffset d.info)
    (base + getOffset s.info) m.remote m.here
  have hlast := List.getLast?_eq_some_getLast d.ne_nil
  refine ⟨{ m with here := here }, ?_, rfl, ?_⟩
  · rw [mpiScalarMget]
    dsimp only
    rw [moveBytes_of_lt he', Option.bind_eq_bind, Option.bind_some, unpackScalar,
      if_pos d.dims_le, hlast, Option.bind_some,
      (distance_getLast d.wellFormed hlast).1, hos, hcopy]
    rfl
  · rw [assignedBlocks_single h hne, hos]
    exact hassign

end ScalarMget

section Main

theorem moveTyped_assigns {d s : Section elmtSize}
    (hN : sectionElmts d.info = sectionElmts s.info) (hcount : sectionElmts d.info < 2 ^ 31)
    (hd : StridesFit d.info) (hs : StridesFit s.info) :
    ∃ dstType srcType, mpiMakeTypes elmtSize d.info = some dstType ∧
      mpiMakeTypes elmtSize s.info = some srcType ∧
      ∀ (dst base : ℤ) (src mem : ℤ → UInt8), ∃ mem',
        moveTyped dstType srcType src mem (dst + getOffset d.info) (base + getOffset s.info) =
          some mem' ∧
        IsAssignment elmtSize (blocksAt dst base (elementOffsets d.info) (elementOffsets s.info))
          src mem mem' := by
  have he' := elmtSize_lt d.wellFormed d.ne_nil hd
  obtain ⟨dstType, hdt, hdm⟩ := mpiMakeTypes_spec d.ne_nil he' (length_lt d.wellFormed hcount) hd
  obtain ⟨srcType, hst, hsm⟩ := mpiMakeTypes_spec s.ne_nil he'
    (length_lt s.wellFormed (hN ▸ hcount)) hs
  refine ⟨dstType, srcType, hdt, hst, ?_⟩
  intro dst base src mem
  rw [elementOffsets_eq, elementOffsets_eq, blocksAt_shift]
  apply moveTyped_blocks hdm hsm _ (pairwise_span_offsets d.wellFormed)
  rw [length_offsets, length_offsets, hN]

variable {dstContiguous srcContiguous : Bool}

theorem mpiPut_of_eq (he : 0 < elmtSize) {d s : Section elmtSize}
    (hN : sectionElmts d.info = sectionElmts s.info) (hcount : sectionElmts d.info < 2 ^ 31)
    (hfitd : StridesFit d.info) (hfits : StridesFit s.info)
    (hd : checkContiguous d.info (sectionElmts d.info) = some dstContiguous)
    (hs : checkContiguous s.info (sectionElmts s.info) = some srcContiguous) (base src : ℤ) :
    PutAssigns ⟨base, elmtSize⟩ src dstContiguous srcContiguous d.info s.info ↔
      ContiguousFits elmtSize dstContiguous srcContiguous d.info := by
  have hpos : elmtSize * sectionElmts d.info ≠ 0 :=
    (Nat.mul_pos he (sectionElmts_pos d.wellFormed)).ne'
  rw [PutAssigns, assignedBlocks, if_pos hN]
  by_cases hboth : (dstContiguous && srcContiguous) = true
  · obtain ⟨rfl, rfl⟩ := Bool.and_eq_true_iff.mp hboth
    have hiff := contiguous_iff he (oneRun_of_checkContiguous d.wellFormed d.ne_nil hd)
      (oneRun_of_checkContiguous s.wellFormed s.ne_nil hs) hN base src
    have hput : ∀ fuel (m : Memories UInt8) fresh,
        mpiPut fuel true true d.info s.info ⟨base, elmtSize⟩ src (sectionElmts d.info)
          (sectionElmts s.info) m fresh =
        (moveBytes (elmtSize * sectionElmts d.info) m.here m.remote (base + getOffset d.info)
          (src + getOffset s.info)).map fun r => { m with remote := r } := by
      intro fuel m fresh
      rw [mpiPut]
      dsimp only
      rw [if_pos hN, if_pos hboth, mpiContiguous, if_neg hpos]
    simp only [hput, ContiguousFits, forall_const, ← hiff]
    constructor
    · intro ⟨enough, h⟩ here mem
      obtain ⟨m', hm', -, hassign⟩ := h enough le_rfl ⟨here, mem⟩
      obtain ⟨mem', hmove, rfl⟩ := Option.map_eq_some_iff.mp hm'
      exact ⟨mem', hmove, hassign⟩
    · intro h
      refine ⟨0, ?_⟩
      intro _ _ m
      obtain ⟨mem', hmove, hassign⟩ := h m.here m.remote
      exact ⟨{ m with remote := mem' }, by rw [hmove]; rfl, rfl, hassign⟩
  · have hvacuous : ContiguousFits elmtSize dstContiguous srcContiguous d.info := by
      intro h1 h2
      exact absurd (Bool.and_eq_true_iff.mpr ⟨h1, h2⟩) hboth
    refine iff_of_true ⟨0, ?_⟩ hvacuous
    intro fuel _ m fresh
    obtain ⟨dstType, srcType, hdt, hst, hmove⟩ := moveTyped_assigns hN hcount hfitd hfits
    obtain ⟨mem', hmem', hassign⟩ := hmove base src m.here m.remote
    refine ⟨{ m with remote := mem' }, ?_, rfl, hassign⟩
    rw [mpiPut]
    dsimp only
    rw [if_pos hN, if_neg hboth, mpiNonContiguous]
    dsimp only
    rw [hst, Option.bind_eq_bind, Option.bind_some, hdt, Option.bind_some, hmem']
    rfl

theorem mpiGet_of_eq (he : 0 < elmtSize) {d s : Section elmtSize}
    (hN : sectionElmts d.info = sectionElmts s.info) (hcount : sectionElmts d.info < 2 ^ 31)
    (hfitd : StridesFit d.info) (hfits : StridesFit s.info)
    (hd : checkContiguous d.info (sectionElmts d.info) = some dstContiguous)
    (hs : checkContiguous s.info (sectionElmts s.info) = some srcContiguous) (base dst : ℤ) :
    GetAssigns ⟨base, elmtSize⟩ dst dstContiguous srcContiguous d.info s.info ↔
      ContiguousFits elmtSize dstContiguous srcContiguous d.info := by
  have hpos : elmtSize * sectionElmts s.info ≠ 0 :=
    (Nat.mul_pos he (sectionElmts_pos s.wellFormed)).ne'
  rw [GetAssigns, assignedBlocks, if_pos hN]
  by_cases hboth : (srcContiguous && dstContiguous) = true
  · obtain ⟨rfl, rfl⟩ := Bool.and_eq_true_iff.mp hboth
    have hiff := contiguous_iff he (oneRun_of_checkContiguous d.wellFormed d.ne_nil hd)
      (oneRun_of_checkContiguous s.wellFormed s.ne_nil hs) hN dst base
    have hget : ∀ m : Memories UInt8,
        mpiGet true true s.info d.info ⟨base, elmtSize⟩ dst (sectionElmts s.info)
          (sectionElmts d.info) m =
        (moveBytes (elmtSize * sectionElmts d.info) m.remote m.here (dst + getOffset d.info)
          (base + getOffset s.info)).map fun h => { m with here := h } := by
      intro m
      rw [mpiGet]
      dsimp only
      rw [if_pos hN.symm, if_pos hboth, mpiContiguous, if_neg hpos, hN]
    simp only [hget, ContiguousFits, forall_const, ← hiff]
    constructor
    · intro h remote mem
      obtain ⟨m', hm', -, hassign⟩ := h ⟨mem, remote⟩
      obtain ⟨mem', hmove, rfl⟩ := Option.map_eq_some_iff.mp hm'
      exact ⟨mem', hmove, hassign⟩
    · intro h m
      obtain ⟨mem', hmove, hassign⟩ := h m.remote m.here
      exact ⟨{ m with here := mem' }, by rw [hmove]; rfl, rfl, hassign⟩
  · have hvacuous : ContiguousFits elmtSize dstContiguous srcContiguous d.info := by
      intro h1 h2
      exact absurd (Bool.and_eq_true_iff.mpr ⟨h2, h1⟩) hboth
    refine iff_of_true ?_ hvacuous
    intro m
    obtain ⟨dstType, srcType, hdt, hst, hmove⟩ := moveTyped_assigns hN hcount hfitd hfits
    obtain ⟨mem', hmem', hassign⟩ := hmove dst base m.remote m.here
    refine ⟨{ m with here := mem' }, ?_, rfl, hassign⟩
    rw [mpiGet]
    dsimp only
    rw [if_pos hN.symm, if_neg hboth, mpiNonContiguous]
    dsimp only
    rw [hdt, Option.bind_eq_bind, Option.bind_some, hst, Option.bind_some, hmem']
    rfl

/-- Remote puts and gets assign the sections, for any two sections of equally many elements and for
a single source element, except where a transfer of bytes is larger than an `int` counts: such are
the single block of two contiguous sections and the blocks that spread an element by a put. -/
theorem remote_copy_assigns_iff (desc : CoarrayDesc) (he : 0 < desc.elmtSize) (other : ℤ)
    (d s : Section desc.elmtSize)
    (hN : sectionElmts d.info = sectionElmts s.info ∨ sectionElmts s.info = 1)
    (hcount : sectionElmts d.info < 2 ^ 31) (hfitd : StridesFit d.info) (hfits : StridesFit s.info)
    (hd : checkContiguous d.info (sectionElmts d.info) = some dstContiguous)
    (hs : checkContiguous s.info (sectionElmts s.info) = some srcContiguous) :
    (PutAssigns desc other dstContiguous srcContiguous d.info s.info ↔
      if sectionElmts d.info = sectionElmts s.info then
        ContiguousFits desc.elmtSize dstContiguous srcContiguous d.info
      else BlockFits desc.elmtSize d.info) ∧
    (GetAssigns desc other dstContiguous srcContiguous d.info s.info ↔
      (sectionElmts d.info = sectionElmts s.info →
        ContiguousFits desc.elmtSize dstContiguous srcContiguous d.info)) := by
  obtain ⟨base, elmtSize⟩ := desc
  by_cases heq : sectionElmts d.info = sectionElmts s.info
  · rw [if_pos heq]
    simp only [heq, true_implies]
    exact ⟨mpiPut_of_eq he heq hcount hfitd hfits hd hs base other,
      mpiGet_of_eq he heq hcount hfitd hfits hd hs base other⟩
  · have hone := hN.resolve_left heq
    rw [if_neg heq]
    constructor
    · rw [← mpiScalarMput_iff he d s hone heq base other, PutAssigns]
      have hput : ∀ fuel (m : Memories UInt8) fresh,
          mpiPut fuel dstContiguous srcContiguous d.info s.info ⟨base, elmtSize⟩ other
            (sectionElmts d.info) (sectionElmts s.info) m fresh =
          mpiScalarMput fuel m ⟨base, elmtSize⟩ other (getOffset d.info) (getOffset s.info) d.info
            fresh := by
        intro fuel m fresh
        rw [mpiPut]
        dsimp only
        rw [if_neg heq, if_pos hone]
      simp only [hput]
    · refine iff_of_true ?_ fun h => absurd h heq
      intro m
      obtain ⟨m', hm', hassign⟩ :=
        mpiScalarMget_assigns he (elmtSize_lt d.wellFormed d.ne_nil hfitd)
        d s hone heq other base m
      refine ⟨m', ?_, hassign⟩
      rw [mpiGet]
      dsimp only
      rw [if_neg (Ne.symm heq), if_pos hone, hm']

/-- `char b[8]`, element `b[3]`. -/
def fourth : Section 1 where
  info := [⟨3, 1, 1, 8, 1⟩]
  ne_nil := by decide
  dims_le := by decide
  wellFormed := by decide

theorem remote_copy_assigns_fourth :
    BlockFits 1 pairOfSixes.info ∧
      PutAssigns ⟨1000, 1⟩ 0 false true pairOfSixes.info fourth.info ∧
      GetAssigns ⟨1000, 1⟩ 0 false true pairOfSixes.info fourth.info := by
  have hfits : BlockFits 1 pairOfSixes.info := by
    intro size hsize
    have hone : allelmtSize 1 pairOfSixes.info = some 1 := by decide
    rw [hone] at hsize
    rw [← Option.some.inj hsize]
    decide
  have hcopy := remote_copy_assigns_iff ⟨1000, 1⟩ (by decide) 0 pairOfSixes fourth (by decide)
    (by decide) (by unfold StridesFit; decide) (by unfold StridesFit; decide)
    (show _ = some false by decide) (show _ = some true by decide)
  exact ⟨hfits, hcopy.1.mpr hfits, hcopy.2.mpr fun h => absurd h (by decide)⟩

/-- `double a[536870912]`, all elements: `2 ^ 32` bytes. -/
def fourGigabytes : Section 8 where
  info := [⟨0, 2 ^ 29, 1, 2 ^ 29, 8⟩]
  ne_nil := by decide
  dims_le := by decide
  wellFormed := by decide

/-- The byte count is zero when it is passed as an `int`, and nothing is moved. -/
theorem remote_copy_truncated :
    sectionElmts fourGigabytes.info < 2 ^ 31 ∧ StridesFit fourGigabytes.info ∧
      checkContiguous fourGigabytes.info (sectionElmts fourGigabytes.info) = some true ∧
      ¬PutAssigns ⟨0, 8⟩ 0 true true fourGigabytes.info fourGigabytes.info ∧
      ¬GetAssigns ⟨0, 8⟩ 0 true true fourGigabytes.info fourGigabytes.info := by
  have hcount : sectionElmts fourGigabytes.info < 2 ^ 31 := by decide
  have hstrides : StridesFit fourGigabytes.info := by
    unfold StridesFit
    decide
  have hcontiguous : checkContiguous fourGigabytes.info (sectionElmts fourGigabytes.info) =
      some true := by decide
  have hlarge : ¬ContiguousFits 8 true true fourGigabytes.info := by
    unfold ContiguousFits
    decide
  exact ⟨hcount, hstrides, hcontiguous,
    (mpiPut_of_eq (by decide) rfl hcount hstrides hstrides hcontiguous hcontiguous 0
      0).not.mpr hlarge,
    (mpiGet_of_eq (by decide) rfl hcount hstrides hstrides hcontiguous hcontiguous 0 0).not.mpr
      hlarge⟩

end Main

end OmniCompiler.Xmp.Coarray
