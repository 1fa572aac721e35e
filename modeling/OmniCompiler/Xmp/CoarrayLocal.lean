import OmniCompiler.Xmp.CoarraySection

/-!
# Local coarray put and get (`xmp_coarray_local.c`, `xmp_coarray.c`)

A put or get whose target is the calling node is a copy inside its memory. Two
contiguous sections are moved by one `memmove`; otherwise the chunks of both
stride tables are copied pairwise, through a buffer when the regions overlap.
The tables have room for `dst_elmts / (copy_chunk / elmt_size)` entries and are
filled without a bound check, so a chunk that does not tile a section stores
past their end and pairs the wrong chunks. With six or seven dimensions a chunk
shorter than a row of the fourth one is stepped through in steps of zero.
-/
namespace OmniCompiler.Xmp.Coarray

open Memory

variable {β : Type}

/-- `_XMP_coarray_t`, as far as the local copies read it. -/
structure CoarrayDesc where
  realAddr : ℤ
  elmtSize : ℕ

/-- The memory a copy leaves behind, and whether it stored past the end of a stride table. -/
structure Copied (β : Type) where
  mem : ℤ → β
  overrun : Bool

def checkOverlapping (dstStart dstEnd srcStart srcEnd : ℤ) : Bool :=
  (dstStart ≤ srcStart ∧ srcStart < dstEnd) ∨ (srcStart ≤ dstStart ∧ dstStart < srcEnd)

/-- `none` is `_XMP_fatal`. -/
def checkContiguous (info : List ArraySection) (elmts : ℕ) : Option Bool :=
  if elmts = 1 then some true
  else if info.getLast?.any fun d => d.length = elmts ∧ d.stride = 1 then some true
  else if info.any fun d => d.stride ≠ 1 ∧ d.length ≠ 1 then some false
  else
    let d := getDimOfAllelmts info
    if d = 0 then some true
    else if d ≤ 7 then
      some ((info.take (d - 1)).all (·.length = 1) && info[d - 1]?.any (·.stride = 1))
    else none

def isTheSameShape (array1 array2 : List ArraySection) : Bool :=
  array1.length = array2.length ∧ ∀ p ∈ array1.zip array2, p.1.start = p.2.start ∧
    p.1.length = p.2.length ∧ p.1.elmts = p.2.elmts ∧ p.1.stride = p.2.stride

def scalarCopy (dst src : ℤ) (elmtSize : ℕ) (mem : ℤ → β) (dstOffsets : List ℕ) :
    Option (ℤ → β) :=
  dstOffsets.foldlM (fun m o => if dst + o ≠ src then memcpy elmtSize m (dst + o) src else some m)
    mem

def localContiguousCopy (dst src : ℤ) (dstElmts srcElmts elmtSize : ℕ) (mem : ℤ → β) :
    Option (Copied β) :=
  if dstElmts = srcElmts then
    let offset := dstElmts * elmtSize
    if checkOverlapping dst (dst + offset) src (src + offset) then
      some ⟨memmove offset mem dst src, false⟩
    else (memcpy offset mem dst src).map (⟨·, false⟩)
  else if srcElmts = 1 then
    (scalarCopy dst src elmtSize mem ((List.range dstElmts).map (· * elmtSize))).map (⟨·, false⟩)
  else none

/-- The chunk copies once the tables are filled; `fresh` is the contents of the block that
`malloc` returns. -/
def copyChunks (dst src : ℤ) (copyChunk copyElmts : ℕ) (dstStride srcStride : List ℕ)
    (mem fresh : ℤ → β) : Option (ℤ → β) := do
  let dstFirst : ℕ ← dstStride[0]?
  let dstLast : ℕ ← dstStride[copyElmts - 1]?
  let srcFirst : ℕ ← srcStride[0]?
  let srcLast : ℕ ← srcStride[copyElmts - 1]?
  if checkOverlapping (dst + dstFirst) (dst + dstLast + copyChunk) (src + srcFirst)
      (src + srcLast + copyChunk) then
    let offset := (List.range copyElmts).map (· * copyChunk)
    let tmp := transfers copyChunk mem fresh (blocksAt 0 src offset srcStride)
    some (transfers copyChunk tmp mem (blocksAt dst 0 dstStride offset))
  else
    (blocksAt dst src dstStride srcStride).foldlM (fun m p => memcpy copyChunk m p.1 p.2) mem

/-- `src_stride`: the entries of `dst_stride` when the two sections have the same shape. -/
def srcTable (dstInfo srcInfo : List ArraySection) (copyChunk : ℕ) (dstStride : List ℕ) :
    Option (List ℕ) :=
  if isTheSameShape dstInfo srcInfo then some dstStride else setStride srcInfo copyChunk

def localNonContiguousCopy (dst src : ℤ) (dstInfo srcInfo : List ArraySection)
    (dstElmts srcElmts elmtSize : ℕ) (mem fresh : ℤ → β) : Option (Copied β) :=
  if dstElmts = srcElmts then do
    let copyChunk ← calcMaxCopyChunk dstInfo srcInfo
    let copyElmts := dstElmts / (copyChunk / elmtSize)
    let dstEntries ← setStride dstInfo copyChunk
    let dstStride := dstEntries.take copyElmts
    let srcEntries ← srcTable dstInfo srcInfo copyChunk dstStride
    let srcStride := srcEntries.take copyElmts
    let mem' ← copyChunks dst src copyChunk copyElmts dstStride srcStride mem fresh
    some ⟨mem', copyElmts < dstEntries.length ∨ copyElmts < srcEntries.length⟩
  else if srcElmts = 1 then
    if dstInfo.length ≤ 7 then
      (scalarCopy dst src elmtSize mem (offsets dstInfo)).map (⟨·, false⟩)
    else none
  else none

def localCopy (dst src : ℤ) (elmtSize : ℕ) (dstContiguous srcContiguous : Bool)
    (dstInfo srcInfo : List ArraySection) (dstElmts srcElmts : ℕ) (mem fresh : ℤ → β) :
    Option (Copied β) :=
  let dstOffset := getOffset dstInfo
  let srcOffset := getOffset srcInfo
  if dstContiguous && srcContiguous then
    localContiguousCopy (dst + dstOffset) (src + srcOffset) dstElmts srcElmts elmtSize mem
  else
    localNonContiguousCopy (dst + dstOffset) (src + srcOffset) dstInfo srcInfo dstElmts srcElmts
      elmtSize mem fresh

def localPut (dstDesc : CoarrayDesc) (src : ℤ) (dstContiguous srcContiguous : Bool)
    (dstInfo srcInfo : List ArraySection) (dstElmts srcElmts : ℕ) (mem fresh : ℤ → β) :
    Option (Copied β) :=
  localCopy dstDesc.realAddr src dstDesc.elmtSize dstContiguous srcContiguous dstInfo srcInfo
    dstElmts srcElmts mem fresh

def localGet (dst : ℤ) (srcDesc : CoarrayDesc) (dstContiguous srcContiguous : Bool)
    (dstInfo srcInfo : List ArraySection) (dstElmts srcElmts : ℕ) (mem fresh : ℤ → β) :
    Option (Copied β) :=
  localCopy dst srcDesc.realAddr srcDesc.elmtSize dstContiguous srcContiguous dstInfo srcInfo
    dstElmts srcElmts mem fresh

/-- A section of one to seven dimensions, in bounds, with positive strides and row-major
distances. -/
structure Section (elmtSize : ℕ) where
  info : List ArraySection
  ne_nil : info ≠ []
  dims_le : info.length ≤ 7
  wellFormed : WellFormed elmtSize info

variable {elmtSize chunk : ℕ} {d : ArraySection} {ds info : List ArraySection}

/-! ## Contiguous sections -/

/-- Length-one dimensions around a dimension of unit stride with complete rows. -/
inductive OneRun : List ArraySection → Prop
  | rows {d : ArraySection} {ds : List ArraySection} : ds.all ArraySection.isAll = true →
      d.stride = 1 ∨ d.length = 1 → OneRun (d :: ds)
  | single {d : ArraySection} {ds : List ArraySection} : d.length = 1 → OneRun ds →
      OneRun (d :: ds)

theorem sectionElmts_pos (hw : WellFormed elmtSize info) : 0 < sectionElmts info := by
  induction info with
  | nil => exact Nat.one_pos
  | cons d ds ih =>
    rw [sectionElmts_cons]
    exact Nat.mul_pos hw.1 (ih hw.2.2.2.2)

theorem OneRun.run_eq (hw : WellFormed elmtSize info) (h : OneRun info) :
    run info = sectionElmts info * elmtSize := by
  induction h with
  | @rows d ds hds hd =>
    rw [run_cons, if_pos hds, sectionElmts_cons, mul_assoc, sectionElmts_of_all hds,
      ← hw.2.2.2.1, ArraySection.rowRun]
    split_ifs with hs
    · rfl
    · rw [hd.resolve_left hs, one_mul]
  | @single d ds hd _ ih =>
    have hrest := ih hw.2.2.2.2
    rw [run_cons, sectionElmts_cons, hd, one_mul]
    split_ifs with hds
    · rw [sectionElmts_of_all hds, ← hw.2.2.2.1, ArraySection.rowRun, hd, one_mul, ite_self]
    · exact hrest

theorem oneRun_of_single (hne : info ≠ []) (h : sectionElmts info = 1) : OneRun info := by
  induction info with
  | nil => exact absurd rfl hne
  | cons d ds ih =>
    rw [sectionElmts_cons] at h
    have hd := Nat.eq_one_of_mul_eq_one_right h
    cases ds with
    | nil => exact OneRun.rows rfl (Or.inr hd)
    | cons e ds => exact OneRun.single hd (ih (by simp) (Nat.eq_one_of_mul_eq_one_left h))

theorem oneRun_of_last (hw : WellFormed elmtSize info)
    (h : info.getLast?.any fun d => d.length = sectionElmts info ∧ d.stride = 1) : OneRun info := by
  induction info with
  | nil => simp at h
  | cons d ds ih =>
    cases ds with
    | nil =>
      simp only [List.getLast?_singleton, Option.any_some, decide_eq_true_eq] at h
      exact OneRun.rows rfl (Or.inl h.2)
    | cons e ds =>
      rw [List.getLast?_cons_cons, Option.any_eq_true] at h
      obtain ⟨l, hl, hlen⟩ := h
      simp only [decide_eq_true_eq] at hlen
      rw [sectionElmts_cons] at hlen
      -- the last length divides the product of the inner lengths, so the outer length is one
      have hpos := sectionElmts_pos hw.2.2.2.2
      have hdvd : l.length ∣ sectionElmts (e :: ds) :=
        List.dvd_prod (List.mem_map_of_mem (List.mem_of_getLast? hl))
      have hle := Nat.le_of_dvd hpos hdvd
      have hd : d.length = 1 := by
        have h1 : d.length * sectionElmts (e :: ds) ≤ 1 * sectionElmts (e :: ds) := by omega
        have h2 := Nat.le_of_mul_le_mul_right h1 hpos
        have := hw.1
        omega
      apply OneRun.single hd
      apply ih hw.2.2.2.2
      rw [Option.any_eq_true]
      rw [hd, one_mul] at hlen
      exact ⟨l, hl, by simpa using hlen⟩

theorem oneRun_of_dims (hw : WellFormed elmtSize info) (hne : info ≠ [])
    (h : getDimOfAllelmts info = 0 ∨
      (info.take (getDimOfAllelmts info - 1)).all (·.length = 1) = true ∧
        info[getDimOfAllelmts info - 1]?.any (·.stride = 1) = true) : OneRun info := by
  induction info with
  | nil => exact absurd rfl hne
  | cons d ds ih =>
    rw [getDimOfAllelmts_cons] at h
    split_ifs at h with hds hd
    · exact OneRun.rows hds (stride_of_isAll hw hd)
    · simp only [false_or, Nat.sub_self, List.getElem?_cons_zero, Option.any_some,
        decide_eq_true_eq] at h
      exact OneRun.rows hds (Or.inl h.2)
    · have hne' : ds ≠ [] := by
        rintro rfl
        exact hds rfl
      have h' := h.resolve_left (by simp)
      rw [Nat.add_sub_cancel] at h'
      cases hk : getDimOfAllelmts ds with
      | zero =>
        exact absurd (getDimOfAllelmts_eq_zero_iff.mp hk) hds
      | succ k =>
        rw [hk, List.take_succ_cons, List.all_cons, Bool.and_eq_true, decide_eq_true_eq,
          List.getElem?_cons_succ] at h'
        apply OneRun.single h'.1.1
        apply ih hw.2.2.2.2 hne'
        rw [hk, Nat.add_sub_cancel]
        exact Or.inr ⟨h'.1.2, h'.2⟩

theorem oneRun_of_checkContiguous (hw : WellFormed elmtSize info) (hne : info ≠ [])
    (h : checkContiguous info (sectionElmts info) = some true) : OneRun info := by
  simp only [checkContiguous] at h
  split_ifs at h with h1 h2 h3 h4 h5
  · exact oneRun_of_single hne h1
  · exact oneRun_of_last hw h2
  · simp at h
  · exact oneRun_of_dims hw hne (Or.inl h4)
  · rw [Option.some.injEq, Bool.and_eq_true] at h
    exact oneRun_of_dims hw hne (Or.inr h)

theorem tiles_run (hne : info ≠ []) : Tiles info (run info) := by
  induction info with
  | nil => exact absurd rfl hne
  | cons d ds ih =>
    rw [run_cons]
    split_ifs with hds
    · refine ⟨d, List.mem_cons_self, ?_⟩
      rw [ArraySection.rowRun]
      split_ifs
      · exact ⟨Dvd.intro_left _ rfl, dvd_rfl⟩
      · exact ⟨dvd_rfl, Dvd.intro_left _ rfl⟩
    · have hne' : ds ≠ [] := by
        rintro rfl
        exact hds rfl
      obtain ⟨e, he, h⟩ := ih hne'
      exact ⟨e, List.mem_cons_of_mem _ he, h⟩

theorem head_offsets (hw : WellFormed elmtSize info) : (offsets info).head? = some 0 := by
  induction info with
  | nil => rfl
  | cons d ds ih =>
    obtain ⟨n, hn⟩ := Nat.exists_eq_succ_of_ne_zero hw.1.ne'
    obtain ⟨t, ht⟩ := List.head?_eq_some_iff.mp (ih hw.2.2.2.2)
    rw [offsets, hn, List.range_succ_eq_map, ht]
    rfl

theorem OneRun.span_offsets (he : 0 < elmtSize) (hw : WellFormed elmtSize info) (hne : info ≠ [])
    (h : OneRun info) :
    span elmtSize (offsets info) = List.range' 0 (sectionElmts info * elmtSize) := by
  have hrun := h.run_eq hw
  have hpos := run_pos he hw hne
  have hlo : elmtSize ≤ run info := Nat.le_of_dvd hpos (elmtSize_dvd_run hw)
  have hone : (strides info (run info)).length = 1 := by
    have hcount := ((length_strides he hw hne hlo le_rfl).2).mpr (tiles_run hne)
    rw [← hrun] at hcount
    exact Nat.eq_of_mul_eq_mul_right hpos (by rw [hcount, one_mul])
  have hspan := span_strides he hw hne hlo le_rfl (tiles_run hne)
  obtain ⟨s, hs⟩ := List.length_eq_one_iff.mp hone
  obtain ⟨t, ht⟩ := List.head?_eq_some_iff.mp (head_offsets hw)
  rw [hs, span_cons, span_nil, List.append_nil] at hspan
  -- both lists start with the first byte of the section
  have hhead := congrArg List.head? hspan
  rw [ht, span_cons, List.head?_append, List.head?_range', List.head?_range', if_neg hpos.ne',
    if_neg he.ne', Option.some_or, Option.some.injEq] at hhead
  rw [← hspan, hhead, hrun]

/-! ## The tables and the copies -/

theorem eq_of_isTheSameShape {info' : List ArraySection} (hw : WellFormed elmtSize info)
    (hw' : WellFormed elmtSize info') (h : isTheSameShape info info' = true) : info = info' := by
  simp only [isTheSameShape, decide_eq_true_eq] at h
  induction info generalizing info' with
  | nil => exact (List.length_eq_zero_iff.mp h.1.symm).symm
  | cons d ds ih =>
    cases info' with
    | nil => simp at h
    | cons e es =>
      have hrest := ih hw.2.2.2.2 hw'.2.2.2.2 ⟨by simpa using h.1, fun p hp =>
        h.2 p (List.mem_cons_of_mem _ hp)⟩
      obtain ⟨h1, h2, h3, h4⟩ := h.2 (d, e) List.mem_cons_self
      have h5 : d.distance = e.distance := by rw [hw.2.2.2.1, hw'.2.2.2.1, hrest]
      cases d
      cases e
      simp_all

theorem between_of_pairwise {l : List ℕ} {n a b : ℕ} (h : l.Pairwise fun s t => s + n ≤ t)
    (ha : l[0]? = some a) (hb : l[l.length - 1]? = some b) : ∀ s ∈ l, a ≤ s ∧ s ≤ b := by
  intro s hs
  obtain ⟨i, hi, rfl⟩ := List.mem_iff_getElem.mp hs
  rw [List.pairwise_iff_getElem] at h
  rw [List.getElem?_eq_some_iff] at ha hb
  obtain ⟨h0, rfl⟩ := ha
  obtain ⟨h1, rfl⟩ := hb
  constructor
  · rcases Nat.eq_zero_or_pos i with rfl | hpos
    · exact le_rfl
    · have := h 0 i h0 hi hpos
      omega
  · rcases Nat.lt_or_ge i (l.length - 1) with hlt | hge
    · have := h i (l.length - 1) hi h1 hlt
      omega
    · obtain rfl : i = l.length - 1 := by omega
      exact le_rfl

/-- With increasing tables both branches move every chunk from the old contents. -/
theorem copyChunks_spec {dst src : ℤ} {copyElmts : ℕ} {dstStride srcStride : List ℕ}
    (hpos : 0 < copyElmts) (hd : dstStride.length = copyElmts) (hs : srcStride.length = copyElmts)
    (hd' : dstStride.Pairwise fun s t => s + chunk ≤ t)
    (hs' : srcStride.Pairwise fun s t => s + chunk ≤ t) (mem fresh : ℤ → β) :
    ∃ mem', copyChunks dst src chunk copyElmts dstStride srcStride mem fresh = some mem' ∧
      IsAssignment chunk (blocksAt dst src dstStride srcStride) mem mem mem' := by
  have hget : ∀ {l : List ℕ} {i : ℕ}, l.length = copyElmts → i < copyElmts →
      ∃ a, l[i]? = some a := by
    intro l i hl hi
    exact ⟨l[i], List.getElem?_eq_getElem (by omega)⟩
  obtain ⟨d0, hd0⟩ := hget hd hpos
  obtain ⟨d1, hd1⟩ := hget hd (show copyElmts - 1 < copyElmts by omega)
  obtain ⟨s0, hs0⟩ := hget hs hpos
  obtain ⟨s1, hs1⟩ := hget hs (show copyElmts - 1 < copyElmts by omega)
  simp only [copyChunks, hd0, hd1, hs0, hs1, Option.bind_eq_bind, Option.bind_some]
  split_ifs with hov
  · refine ⟨_, rfl, ?_⟩
    have hpack : ((List.range copyElmts).map (· * chunk)).Pairwise fun s t => s + chunk ≤ t := by
      rw [List.pairwise_map]
      apply List.pairwise_lt_range.imp
      intro i j hij
      have := Nat.mul_le_mul_right chunk (Nat.succ_le_of_lt hij)
      rw [Nat.succ_mul] at this
      exact this
    have h1 := isAssignment_transfers (disjointBlocks_blocksAt 0 src srcStride hpack) mem fresh
    have h2 := isAssignment_transfers (disjointBlocks_blocksAt dst 0
      ((List.range copyElmts).map (· * chunk)) hd')
      (transfers chunk mem fresh
        (blocksAt 0 src ((List.range copyElmts).map (· * chunk)) srcStride))
      mem
    exact IsAssignment.comp (by simp [hs]) (by simp [hd]) h1 h2
  · -- the two intervals are apart, so every pair of chunks is
    have hsep : ∀ p ∈ blocksAt dst src dstStride srcStride,
        ∀ q ∈ blocksAt dst src dstStride srcStride, p.1 + chunk ≤ q.2 ∨ q.2 + chunk ≤ p.1 := by
      intro p hp q hq
      simp only [blocksAt, List.mem_map] at hp hq
      obtain ⟨p, hp, rfl⟩ := hp
      obtain ⟨q, hq, rfl⟩ := hq
      have hb := between_of_pairwise hd' hd0 (hd ▸ hd1) p.1 (List.of_mem_zip hp).1
      have hb' := between_of_pairwise hs' hs0 (hs ▸ hs1) q.2 (List.of_mem_zip hq).2
      simp only [checkOverlapping, decide_eq_true_eq] at hov
      simp only
      omega
    rw [foldlM_memcpy mem fun p hp => hsep p hp p hp]
    refine ⟨_, rfl, ?_⟩
    rw [moves_eq_transfers hsep mem fun _ _ _ _ => rfl]
    exact isAssignment_transfers (disjointBlocks_blocksAt dst src srcStride hd') mem mem

/-- The table is long enough; it is not overrun exactly when the chunk tiles the section. -/
theorem length_setStride (he : 0 < elmtSize) (s : Section elmtSize) (hdvd : elmtSize ∣ chunk)
    (hpos : 0 < chunk) (hhi : chunk ≤ run s.info) :
    (StrideEnds s.info chunk → setStride s.info chunk = some (strides s.info chunk)) ∧
      (sectionElmts s.info / (chunk / elmtSize) < (strides s.info chunk).length ↔
        ¬ Tiles s.info chunk) ∧
      (Tiles s.info chunk →
        (strides s.info chunk).length = sectionElmts s.info / (chunk / elmtSize)) := by
  have hlo := Nat.le_of_dvd hpos hdvd
  obtain ⟨hge, htiles⟩ := length_strides he s.wellFormed s.ne_nil hlo hhi
  obtain ⟨q, rfl⟩ := hdvd
  have hq : 0 < q := Nat.pos_of_mul_pos_left hpos
  rw [Nat.mul_div_cancel_left q he]
  generalize (strides s.info (elmtSize * q)).length = L at *
  generalize sectionElmts s.info = N at *
  have hmul : L * (elmtSize * q) = L * q * elmtSize := by ring
  rw [hmul] at hge htiles
  have hge' : N ≤ L * q := Nat.le_of_mul_le_mul_right hge he
  rw [Nat.mul_left_inj he.ne'] at htiles
  refine ⟨setStride_of_ends he s.wellFormed hlo s.ne_nil s.dims_le, ?_, ?_⟩
  · rw [← htiles, Nat.div_lt_iff_lt_mul hq]
    omega
  · intro ht
    rw [← htiles.mpr ht, Nat.mul_div_cancel _ hq]

/-! ## Section assignment -/

/-- Byte offsets of the section's elements in the array, in row-major order. -/
def elementOffsets : List ArraySection → List ℕ
  | [] => [0]
  | d :: ds => (List.range d.length).flatMap fun i =>
      (elementOffsets ds).map ((d.start + i * d.stride) * d.distance + ·)

theorem getOffset_cons : getOffset (d :: ds) = d.start * d.distance + getOffset ds := by
  have hacc : ∀ (l : List ArraySection) (a : ℕ),
      l.foldl (fun offset d => offset + d.start * d.distance) a =
        a + l.foldl (fun offset d => offset + d.start * d.distance) 0 := by
    intro l
    induction l with
    | nil => exact fun a => rfl
    | cons e l ih =>
      intro a
      rw [List.foldl_cons, List.foldl_cons, ih, ih (0 + _)]
      ring
  rw [getOffset, List.foldl_cons, hacc, zero_add]
  rfl

theorem elementOffsets_eq : elementOffsets info = (offsets info).map (getOffset info + ·) := by
  induction info with
  | nil => rfl
  | cons d ds ih =>
    rw [elementOffsets, offsets, ih, getOffset_cons, List.map_flatMap]
    congr 1
    funext i
    rw [List.map_map, List.map_map]
    apply List.map_congr_left
    intro o _
    simp only [Function.comp_apply, ArraySection.strideOffset]
    ring

theorem blocksAt_shift (dst src : ℤ) (x y : ℕ) (ss ts : List ℕ) :
    blocksAt dst src (ss.map (x + ·)) (ts.map (y + ·)) = blocksAt (dst + x) (src + y) ss ts := by
  rw [blocksAt, blocksAt, List.zip_map, List.map_map]
  apply List.map_congr_left
  intro p _
  simp [add_assoc]

/-- The `k`-th element of the source section, as it was before, is stored at the `k`-th element
of the destination section, and no other byte is changed, neither in memory nor past the end
of a stride table. -/
def Assigns (elmtSize : ℕ) (dst src : ℤ) (dstInfo srcInfo : List ArraySection) (mem : ℤ → β) :
    Option (Copied β) → Prop
  | none => False
  | some out => out.overrun = false ∧
      IsAssignment elmtSize (blocksAt dst src (elementOffsets dstInfo) (elementOffsets srcInfo))
        mem mem out.mem

/-- The chunk of the copy: the shorter of the two runs. -/
def commonRun (dstInfo srcInfo : List ArraySection) : ℕ := min (run dstInfo) (run srcInfo)

theorem commonRun_spec (he : 0 < elmtSize) (d s : Section elmtSize) :
    elmtSize ∣ commonRun d.info s.info ∧ 0 < commonRun d.info s.info ∧
      calcMaxCopyChunk d.info s.info = some (commonRun d.info s.info) := by
  refine ⟨?_, ?_, ?_⟩
  · rw [commonRun, min_def]
    split_ifs
    · exact elmtSize_dvd_run d.wellFormed
    · exact elmtSize_dvd_run s.wellFormed
  · exact lt_min (run_pos he d.wellFormed d.ne_nil) (run_pos he s.wellFormed s.ne_nil)
  · rw [calcMaxCopyChunk, calcCopyChunk_run d.wellFormed d.ne_nil,
      calcCopyChunk_run s.wellFormed s.ne_nil]
    rfl

/-- The chunk tiles the section and `_XMP_set_stride` fills its table. -/
def Cut (info : List ArraySection) (chunk : ℕ) : Prop := Tiles info chunk ∧ StrideEnds info chunk

section Copy

variable (he : 0 < elmtSize) (dst src : ℤ) (d s : Section elmtSize)
  (hN : sectionElmts d.info = sectionElmts s.info) (mem fresh : ℤ → β)
include he hN

theorem localContiguousCopy_assigns (hd : OneRun d.info) (hs : OneRun s.info) :
    Assigns elmtSize dst src d.info s.info mem
      (localContiguousCopy (dst + getOffset d.info) (src + getOffset s.info)
        (sectionElmts d.info) (sectionElmts s.info) elmtSize mem) := by
  have hspan : ∀ x y : ℤ, ∀ mem' : ℤ → β,
      IsAssignment (sectionElmts d.info * elmtSize) (blocksAt x y [0] [0]) mem mem mem' →
        IsAssignment elmtSize (blocksAt x y (offsets d.info) (offsets s.info)) mem mem mem' := by
    intro x y mem' h
    have hlen : (offsets d.info).length = (offsets s.info).length := by
      rw [length_offsets, length_offsets, hN]
    have hblock : span (sectionElmts d.info * elmtSize) [0] =
        List.range' 0 (sectionElmts d.info * elmtSize) := by simp
    apply (isAssignment_blocksAt_congr hlen rfl _ _).mpr h
    · rw [hd.span_offsets he d.wellFormed d.ne_nil, hblock]
    · rw [hs.span_offsets he s.wellFormed s.ne_nil, ← hN, hblock]
  have hone : ∀ x y : ℤ, IsAssignment (sectionElmts d.info * elmtSize) (blocksAt x y [0] [0]) mem
      mem (transfer (sectionElmts d.info * elmtSize) mem mem x y) := by
    intro x y
    have := isAssignment_transfers (disjointBlocks_blocksAt x y [0]
      (List.pairwise_singleton (fun s t => s + sectionElmts d.info * elmtSize ≤ t) 0)) mem mem
    simpa [blocksAt] using this
  rw [localContiguousCopy, if_pos hN]
  dsimp only
  split_ifs with hov
  · refine ⟨rfl, ?_⟩
    rw [elementOffsets_eq, elementOffsets_eq, blocksAt_shift]
    exact hspan _ _ _ (hone _ _)
  · rw [memcpy_of_sep]
    · refine ⟨rfl, ?_⟩
      rw [elementOffsets_eq, elementOffsets_eq, blocksAt_shift]
      exact hspan _ _ _ (hone _ _)
    · simp only [checkOverlapping, decide_eq_true_eq] at hov
      omega

/-- Once both tables are filled, the copy is the assignment exactly when the chunk tiles both
sections. -/
theorem localNonContiguousCopy_of_ends (hd : StrideEnds d.info (commonRun d.info s.info))
    (hs : StrideEnds s.info (commonRun d.info s.info)) :
    Assigns elmtSize dst src d.info s.info mem
        (localNonContiguousCopy (dst + getOffset d.info) (src + getOffset s.info) d.info s.info
          (sectionElmts d.info) (sectionElmts s.info) elmtSize mem fresh) ↔
      Tiles d.info (commonRun d.info s.info) ∧ Tiles s.info (commonRun d.info s.info) := by
  obtain ⟨hdvd, hpos, hmax⟩ := commonRun_spec he d s
  obtain ⟨hset, hover, hlen⟩ := length_setStride he d hdvd hpos (min_le_left _ _)
  obtain ⟨hset', hover', hlen'⟩ := length_setStride he s hdvd hpos (min_le_right _ _)
  have hlo := Nat.le_of_dvd hpos hdvd
  have hpair : ∀ t : Section elmtSize, commonRun d.info s.info ≤ run t.info →
      Tiles t.info (commonRun d.info s.info) →
      (strides t.info (commonRun d.info s.info)).Pairwise
        fun a b => a + commonRun d.info s.info ≤ b := by
    intro t hle ht
    apply pairwise_of_span hpos
    rw [span_strides he t.wellFormed t.ne_nil hlo hle ht]
    exact pairwise_span_offsets t.wellFormed
  rw [localNonContiguousCopy, if_pos hN, hmax]
  simp only [Option.bind_eq_bind, Option.bind_some, hset hd]
  rw [← hN] at hover' hlen'
  generalize hm : sectionElmts d.info / (commonRun d.info s.info / elmtSize) = m at *
  -- the second table is the first one or filled the same way
  obtain ⟨entries, hentries, htake, hfits⟩ : ∃ entries,
      srcTable d.info s.info (commonRun d.info s.info)
        ((strides d.info (commonRun d.info s.info)).take m) = some entries ∧
      entries.take m = (strides s.info (commonRun d.info s.info)).take m ∧
      (Tiles d.info (commonRun d.info s.info) →
        (m < entries.length ↔ ¬ Tiles s.info (commonRun d.info s.info))) := by
    rw [srcTable]
    split_ifs with hsame
    · have heq := eq_of_isTheSameShape d.wellFormed s.wellFormed hsame
      have htiles : ∀ c, Tiles d.info c → Tiles s.info c := fun c h => heq ▸ h
      refine ⟨_, rfl, ?_, fun ht => iff_of_false (by simp) (not_not_intro (htiles _ ht))⟩
      rw [heq, List.take_take, min_self]
    · exact ⟨_, hset' hs, rfl, fun _ => hover'⟩
  rw [hentries, Option.bind_some, htake]
  constructor
  · intro h
    cases hrun : copyChunks (dst + getOffset d.info) (src + getOffset s.info)
        (commonRun d.info s.info) m ((strides d.info (commonRun d.info s.info)).take m)
        ((strides s.info (commonRun d.info s.info)).take m) mem fresh with
    | none =>
      rw [hrun] at h
      exact h.elim
    | some mem' =>
      rw [hrun] at h
      have hfit := h.1
      simp only [decide_eq_false_iff_not, not_or] at hfit
      have ht : Tiles d.info (commonRun d.info s.info) := by
        by_contra hn
        exact hfit.1 (hover.mpr hn)
      refine ⟨ht, ?_⟩
      by_contra hn
      exact hfit.2 ((hfits ht).mpr hn)
  · rintro ⟨ht, ht'⟩
    have hmpos : 0 < m := by
      have hcount := (length_strides he d.wellFormed d.ne_nil hlo (min_le_left _ _)).2.mpr ht
      have hN0 := Nat.mul_pos (sectionElmts_pos d.wellFormed) he
      rw [hlen ht] at hcount
      apply Nat.pos_of_ne_zero
      rintro rfl
      omega
    have hall : ∀ {l : List ℕ}, l.length = m → l.take m = l := by
      rintro l rfl
      exact List.take_length
    rw [hall (hlen ht), hall (hlen' ht')]
    obtain ⟨mem', hcopy, hassign⟩ := @copyChunks_spec β _ (dst + getOffset d.info)
      (src + getOffset s.info) m _ _ hmpos (hlen ht) (hlen' ht')
      (hpair d (min_le_left _ _) ht) (hpair s (min_le_right _ _) ht') mem fresh
    rw [hcopy]
    constructor
    · simp only [decide_eq_false_iff_not, not_or]
      exact ⟨fun h => hover.mp h ht, fun h => (hfits ht).mp h ht'⟩
    · rw [elementOffsets_eq, elementOffsets_eq, blocksAt_shift]
      apply (isAssignment_blocksAt_congr _ _ _ _).mp hassign
      · rw [hlen ht, hlen' ht']
      · rw [length_offsets, length_offsets, hN]
      · exact span_strides he d.wellFormed d.ne_nil hlo (min_le_left _ _) ht
      · exact span_strides he s.wellFormed s.ne_nil hlo (min_le_right _ _) ht'

theorem localNonContiguousCopy_assigns_iff :
    Assigns elmtSize dst src d.info s.info mem
        (localNonContiguousCopy (dst + getOffset d.info) (src + getOffset s.info) d.info s.info
          (sectionElmts d.info) (sectionElmts s.info) elmtSize mem fresh) ↔
      Cut d.info (commonRun d.info s.info) ∧ Cut s.info (commonRun d.info s.info) := by
  obtain ⟨hdvd, hpos, hmax⟩ := commonRun_spec he d s
  by_cases hd : StrideEnds d.info (commonRun d.info s.info)
  · by_cases hs : StrideEnds s.info (commonRun d.info s.info)
    · rw [localNonContiguousCopy_of_ends he dst src d s hN mem fresh hd hs]
      exact ⟨fun h => ⟨⟨h.1, hd⟩, ⟨h.2, hs⟩⟩, fun h => ⟨h.1.1, h.2.1⟩⟩
    · have hsame : ¬ isTheSameShape d.info s.info = true := by
        intro h
        have hends : ∀ c, StrideEnds d.info c → StrideEnds s.info c := fun c hc =>
          eq_of_isTheSameShape d.wellFormed s.wellFormed h ▸ hc
        exact hs (hends _ hd)
      refine iff_of_false ?_ fun h => hs h.2.2
      rw [localNonContiguousCopy, if_pos hN, hmax]
      simp only [Option.bind_eq_bind, Option.bind_some, srcTable, if_neg hsame,
        setStride_of_not_ends he s.wellFormed s.dims_le hs, Option.bind_none]
      cases setStride d.info (commonRun d.info s.info) with
      | none => exact id
      | some entries => exact id
  · refine iff_of_false ?_ fun h => hd h.1.2
    rw [localNonContiguousCopy, if_pos hN, hmax]
    dsimp only [Option.bind_eq_bind, Option.bind_some]
    rw [setStride_of_not_ends he d.wellFormed d.dims_le hd]
    exact id

theorem localCopy_assigns_iff {dstContiguous srcContiguous : Bool}
    (hd : checkContiguous d.info (sectionElmts d.info) = some dstContiguous)
    (hs : checkContiguous s.info (sectionElmts s.info) = some srcContiguous) :
    Assigns elmtSize dst src d.info s.info mem
        (localCopy dst src elmtSize dstContiguous srcContiguous d.info s.info
          (sectionElmts d.info) (sectionElmts s.info) mem fresh) ↔
      (dstContiguous = true ∧ srcContiguous = true) ∨
        (Cut d.info (commonRun d.info s.info) ∧ Cut s.info (commonRun d.info s.info)) := by
  rw [localCopy]
  split_ifs with hboth
  · rw [Bool.and_eq_true] at hboth
    refine iff_of_true ?_ (Or.inl hboth)
    rw [hboth.1] at hd
    rw [hboth.2] at hs
    exact localContiguousCopy_assigns he dst src d s hN mem
      (oneRun_of_checkContiguous d.wellFormed d.ne_nil hd)
      (oneRun_of_checkContiguous s.wellFormed s.ne_nil hs)
  · rw [Bool.and_eq_true] at hboth
    rw [or_iff_right hboth]
    exact localNonContiguousCopy_assigns_iff he dst src d s hN mem fresh

end Copy

/-- A local put or get is the assignment of the sections exactly when both are contiguous or the
shorter of the two runs cuts either of them: it is a whole number of rows of some dimension and
divides it evenly, and with six or seven dimensions it reaches the fourth one. -/
theorem local_copy_assigns_iff (desc : CoarrayDesc) (he : 0 < desc.elmtSize) (other : ℤ)
    (d s : Section desc.elmtSize) (hN : sectionElmts d.info = sectionElmts s.info)
    {dstContiguous srcContiguous : Bool}
    (hd : checkContiguous d.info (sectionElmts d.info) = some dstContiguous)
    (hs : checkContiguous s.info (sectionElmts s.info) = some srcContiguous)
    (mem fresh : ℤ → β) :
    (Assigns desc.elmtSize desc.realAddr other d.info s.info mem
        (localPut desc other dstContiguous srcContiguous d.info s.info (sectionElmts d.info)
          (sectionElmts s.info) mem fresh) ↔
      (dstContiguous = true ∧ srcContiguous = true) ∨
        (Cut d.info (commonRun d.info s.info) ∧ Cut s.info (commonRun d.info s.info))) ∧
    (Assigns desc.elmtSize other desc.realAddr d.info s.info mem
        (localGet other desc dstContiguous srcContiguous d.info s.info (sectionElmts d.info)
          (sectionElmts s.info) mem fresh) ↔
      (dstContiguous = true ∧ srcContiguous = true) ∨
        (Cut d.info (commonRun d.info s.info) ∧ Cut s.info (commonRun d.info s.info))) :=
  ⟨localCopy_assigns_iff he desc.realAddr other d s hN mem fresh hd hs,
    localCopy_assigns_iff he other desc.realAddr d s hN mem fresh hd hs⟩

/-- `char a[10][10]`, section `a[0:2][0:6]`. -/
def pairOfSixes : Section 1 where
  info := [⟨0, 2, 1, 10, 10⟩, ⟨0, 6, 1, 10, 1⟩]
  ne_nil := by decide
  dims_le := by decide
  wellFormed := by decide

/-- `char b[6][4]`, section `b[0:3][0:4]`: twelve contiguous bytes. -/
def threeRows : Section 1 where
  info := [⟨0, 3, 1, 6, 4⟩, ⟨0, 4, 1, 4, 1⟩]
  ne_nil := by decide
  dims_le := by decide
  wellFormed := by decide

/-- `char b[6][4]`, section `b[0:6][0:2]`. -/
def sixPairs : Section 1 where
  info := [⟨0, 6, 1, 6, 4⟩, ⟨0, 2, 1, 4, 1⟩]
  ne_nil := by decide
  dims_le := by decide
  wellFormed := by decide

theorem local_copy_assigns_pairs :
    Cut pairOfSixes.info (commonRun pairOfSixes.info sixPairs.info) ∧
      Assigns 1 1000 0 pairOfSixes.info sixPairs.info (fun a => a)
        (localPut ⟨1000, 1⟩ 0 false false pairOfSixes.info sixPairs.info 12 12
          (fun a : ℤ => a) fun _ => 0) := by
  have ht : Cut pairOfSixes.info (commonRun pairOfSixes.info sixPairs.info) :=
    ⟨⟨⟨0, 6, 1, 10, 1⟩, by decide, by decide, by decide⟩, Or.inl (by decide)⟩
  have ht' : Cut sixPairs.info (commonRun pairOfSixes.info sixPairs.info) :=
    ⟨⟨⟨0, 2, 1, 4, 1⟩, by decide, by decide, by decide⟩, Or.inl (by decide)⟩
  exact ⟨ht, (local_copy_assigns_iff ⟨1000, 1⟩ (by decide) 0 pairOfSixes sixPairs (by decide)
    (by decide) (by decide) (fun a : ℤ => a) fun _ => 0).1.mpr (Or.inr ⟨ht, ht'⟩)⟩

/-- Chunks of six bytes against rows of four: the source table gets three entries in a place for
two, and the second chunk is read from offset four instead of six. -/
theorem localPut_cuts_rows :
    sectionElmts pairOfSixes.info = sectionElmts threeRows.info ∧
      checkContiguous pairOfSixes.info (sectionElmts pairOfSixes.info) = some false ∧
      checkContiguous threeRows.info (sectionElmts threeRows.info) = some true ∧
      ¬ Assigns 1 1000 0 pairOfSixes.info threeRows.info (fun a => a)
        (localPut ⟨1000, 1⟩ 0 false true pairOfSixes.info threeRows.info 12 12
          (fun a : ℤ => a) fun _ => 0) := by
  refine ⟨by decide, by decide, by decide, ?_⟩
  rintro ⟨-, h⟩
  have hbyte := h.moved (1010, 6) (by decide) 0 (by decide)
  revert hbyte
  decide

end OmniCompiler.Xmp.Coarray
