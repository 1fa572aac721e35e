import Mathlib.Data.List.DropRight
import OmniCompiler.Arithmetic.ForLoop
import OmniCompiler.Memory.Blocks

/-!
# Array sections of the coarray runtime (`xmp_coarray_utils.c`, `xmp_coarray_local.c`)

A section is described by one record for each dimension. The copy routines move
it in chunks: `_XMP_calc_copy_chunk` measures the contiguous run at the end of
the section and `_XMP_set_stride` lists the offsets of the chunks. The offsets
of the elements in row-major order are `offsets`; a chunk size serves a section
when the chunks cover the same bytes in the same order.
-/
namespace OmniCompiler.Xmp.Coarray

open Memory ForLoop

structure ArraySection where
  start : ℕ
  length : ℕ
  stride : ℕ
  elmts : ℕ
  distance : ℕ
  deriving DecidableEq, Repr

def getOffset (info : List ArraySection) : ℕ :=
  info.foldl (fun offset d => offset + d.start * d.distance) 0

def ArraySection.isAll (d : ArraySection) : Bool := d.start == 0 && d.length == d.elmts

/-- The loop runs from the last dimension and stops at the first one that is not complete. -/
def getDimOfAllelmts (info : List ArraySection) : ℕ := (info.rdropWhile ArraySection.isAll).length

theorem getDimOfAllelmts_le (info : List ArraySection) : getDimOfAllelmts info ≤ info.length :=
  (List.rdropWhile_prefix _ _).length_le

def calcCopyChunk (copyChunkDim : ℕ) (info : List ArraySection) : Option ℕ :=
  if copyChunkDim = 0 then info[0]?.map fun d => d.length * d.distance
  else info[copyChunkDim - 1]?.map fun d =>
    if d.stride = 1 then d.length * d.distance else d.distance

def calcMaxCopyChunk (dstInfo srcInfo : List ArraySection) : Option ℕ := do
  let dstCopyChunk ← calcCopyChunk (getDimOfAllelmts dstInfo) dstInfo
  let srcCopyChunk ← calcCopyChunk (getDimOfAllelmts srcInfo) srcInfo
  some (min dstCopyChunk srcCopyChunk)

def ArraySection.strideOffset (d : ArraySection) : ℕ := d.stride * d.distance

/-- `for(i = 0; i < length; i += chunk_len)`. -/
def chunkSteps (length chunkLen : ℕ) : List ℕ := (loopValues 0 length chunkLen).map Int.toNat

/-- The dimension whose loop advances by whole chunks: the comparisons of `distance` with the
chunk size run from the last but one dimension outwards. -/
def strideLevel (info : List ArraySection) (chunkSize : ℕ) : ℕ :=
  (info.dropLast.rdropWhile fun d => ¬ d.distance > chunkSize).length

/-- The loop nest of `_XMP_set_stride` with the chunked loop at dimension `level`. -/
def strideLoops (chunkSize : ℕ) : ℕ → List ArraySection → List ℕ
  | _, [] => []
  | 0, d :: _ => (chunkSteps d.length (chunkSize / d.distance)).map (d.strideOffset * ·)
  | level + 1, d :: ds =>
    (List.range d.length).flatMap fun i =>
      (strideLoops chunkSize level ds).map (d.strideOffset * i + ·)

/-- The entries stored by the nest with the chunked loop at dimension `level`; `none` when that
loop is entered with `chunk_len` zero, since it never ends then. -/
def strideTable (chunkSize level : ℕ) (info : List ArraySection) : Option (List ℕ) :=
  if (info.take (level + 1)).all (0 < ·.length) ∧
      info[level]?.any (chunkSize / ·.distance = 0) then none
  else some (strideLoops chunkSize level info)

/-- All entries `_XMP_set_stride` stores; `switch (dims)` has cases for one to seven dimensions.
Six and seven dimensions have two chains of comparisons, from the last but one dimension to the
fourth and from the third outwards, and the second one is not an `else` of the first. -/
def setStride (info : List ArraySection) (chunkSize : ℕ) : Option (List ℕ) :=
  let level := strideLevel info chunkSize
  if info.length ≤ 5 then strideTable chunkSize level info
  else if info.length ≤ 7 then do
    let first ← if 4 ≤ level then strideTable chunkSize level info else some []
    let second ← strideTable chunkSize (strideLevel (info.take 4) chunkSize) info
    some (first ++ second)
  else some []

/-! ## Row-major sections -/

/-- Bytes of an array with the dimensions `info`. -/
def extent (elmtSize : ℕ) (info : List ArraySection) : ℕ :=
  (info.map ArraySection.elmts).prod * elmtSize

/-- Number of elements of the section. -/
def sectionElmts (info : List ArraySection) : ℕ := (info.map ArraySection.length).prod

def WellFormed (elmtSize : ℕ) : List ArraySection → Prop
  | [] => True
  | d :: ds => 0 < d.length ∧ 0 < d.stride ∧ d.start + (d.length - 1) * d.stride < d.elmts ∧
      d.distance = extent elmtSize ds ∧ WellFormed elmtSize ds

instance decidableWellFormed (elmtSize : ℕ) : (info : List ArraySection) →
    Decidable (WellFormed elmtSize info)
  | [] => isTrue trivial
  | d :: ds =>
    have := decidableWellFormed elmtSize ds
    inferInstanceAs (Decidable (0 < d.length ∧ 0 < d.stride ∧
      d.start + (d.length - 1) * d.stride < d.elmts ∧ d.distance = extent elmtSize ds ∧
        WellFormed elmtSize ds))

/-- Byte offsets of the elements from the first one, the last index running fastest. -/
def offsets : List ArraySection → List ℕ
  | [] => [0]
  | d :: ds => (List.range d.length).flatMap fun i => (offsets ds).map (d.strideOffset * i + ·)

/-- Bytes without a gap when the rows of dimension `d` are complete. -/
def ArraySection.rowRun (d : ArraySection) : ℕ :=
  if d.stride = 1 then d.length * d.distance else d.distance

/-- Length in bytes of the contiguous runs the section consists of. -/
def run : List ArraySection → ℕ
  | [] => 0
  | d :: ds => if ds.all ArraySection.isAll then d.rowRun else run ds

def Tiles (info : List ArraySection) (chunk : ℕ) : Prop :=
  ∃ d ∈ info, d.distance ∣ chunk ∧ chunk ∣ d.length * d.distance

variable {elmtSize chunk : ℕ} {d : ArraySection} {ds info : List ArraySection}

theorem extent_cons : extent elmtSize (d :: ds) = d.elmts * extent elmtSize ds := by
  rw [extent, extent, List.map_cons, List.prod_cons, mul_assoc]

theorem sectionElmts_cons : sectionElmts (d :: ds) = d.length * sectionElmts ds := by
  rw [sectionElmts, sectionElmts, List.map_cons, List.prod_cons]

theorem length_le_elmts (hw : WellFormed elmtSize (d :: ds)) : d.length ≤ d.elmts := by
  obtain ⟨hl, hs, hb, -⟩ := hw
  have : d.length - 1 ≤ (d.length - 1) * d.stride := Nat.le_mul_of_pos_right _ hs
  omega

theorem extent_pos (he : 0 < elmtSize) (hw : WellFormed elmtSize info) :
    0 < extent elmtSize info := by
  induction info with
  | nil => simpa [extent] using he
  | cons d ds ih =>
    rw [extent_cons]
    apply Nat.mul_pos
    · have := length_le_elmts hw
      exact Nat.lt_of_lt_of_le hw.1 this
    · exact ih hw.2.2.2.2

theorem distance_pos (he : 0 < elmtSize) (hw : WellFormed elmtSize (d :: ds)) :
    0 < d.distance := by
  rw [hw.2.2.2.1]
  exact extent_pos he hw.2.2.2.2

/-- A row of an inner dimension is no longer than the whole inner array. -/
theorem row_le_extent (he : 0 < elmtSize) (hw : WellFormed elmtSize info) (hd : d ∈ info) :
    d.distance ≤ extent elmtSize info ∧ d.length * d.distance ≤ extent elmtSize info := by
  induction info with
  | nil => cases hd
  | cons e ds ih =>
    have hpos := extent_pos he hw.2.2.2.2
    have hle := length_le_elmts hw
    have hl := hw.1
    rw [extent_cons]
    cases hd with
    | head =>
      rw [← hw.2.2.2.1]
      constructor
      · exact Nat.le_mul_of_pos_left _ (by omega)
      · exact Nat.mul_le_mul_right _ hle
    | tail _ hd =>
      have hstep : extent elmtSize ds ≤ e.elmts * extent elmtSize ds :=
        Nat.le_mul_of_pos_left _ (by omega)
      obtain ⟨h1, h2⟩ := ih hw.2.2.2.2 hd
      exact ⟨h1.trans hstep, h2.trans hstep⟩

theorem row_pos (he : 0 < elmtSize) (hw : WellFormed elmtSize info) (hd : d ∈ info) :
    0 < d.length * d.distance := by
  induction info with
  | nil => cases hd
  | cons e ds ih =>
    cases hd with
    | head => exact Nat.mul_pos hw.1 (distance_pos he hw)
    | tail _ hd => exact ih hw.2.2.2.2 hd

theorem isAll_iff : d.isAll = true ↔ d.start = 0 ∧ d.length = d.elmts := by
  simp [ArraySection.isAll]

theorem stride_of_isAll (hw : WellFormed elmtSize (d :: ds)) (ha : d.isAll = true) :
    d.stride = 1 ∨ d.length = 1 := by
  obtain ⟨hl, hs, hb, -⟩ := hw
  obtain ⟨h0, hlen⟩ := isAll_iff.mp ha
  by_contra hne
  push Not at hne
  have h2 : 2 ≤ d.stride := by omega
  have : (d.length - 1) * 2 ≤ (d.length - 1) * d.stride := Nat.mul_le_mul_left _ h2
  omega

/-- A dimension that is in bounds and as long as the array is complete. -/
theorem isAll_of_length (hw : WellFormed elmtSize (d :: ds)) (hlen : d.length = d.elmts) :
    d.isAll = true := by
  obtain ⟨hl, hs, hb, -⟩ := hw
  have : d.length - 1 ≤ (d.length - 1) * d.stride := Nat.le_mul_of_pos_right _ hs
  exact isAll_iff.mpr ⟨by omega, hlen⟩

theorem run_cons : run (d :: ds) = if ds.all ArraySection.isAll then d.rowRun else run ds := rfl

theorem rowRun_of_isAll (hw : WellFormed elmtSize (d :: ds)) (ha : d.isAll = true) :
    d.rowRun = d.length * d.distance := by
  rw [ArraySection.rowRun]
  split_ifs with hs
  · rfl
  · rw [(stride_of_isAll hw ha).resolve_left hs, one_mul]

theorem run_of_all (hw : WellFormed elmtSize info) (hne : info ≠ [])
    (ha : info.all ArraySection.isAll = true) : run info = extent elmtSize info := by
  cases info with
  | nil => exact absurd rfl hne
  | cons d ds =>
    rw [List.all_cons, Bool.and_eq_true] at ha
    rw [run_cons, if_pos ha.2, rowRun_of_isAll hw ha.1, (isAll_iff.mp ha.1).2, extent_cons,
      hw.2.2.2.1]

/-- The run stays inside one row of the enclosing array unless the section is all of it. -/
theorem run_lt_extent (he : 0 < elmtSize) (hw : WellFormed elmtSize info)
    (ha : ¬ info.all ArraySection.isAll = true) : run info < extent elmtSize info := by
  induction info with
  | nil => exact absurd rfl ha
  | cons d ds ih =>
    have hpos := distance_pos he hw
    have hle := length_le_elmts hw
    have hl := hw.1
    rw [extent_cons, ← hw.2.2.2.1, run_cons]
    split_ifs with hds
    · have hd : ¬ d.isAll = true := fun h => ha (by rw [List.all_cons, h, hds]; rfl)
      have hlt : d.length < d.elmts := lt_of_le_of_ne hle fun h => hd (isAll_of_length hw h)
      rw [ArraySection.rowRun]
      split_ifs
      · exact Nat.mul_lt_mul_of_pos_right hlt hpos
      · exact lt_mul_left hpos (by omega)
    · have hrun := ih hw.2.2.2.2 hds
      rw [← hw.2.2.2.1] at hrun
      exact hrun.trans_le (Nat.le_mul_of_pos_left _ (by omega))

theorem elmtSize_dvd_extent : elmtSize ∣ extent elmtSize info := Dvd.intro_left _ rfl

theorem elmtSize_dvd_run (hw : WellFormed elmtSize info) : elmtSize ∣ run info := by
  induction info with
  | nil => exact dvd_zero _
  | cons d ds ih =>
    have hd : elmtSize ∣ d.distance := by
      rw [hw.2.2.2.1]
      exact elmtSize_dvd_extent
    rw [run_cons, ArraySection.rowRun]
    split_ifs
    · exact hd.mul_left _
    · exact hd
    · exact ih hw.2.2.2.2

theorem run_pos (he : 0 < elmtSize) (hw : WellFormed elmtSize info) (hne : info ≠ []) :
    0 < run info := by
  induction info with
  | nil => exact absurd rfl hne
  | cons d ds ih =>
    have hpos := distance_pos he hw
    rw [run_cons, ArraySection.rowRun]
    split_ifs with hds
    · exact Nat.mul_pos hw.1 hpos
    · exact hpos
    · apply ih hw.2.2.2.2
      rintro rfl
      exact hds rfl

/-! ## The chunk is the run -/

theorem rdropWhile_cons {α : Type*} (p : α → Bool) (a : α) (l : List α) :
    (a :: l).rdropWhile p =
      if l.all p then if p a then [] else [a] else a :: l.rdropWhile p := by
  have hempty : (l.reverse.dropWhile p).isEmpty = l.all p := by
    rw [Bool.eq_iff_iff, List.isEmpty_iff, List.all_eq_true]
    simp
  rw [List.rdropWhile, List.reverse_cons, List.dropWhile_append, hempty, List.rdropWhile]
  split_ifs with h ha
  · simp [ha]
  · simp [ha]
  · simp

theorem getDimOfAllelmts_cons : getDimOfAllelmts (d :: ds) =
    if ds.all ArraySection.isAll then if d.isAll then 0 else 1 else getDimOfAllelmts ds + 1 := by
  rw [getDimOfAllelmts, rdropWhile_cons]
  split_ifs
  · rfl
  · rfl
  · rfl

theorem getDimOfAllelmts_eq_zero_iff :
    getDimOfAllelmts info = 0 ↔ info.all ArraySection.isAll = true := by
  rw [getDimOfAllelmts, List.length_eq_zero_iff, List.rdropWhile_eq_nil_iff, List.all_eq_true]

theorem calcCopyChunk_run (hw : WellFormed elmtSize info) (hne : info ≠ []) :
    calcCopyChunk (getDimOfAllelmts info) info = some (run info) := by
  induction info with
  | nil => exact absurd rfl hne
  | cons d ds ih =>
    rw [getDimOfAllelmts_cons, run_cons]
    split_ifs with hds hd
    · rw [rowRun_of_isAll hw hd]
      rfl
    · rfl
    · have hne' : ds ≠ [] := by
        rintro rfl
        exact hds rfl
      rw [← ih hw.2.2.2.2 hne']
      have hpos : getDimOfAllelmts ds ≠ 0 := fun h0 => hds (getDimOfAllelmts_eq_zero_iff.mp h0)
      obtain ⟨k, hk⟩ := Nat.exists_eq_succ_of_ne_zero hpos
      rw [hk]
      rfl

/-! ## The chunk offsets -/

theorem pairwise_distance (he : 0 < elmtSize) (hw : WellFormed elmtSize info) :
    info.Pairwise fun d e => e.distance ≤ d.distance := by
  induction info with
  | nil => exact List.Pairwise.nil
  | cons d ds ih =>
    refine List.pairwise_cons.mpr ⟨?_, ih hw.2.2.2.2⟩
    intro e hmem
    rw [hw.2.2.2.1]
    exact (row_le_extent he hw.2.2.2.2 hmem).1

theorem strideLevel_stop (hp : (d :: ds).Pairwise fun d e => e.distance ≤ d.distance)
    (h : ds = [] ∨ d.distance ≤ chunk) : strideLevel (d :: ds) chunk = 0 := by
  rw [strideLevel, List.length_eq_zero_iff, List.rdropWhile_eq_nil_iff]
  intro e hmem
  cases ds with
  | nil => cases hmem
  | cons e' ds =>
    have hdist := h.resolve_left (by simp)
    have hle : e.distance ≤ d.distance := by
      rw [List.dropLast_cons_of_ne_nil (by simp)] at hmem
      cases hmem with
      | head => exact le_rfl
      | tail _ hmem => exact (List.pairwise_cons.mp hp).1 e (List.mem_of_mem_dropLast hmem)
    simp only [gt_iff_lt, not_lt, decide_eq_true_eq]
    exact hle.trans hdist

theorem strideLevel_descend (hne : ds ≠ []) (h : chunk < d.distance) :
    strideLevel (d :: ds) chunk = strideLevel ds chunk + 1 := by
  rw [strideLevel, List.dropLast_cons_of_ne_nil hne, rdropWhile_cons]
  split_ifs with hall hd
  · simp at hd
    omega
  · have h0 : strideLevel ds chunk = 0 := by
      rw [strideLevel, List.length_eq_zero_iff, List.rdropWhile_eq_nil_iff]
      exact List.all_eq_true.mp hall
    rw [h0]
    rfl
  · rfl

def strides (info : List ArraySection) (chunk : ℕ) : List ℕ :=
  strideLoops chunk (strideLevel info chunk) info

theorem strides_stop (he : 0 < elmtSize) (hw : WellFormed elmtSize (d :: ds))
    (h : ds = [] ∨ d.distance ≤ chunk) : strides (d :: ds) chunk =
      (chunkSteps d.length (chunk / d.distance)).map (d.strideOffset * ·) := by
  rw [strides, strideLevel_stop (pairwise_distance he hw) h]
  rfl

theorem strides_descend (hne : ds ≠ []) (h : chunk < d.distance) : strides (d :: ds) chunk =
    (List.range d.length).flatMap fun i => (strides ds chunk).map (d.strideOffset * i + ·) := by
  rw [strides, strideLevel_descend hne h]
  rfl

/-- The chunked loop is in the outermost dimension whose distance the chunk reaches. -/
theorem strideLevel_eq_iff (hp : info.Pairwise fun d e => e.distance ≤ d.distance)
    (hlast : ∀ e ∈ info.getLast?, e.distance ≤ chunk) {n : ℕ} {e : ArraySection}
    (hn : info[n]? = some e) (hle : e.distance ≤ chunk) :
    strideLevel info chunk ≤ n ∧ strideLevel (info.take (n + 1)) chunk = strideLevel info chunk ∧
      ∃ f, info[strideLevel info chunk]? = some f ∧ f.distance ≤ chunk := by
  induction info generalizing n with
  | nil => simp at hn
  | cons d ds ih =>
    have hpt : ((d :: ds).take (n + 1)).Pairwise fun d e => e.distance ≤ d.distance :=
      hp.sublist (List.take_sublist _ _)
    rw [List.take_succ_cons] at hpt ⊢
    by_cases hd : d.distance ≤ chunk
    · rw [strideLevel_stop hp (Or.inr hd), strideLevel_stop hpt (Or.inr hd)]
      exact ⟨Nat.zero_le n, rfl, d, rfl, hd⟩
    · cases n with
      | zero =>
        obtain rfl : d = e := by simpa using hn
        exact absurd hle hd
      | succ n =>
        rw [List.getElem?_cons_succ] at hn
        have hne : ds ≠ [] := by
          rintro rfl
          simp at hn
        have hne' : ds.take (n + 1) ≠ [] := by simpa using hne
        rw [List.getLast?_cons_of_ne_nil hne] at hlast
        obtain ⟨h1, h2, h3⟩ := ih (List.pairwise_cons.mp hp).2 hlast hn
        rw [strideLevel_descend hne (by omega), strideLevel_descend hne' (by omega), h2]
        exact ⟨by omega, rfl, h3⟩

/-- The chunk does not reach dimension `n`, so a chain that ends there stops there. -/
theorem strideLevel_take_of_lt (hp : info.Pairwise fun d e => e.distance ≤ d.distance) {n : ℕ}
    {e : ArraySection} (hn : info[n]? = some e) (hlt : chunk < e.distance) :
    strideLevel (info.take (n + 1)) chunk = n := by
  induction info generalizing n with
  | nil => simp at hn
  | cons d ds ih =>
    rw [List.take_succ_cons]
    cases n with
    | zero => rfl
    | succ n =>
      rw [List.getElem?_cons_succ] at hn
      have hne : ds.take (n + 1) ≠ [] := by
        rintro h
        rw [List.take_eq_nil_iff] at h
        rw [h.resolve_left (by simp)] at hn
        simp at hn
      have hde := (List.pairwise_cons.mp hp).1 e (List.mem_of_getElem? hn)
      rw [strideLevel_descend hne (by omega), ih (List.pairwise_cons.mp hp).2 hn]

theorem distance_last (hw : WellFormed elmtSize info) :
    ∀ e ∈ info.getLast?, e.distance = elmtSize := by
  induction info with
  | nil => simp
  | cons d ds ih =>
    cases ds with
    | nil =>
      intro e he
      obtain rfl : d = e := by simpa using he
      simpa [extent] using hw.2.2.2.1
    | cons d' ds =>
      rw [List.getLast?_cons_cons]
      exact ih hw.2.2.2.2

theorem length_pos_of_mem (hw : WellFormed elmtSize info) : ∀ e ∈ info, 0 < e.length := by
  induction info with
  | nil => simp
  | cons d ds ih => exact List.forall_mem_cons.mpr ⟨hw.1, ih hw.2.2.2.2⟩

/-- The chain of comparisons ends: with six or seven dimensions only when the chunk reaches the
fourth one, where the second chain starts. -/
def StrideEnds (info : List ArraySection) (chunk : ℕ) : Prop :=
  info.length ≤ 5 ∨ ∀ e ∈ info[3]?, e.distance ≤ chunk

theorem strideTable_of_reached {level : ℕ} {e : ArraySection} (hn : info[level]? = some e)
    (hpos : 0 < e.distance) (hle : e.distance ≤ chunk) :
    strideTable chunk level info = some (strideLoops chunk level info) := by
  rw [strideTable, if_neg]
  rintro ⟨-, h⟩
  rw [hn, Option.any_some, decide_eq_true_eq] at h
  exact (Nat.div_pos hle hpos).ne' h

theorem strideTable_of_lt (hw : WellFormed elmtSize info) {level : ℕ} {e : ArraySection}
    (hn : info[level]? = some e) (hlt : chunk < e.distance) :
    strideTable chunk level info = none := by
  rw [strideTable, if_pos]
  constructor
  · rw [List.all_eq_true]
    intro f hf
    exact decide_eq_true (length_pos_of_mem hw f (List.mem_of_mem_take hf))
  · rw [hn, Option.any_some, decide_eq_true_eq]
    exact Nat.div_eq_of_lt hlt

theorem distance_pos_of_mem (he : 0 < elmtSize) (hw : WellFormed elmtSize info) :
    ∀ e ∈ info, 0 < e.distance := by
  induction info with
  | nil => simp
  | cons d ds ih => exact List.forall_mem_cons.mpr ⟨distance_pos he hw, ih hw.2.2.2.2⟩

theorem last_reached (hw : WellFormed elmtSize info) (hlo : elmtSize ≤ chunk) :
    ∀ e ∈ info.getLast?, e.distance ≤ chunk :=
  fun e h => (distance_last hw e h).trans_le hlo

section SetStride

variable (he : 0 < elmtSize) (hw : WellFormed elmtSize info) (hlo : elmtSize ≤ chunk)
include he hw hlo

theorem strideTable_strideLevel {n : ℕ} {e : ArraySection} (hn : info[n]? = some e)
    (hle : e.distance ≤ chunk) :
    strideTable chunk (strideLevel info chunk) info = some (strides info chunk) := by
  obtain ⟨-, -, f, hf, hfle⟩ :=
    strideLevel_eq_iff (pairwise_distance he hw) (last_reached hw hlo) hn hle
  exact strideTable_of_reached hf (distance_pos_of_mem he hw f (List.mem_of_getElem? hf)) hfle

theorem setStride_of_ends (hne : info ≠ []) (h7 : info.length ≤ 7) (h : StrideEnds info chunk) :
    setStride info chunk = some (strides info chunk) := by
  rw [setStride]
  dsimp only
  by_cases h5 : info.length ≤ 5
  · rw [if_pos h5]
    have hl := List.getLast?_eq_some_getLast hne
    have hle := last_reached hw hlo _ hl
    rw [List.getLast?_eq_getElem?] at hl
    exact strideTable_strideLevel he hw hlo hl hle
  · have h3 : info[3]? = some info[3] := List.getElem?_eq_getElem (by omega)
    have hle := h.resolve_left h5 _ h3
    obtain ⟨hlevel, htake, -⟩ :=
      strideLevel_eq_iff (pairwise_distance he hw) (last_reached hw hlo) h3 hle
    rw [if_neg h5, if_pos h7, if_neg (by omega), htake, strideTable_strideLevel he hw hlo h3 hle]
    rfl

end SetStride

/-- When the chunk does not reach the fourth of six or seven dimensions, the second chain takes
the fourth one as well, in steps of zero. -/
theorem setStride_of_not_ends (he : 0 < elmtSize) (hw : WellFormed elmtSize info)
    (h7 : info.length ≤ 7) (h : ¬ StrideEnds info chunk) :
    setStride info chunk = none := by
  rw [StrideEnds, not_or] at h
  have h3 : info[3]? = some info[3] := List.getElem?_eq_getElem (by omega)
  rw [h3] at h
  have hlt : chunk < info[3].distance := by simpa using h.2
  rw [setStride]
  dsimp only
  rw [if_neg h.1, if_pos h7, strideLevel_take_of_lt (pairwise_distance he hw) h3 hlt,
    strideTable_of_lt hw h3 hlt]
  split_ifs
  · cases strideTable chunk (strideLevel info chunk) info with
    | none => rfl
    | some first => rfl
  · rfl

/-- Where a chunk no longer than the run ends the descent through the dimensions. -/
theorem stop_or_descend (he : 0 < elmtSize) (hw : WellFormed elmtSize (d :: ds))
    (hlo : elmtSize ≤ chunk) (hhi : chunk ≤ run (d :: ds)) :
    (ds.all ArraySection.isAll = true ∧ (ds = [] ∨ d.distance ≤ chunk) ∧ d.distance ≤ chunk ∧
        chunk ≤ d.rowRun) ∨
      (ds ≠ [] ∧ chunk < d.distance ∧ chunk ≤ run ds) := by
  rw [run_cons] at hhi
  by_cases hle : d.distance ≤ chunk
  · by_cases hds : ds.all ArraySection.isAll = true
    · rw [if_pos hds] at hhi
      exact Or.inl ⟨hds, Or.inr hle, hle, hhi⟩
    · rw [if_neg hds] at hhi
      have hlt := run_lt_extent he hw.2.2.2.2 hds
      rw [← hw.2.2.2.1] at hlt
      omega
  · right
    have hne : ds ≠ [] := by
      rintro rfl
      have : d.distance = elmtSize := by simpa [extent] using hw.2.2.2.1
      omega
    refine ⟨hne, by omega, ?_⟩
    by_cases hds : ds.all ArraySection.isAll = true
    · rw [run_of_all hw.2.2.2.2 hne hds, ← hw.2.2.2.1]
      omega
    · rwa [if_neg hds] at hhi

theorem exists_chunkSteps {length chunkLen : ℕ} (hc : 0 < chunkLen) :
    ∃ m, chunkSteps length chunkLen = (List.range m).map (· * chunkLen) ∧
      ∀ k, k < m ↔ k * chunkLen < length := by
  have hne : (chunkLen : ℤ) ≠ 0 := by omega
  refine ⟨loopCount 0 length chunkLen, ?_, ?_⟩
  · rw [chunkSteps, loopValues_eq_map hne, List.map_map]
    apply List.map_congr_left
    intro k _
    simp only [Function.comp_apply, zero_add]
    exact_mod_cast Int.toNat_natCast (k * chunkLen)
  · intro k
    rw [lt_loopCount_iff hne, reach, if_pos (by omega), Int.natAbs_natCast, sub_zero]
    exact_mod_cast Iff.rfl

/-- Rounding the number of chunks up covers everything, and exactly when nothing is left over. -/
theorem chunkSteps_count {length chunkLen distance : ℕ} (hc : 0 < chunkLen) (hl : 0 < length)
    (hle : chunkLen * distance ≤ chunk) (hd : 0 < distance) :
    length * distance ≤ (chunkSteps length chunkLen).length * chunk ∧
      ((chunkSteps length chunkLen).length * chunk = length * distance ↔
        chunk = chunkLen * distance ∧ chunkLen ∣ length) := by
  obtain ⟨m, hm, hlt⟩ := @exists_chunkSteps length chunkLen hc
  rw [hm, List.length_map, List.length_range]
  have hmpos : 0 < m := (hlt 0).mpr (by simpa using hl)
  have hcover : length ≤ m * chunkLen := by
    by_contra h
    exact absurd ((hlt m).mpr (by omega)) (lt_irrefl m)
  have h1 : length * distance ≤ m * chunkLen * distance := Nat.mul_le_mul_right _ hcover
  have h2 : m * (chunkLen * distance) ≤ m * chunk := Nat.mul_le_mul_left _ hle
  rw [← mul_assoc] at h2
  refine ⟨h1.trans h2, ?_, ?_⟩
  · intro heq
    have hm' : m * (chunkLen * distance) = m * chunk := by
      rw [← mul_assoc]
      omega
    refine ⟨(Nat.eq_of_mul_eq_mul_left hmpos hm').symm, ?_⟩
    have hlen : length * distance = m * chunkLen * distance := by omega
    exact Dvd.intro_left _ (Nat.eq_of_mul_eq_mul_right hd hlen).symm
  · rintro ⟨rfl, q, rfl⟩
    have hqm : m = q := by
      apply eq_of_forall_lt_iff
      intro k
      rw [hlt, Nat.mul_comm chunkLen q]
      exact Nat.mul_lt_mul_right hc
    rw [hqm]
    ring

theorem sectionElmts_of_all (ha : info.all ArraySection.isAll = true) :
    sectionElmts info * elmtSize = extent elmtSize info := by
  induction info with
  | nil => rfl
  | cons d ds ih =>
    rw [List.all_cons, Bool.and_eq_true] at ha
    rw [sectionElmts_cons, extent_cons, mul_assoc, ih ha.2, (isAll_iff.mp ha.1).2]

theorem length_strides_descend (hne : ds ≠ []) (h : chunk < d.distance) :
    (strides (d :: ds) chunk).length = d.length * (strides ds chunk).length := by
  rw [strides_descend hne h, List.length_flatMap]
  simp

theorem tiles_cons_of_lt (hpos : 0 < chunk) (h : chunk < d.distance) :
    Tiles (d :: ds) chunk ↔ Tiles ds chunk := by
  constructor
  · rintro ⟨e, he, hdvd, hrow⟩
    cases he with
    | head => exact absurd (Nat.le_of_dvd hpos hdvd) (by omega)
    | tail _ he => exact ⟨e, he, hdvd, hrow⟩
  · rintro ⟨e, he, hdvd, hrow⟩
    exact ⟨e, List.mem_cons_of_mem _ he, hdvd, hrow⟩

/-- With complete rows only the outermost dimension has to be cut evenly. -/
theorem tiles_cons_of_le (he : 0 < elmtSize) (hw : WellFormed elmtSize (d :: ds))
    (hle : d.distance ≤ chunk) :
    Tiles (d :: ds) chunk ↔
      chunk = chunk / d.distance * d.distance ∧ chunk / d.distance ∣ d.length := by
  have hpos := distance_pos he hw
  constructor
  · rintro ⟨e, hmem, hdvd, hrow⟩
    cases hmem with
    | head =>
      refine ⟨(Nat.div_mul_cancel hdvd).symm, ?_⟩
      rw [← Nat.div_mul_cancel hdvd] at hrow
      exact Nat.dvd_of_mul_dvd_mul_right hpos hrow
    | tail _ hmem =>
      -- an inner row is at most one outer row long, so the chunk is exactly that
      have hin := (row_le_extent he hw.2.2.2.2 hmem).2
      have hepos := row_pos he hw.2.2.2.2 hmem
      have := Nat.le_of_dvd hepos hrow
      rw [← hw.2.2.2.1] at hin
      obtain rfl : chunk = d.distance := by omega
      rw [Nat.div_self hpos]
      simp
  · rintro ⟨h1, h2⟩
    refine ⟨d, List.mem_cons_self, Dvd.intro_left _ h1.symm, ?_⟩
    rw [h1]
    exact Nat.mul_dvd_mul_right h2 _

/-- The stride table has an entry for every chunk; it is longer than the number of chunks
exactly when the chunk does not tile the section. -/
theorem length_strides (he : 0 < elmtSize) (hw : WellFormed elmtSize info) (hne : info ≠ [])
    (hlo : elmtSize ≤ chunk) (hhi : chunk ≤ run info) :
    sectionElmts info * elmtSize ≤ (strides info chunk).length * chunk ∧
      ((strides info chunk).length * chunk = sectionElmts info * elmtSize ↔ Tiles info chunk) := by
  induction info with
  | nil => exact absurd rfl hne
  | cons d ds ih =>
    have hpos := distance_pos he hw
    rw [sectionElmts_cons, mul_assoc]
    obtain ⟨hds, hstop, hle, -⟩ | ⟨hne', hlt, hhi'⟩ := stop_or_descend he hw hlo hhi
    · rw [sectionElmts_of_all hds, ← hw.2.2.2.1, strides_stop he hw hstop, List.length_map,
        tiles_cons_of_le he hw hle]
      exact chunkSteps_count (Nat.div_pos hle hpos) hw.1 (Nat.div_mul_le_self _ _) hpos
    · obtain ⟨h1, h2⟩ := ih hw.2.2.2.2 hne' hhi'
      rw [length_strides_descend hne' hlt, mul_assoc, tiles_cons_of_lt (by omega) hlt, ← h2]
      refine ⟨Nat.mul_le_mul_left _ h1, ?_⟩
      rw [Nat.mul_right_inj hw.1.ne']

/-! ## The bytes of the section -/

theorem span_offsets_cons : span elmtSize (offsets (d :: ds)) =
    (List.range d.length).flatMap fun i =>
      (span elmtSize (offsets ds)).map (d.strideOffset * i + ·) := by
  rw [offsets, span_flatMap]
  simp only [span_map_add]

theorem span_offsets_of_rows (h : span elmtSize (offsets ds) = List.range' 0 d.distance) :
    span elmtSize (offsets (d :: ds)) =
      span d.distance ((List.range d.length).map (d.strideOffset * ·)) := by
  rw [span_offsets_cons, h, span, List.flatMap_map]
  simp [List.map_add_range']

theorem span_offsets_of_all (hw : WellFormed elmtSize info)
    (ha : info.all ArraySection.isAll = true) :
    span elmtSize (offsets info) = List.range' 0 (extent elmtSize info) := by
  induction info with
  | nil => simp [offsets, extent]
  | cons d ds ih =>
    rw [List.all_cons, Bool.and_eq_true] at ha
    have hrows := ih hw.2.2.2.2 ha.2
    rw [← hw.2.2.2.1] at hrows
    rw [span_offsets_of_rows hrows, extent_cons, ← hw.2.2.2.1, ← (isAll_iff.mp ha.1).2]
    rcases stride_of_isAll hw ha.1 with hs | hl
    · rw [ArraySection.strideOffset, hs, one_mul, ← span_multiples]
      simp only [Nat.mul_comm]
    · simp [hl]

theorem span_strides (he : 0 < elmtSize) (hw : WellFormed elmtSize info) (hne : info ≠ [])
    (hlo : elmtSize ≤ chunk) (hhi : chunk ≤ run info) (ht : Tiles info chunk) :
    span chunk (strides info chunk) = span elmtSize (offsets info) := by
  induction info with
  | nil => exact absurd rfl hne
  | cons d ds ih =>
    obtain ⟨hds, hstop, hle, hrun⟩ | ⟨hne', hlt, hhi'⟩ := stop_or_descend he hw hlo hhi
    · have hpos := distance_pos he hw
      have hrows := span_offsets_of_all hw.2.2.2.2 hds
      rw [← hw.2.2.2.1] at hrows
      rw [tiles_cons_of_le he hw hle] at ht
      have hk : 0 < chunk / d.distance := Nat.div_pos hle hpos
      obtain ⟨m, hm, hcount⟩ := @exists_chunkSteps d.length (chunk / d.distance) hk
      rw [span_offsets_of_rows hrows, strides_stop he hw hstop, hm, List.map_map]
      obtain ⟨hchunk, q, hq⟩ := ht
      generalize hkdef : chunk / d.distance = k at *
      obtain rfl : m = q := by
        apply eq_of_forall_lt_iff
        intro j
        rw [hcount, hq, Nat.mul_comm k q]
        exact Nat.mul_lt_mul_right hk
      rw [ArraySection.rowRun] at hrun
      split_ifs at hrun with hs
      · -- unit stride: both sides are one block
        have h1 : (List.range m).map ((d.strideOffset * ·) ∘ (· * k)) =
            (List.range m).map (· * chunk) := by
          apply List.map_congr_left
          intro j _
          simp only [Function.comp_apply, ArraySection.strideOffset, hs, one_mul, hchunk]
          ring
        have h2 : (List.range d.length).map (d.strideOffset * ·) =
            (List.range d.length).map (· * d.distance) := by
          apply List.map_congr_left
          intro j _
          simp only [ArraySection.strideOffset, hs, one_mul, Nat.mul_comm]
        rw [h1, h2, span_multiples, span_multiples, hq, hchunk]
        congr 1
        ring
      · have hk1 : k = 1 := by
          have : k * d.distance ≤ 1 * d.distance := by omega
          have := Nat.le_of_mul_le_mul_right this hpos
          omega
        subst hk1
        rw [hchunk, hq]
        simp [Function.comp_def]
    · have hrest := ih hw.2.2.2.2 hne' hhi' ((tiles_cons_of_lt (by omega) hlt).mp ht)
      rw [strides_descend hne' hlt, span_flatMap, span_offsets_cons]
      simp only [span_map_add, hrest]

theorem mem_span_offsets_lt (hw : WellFormed elmtSize info) :
    ∀ a ∈ span elmtSize (offsets info), a < extent elmtSize info := by
  induction info with
  | nil => simp [offsets, extent, List.mem_range'_1]
  | cons d ds ih =>
    intro a ha
    rw [span_offsets_cons, List.mem_flatMap] at ha
    obtain ⟨i, hi, ha⟩ := ha
    rw [List.mem_map] at ha
    obtain ⟨b, hb, rfl⟩ := ha
    rw [List.mem_range] at hi
    have hlt := ih hw.2.2.2.2 b hb
    rw [extent_cons]
    rw [← hw.2.2.2.1] at hlt ⊢
    have hidx : i * d.stride + 1 ≤ d.elmts := by
      have h1 : i * d.stride ≤ (d.length - 1) * d.stride := Nat.mul_le_mul_right _ (by omega)
      have := hw.2.2.1
      omega
    have hmul := Nat.mul_le_mul_right d.distance hidx
    have hoff : d.strideOffset * i = i * d.stride * d.distance := by
      rw [ArraySection.strideOffset]
      ring
    rw [add_one_mul] at hmul
    omega

theorem pairwise_span_offsets (hw : WellFormed elmtSize info) :
    (span elmtSize (offsets info)).Pairwise (· < ·) := by
  induction info with
  | nil => simp [offsets, List.pairwise_lt_range']
  | cons d ds ih =>
    rw [span_offsets_cons, List.pairwise_flatMap]
    constructor
    · intro i _
      rw [List.pairwise_map]
      exact (ih hw.2.2.2.2).imp fun h => Nat.add_lt_add_left h _
    · apply List.pairwise_lt_range.imp
      intro i j hij a ha b hb
      rw [List.mem_map] at ha hb
      obtain ⟨a, ha, rfl⟩ := ha
      obtain ⟨b, hb, rfl⟩ := hb
      have hlt := mem_span_offsets_lt hw.2.2.2.2 a ha
      rw [← hw.2.2.2.1] at hlt
      have hstep : d.strideOffset * i + d.distance ≤ d.strideOffset * j := by
        have h1 : d.distance ≤ d.strideOffset := Nat.le_mul_of_pos_left _ hw.2.1
        have h2 : d.strideOffset * (i + 1) ≤ d.strideOffset * j := Nat.mul_le_mul_left _ hij
        rw [mul_add_one] at h2
        omega
      omega

theorem length_offsets : (offsets info).length = sectionElmts info := by
  induction info with
  | nil => rfl
  | cons d ds ih =>
    rw [offsets, sectionElmts_cons, List.length_flatMap]
    simp [ih]

end OmniCompiler.Xmp.Coarray
