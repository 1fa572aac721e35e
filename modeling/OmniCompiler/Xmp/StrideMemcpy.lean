import OmniCompiler.Memory.Packing

/-!
# Strided memory copies (`xmp_coarray_utils.c`)

`_XMP_stride_memcpy_1dim` to `_XMP_stride_memcpy_7dim` move a section of an
array into a buffer, out of it, or spread one element over it. Each is a loop
nest over the dimensions; when the innermost stride is one, packing and
unpacking move whole rows and leave the innermost loop out. The offsets of the
nest in row-major order are `strideOffsets`.
-/
namespace OmniCompiler.Xmp.StrideMemcpy

open Memory

variable {β σ : Type}

/-- The fields of `_XMP_array_section_t` the copies read. -/
structure StrideInfo where
  length : ℕ
  stride : ℤ
  distance : ℕ

/-- `_XMP_PACK`, `_XMP_UNPACK`, `_XMP_SCALAR_MCOPY`. -/
inductive Flag where
  | pack
  | unpack
  | scalarMcopy
  deriving DecidableEq

def StrideInfo.strideOffset (d : StrideInfo) : ℤ := d.stride * d.distance

/-- The loops over `info`; `tmp` is the sum of the offsets of the enclosing loops. -/
def loopNest (body : ℤ → σ → Option σ) : List StrideInfo → ℤ → σ → Option σ
  | [], tmp, s => body tmp s
  | d :: ds, tmp, s =>
    (List.range d.length).foldlM (fun s (i : ℕ) => loopNest body ds (tmp + d.strideOffset * i) s) s

/-- `memcpy(buf1 + buf1_offset, buf2 + tmp, element_size); buf1_offset += element_size;` -/
def packNest (buf1 buf2 : ℤ) (elementSize : ℕ) (info : List StrideInfo) (mem : ℤ → β) :
    Option (ℤ → β) :=
  (loopNest (fun tmp s => packStep elementSize buf1 buf2 s tmp) info 0 (mem, 0)).map Prod.fst

/-- `memcpy(buf1 + tmp, buf2 + buf1_offset, element_size); buf1_offset += element_size;` -/
def unpackNest (buf1 buf2 : ℤ) (elementSize : ℕ) (info : List StrideInfo) (mem : ℤ → β) :
    Option (ℤ → β) :=
  (loopNest (fun tmp s => unpackStep elementSize buf2 buf1 s tmp) info 0 (mem, 0)).map Prod.fst

def scalarNest (buf1 buf2 : ℤ) (elementSize : ℕ) (info : List StrideInfo) (mem : ℤ → β) :
    Option (ℤ → β) :=
  loopNest (fun tmp m => if buf1 + tmp ≠ buf2 then memcpy elementSize m (buf1 + tmp) buf2
    else some m) info 0 mem

/-- The copy with the dimensions `outer` around `inner`. -/
def strideMemcpy (buf1 buf2 : ℤ) (outer : List StrideInfo) (inner : StrideInfo)
    (elementSize : ℕ) (flag : Flag) (mem : ℤ → β) : Option (ℤ → β) :=
  match flag with
  | .pack =>
    if inner.stride = 1 then packNest buf1 buf2 (elementSize * inner.length) outer mem
    else packNest buf1 buf2 elementSize (outer ++ [inner]) mem
  | .unpack =>
    if inner.stride = 1 then unpackNest buf1 buf2 (elementSize * inner.length) outer mem
    else unpackNest buf1 buf2 elementSize (outer ++ [inner]) mem
  | .scalarMcopy => scalarNest buf1 buf2 elementSize (outer ++ [inner]) mem

section Members

variable (buf1 buf2 : ℤ) (a b c d e f g : StrideInfo) (elementSize : ℕ) (flag : Flag)
  (mem : ℤ → β)

def strideMemcpy1dim : Option (ℤ → β) := strideMemcpy buf1 buf2 [] a elementSize flag mem

def strideMemcpy2dim : Option (ℤ → β) := strideMemcpy buf1 buf2 [a] b elementSize flag mem

def strideMemcpy3dim : Option (ℤ → β) := strideMemcpy buf1 buf2 [a, b] c elementSize flag mem

def strideMemcpy4dim : Option (ℤ → β) := strideMemcpy buf1 buf2 [a, b, c] d elementSize flag mem

def strideMemcpy5dim : Option (ℤ → β) :=
  strideMemcpy buf1 buf2 [a, b, c, d] e elementSize flag mem

def strideMemcpy6dim : Option (ℤ → β) :=
  strideMemcpy buf1 buf2 [a, b, c, d, e] f elementSize flag mem

def strideMemcpy7dim : Option (ℤ → β) :=
  strideMemcpy buf1 buf2 [a, b, c, d, e, f] g elementSize flag mem

end Members

/-- `switch (dims)` of the callers; the default is `_XMP_fatal`. -/
def strideMemcpyDims (buf1 buf2 : ℤ) (info : List StrideInfo) (elementSize : ℕ) (flag : Flag)
    (mem : ℤ → β) : Option (ℤ → β) :=
  match info with
  | [a] => strideMemcpy1dim buf1 buf2 a elementSize flag mem
  | [a, b] => strideMemcpy2dim buf1 buf2 a b elementSize flag mem
  | [a, b, c] => strideMemcpy3dim buf1 buf2 a b c elementSize flag mem
  | [a, b, c, d] => strideMemcpy4dim buf1 buf2 a b c d elementSize flag mem
  | [a, b, c, d, e] => strideMemcpy5dim buf1 buf2 a b c d e elementSize flag mem
  | [a, b, c, d, e, f] => strideMemcpy6dim buf1 buf2 a b c d e f elementSize flag mem
  | [a, b, c, d, e, f, g] => strideMemcpy7dim buf1 buf2 a b c d e f g elementSize flag mem
  | _ => none

variable {outer info : List StrideInfo} {inner : StrideInfo}

/-! ## The nest visits the section in row-major order -/

def strideOffsets : List StrideInfo → List ℤ
  | [] => [0]
  | d :: ds =>
    (List.range d.length).flatMap fun i : ℕ => (strideOffsets ds).map (d.strideOffset * i + ·)

/-- Offsets of the section's bytes, element after element. -/
def sectionBytes (elementSize : ℕ) (info : List StrideInfo) : List ℤ :=
  blockCells elementSize (strideOffsets info)

theorem foldlM_flatMap {α γ : Type} (g : α → List γ) (f : σ → γ → Option σ) (l : List α) (s : σ) :
    (l.flatMap g).foldlM f s = l.foldlM (fun s a => (g a).foldlM f s) s := by
  induction l generalizing s with
  | nil => rfl
  | cons a l ih =>
    rw [List.flatMap_cons, List.foldlM_append, List.foldlM_cons]
    congr 1
    funext s'
    exact ih s'

theorem loopNest_eq_foldlM (body : ℤ → σ → Option σ) (tmp : ℤ) (s : σ) :
    loopNest body info tmp s = (strideOffsets info).foldlM (fun s o => body (tmp + o) s) s := by
  induction info generalizing tmp s with
  | nil => simp [loopNest, strideOffsets]
  | cons d ds ih =>
    rw [loopNest, strideOffsets, foldlM_flatMap]
    congr 1
    funext s' i
    rw [ih, List.foldlM_map]
    simp only [add_assoc]

section Nests

variable {buf base : ℤ} {mem : ℤ → β}

theorem packNest_spec (h : Apart buf base (sectionBytes elementSize info)) (mem : ℤ → β) :
    ∃ mem', packNest buf base elementSize info mem = some mem' ∧
      Packed buf base (sectionBytes elementSize info) mem mem' := by
  obtain ⟨mem', hrun, hpacked⟩ := exists_packed h mem
  refine ⟨mem', ?_, hpacked⟩
  rw [packNest, loopNest_eq_foldlM]
  simp only [zero_add]
  rw [hrun]
  rfl

theorem unpackNest_spec (h : Apart buf base (sectionBytes elementSize info)) {f : ℤ → β}
    (hf : ∀ (j : ℕ) c, (sectionBytes elementSize info)[j]? = some c → mem (buf + j) = f c) :
    ∃ mem', unpackNest base buf elementSize info mem = some mem' ∧
      Unpacked buf base (sectionBytes elementSize info) mem mem' := by
  obtain ⟨mem', hrun, hunpacked⟩ := exists_unpacked h hf
  refine ⟨mem', ?_, hunpacked⟩
  rw [unpackNest, loopNest_eq_foldlM]
  simp only [zero_add]
  rw [hrun]
  rfl

end Nests

theorem sectionBytes_rows (hrow : inner.distance = elementSize) (hs : inner.stride = 1) :
    sectionBytes (elementSize * inner.length) outer =
      sectionBytes elementSize (outer ++ [inner]) := by
  induction outer with
  | nil =>
    have hoffsets : strideOffsets [inner] =
        (List.range inner.length).map fun i : ℕ => ((elementSize * i : ℕ) : ℤ) := by
      rw [strideOffsets, StrideInfo.strideOffset, hs, hrow, ← List.flatMap_pure_eq_map]
      simp [strideOffsets, Function.comp_def]
    rw [sectionBytes, sectionBytes, List.nil_append, hoffsets, blockCells_adjacent]
    rfl
  | cons d ds ih =>
    rw [sectionBytes, sectionBytes] at ih
    rw [sectionBytes, sectionBytes, List.cons_append, strideOffsets, strideOffsets,
      blockCells_flatMap, blockCells_flatMap]
    simp only [blockCells_map_add, ih]

theorem strideMemcpyDims_append (buf1 buf2 : ℤ) (hdims : outer.length < 7) (flag : Flag)
    (mem : ℤ → β) : strideMemcpyDims buf1 buf2 (outer ++ [inner]) elementSize flag mem =
      strideMemcpy buf1 buf2 outer inner elementSize flag mem := by
  match outer, hdims with
  | [], _ => rfl
  | [_], _ => rfl
  | [_, _], _ => rfl
  | [_, _, _], _ => rfl
  | [_, _, _, _], _ => rfl
  | [_, _, _, _, _], _ => rfl
  | [_, _, _, _, _, _], _ => rfl

/-- Both branches of packing: the buffer holds the bytes of the section in row-major order. -/
theorem strideMemcpy_pack (hrow : inner.distance = elementSize) {buf base : ℤ}
    (h : Apart buf base (sectionBytes elementSize (outer ++ [inner]))) (mem : ℤ → β) :
    ∃ packed, strideMemcpy buf base outer inner elementSize Flag.pack mem = some packed ∧
      packNest buf base elementSize (outer ++ [inner]) mem = some packed ∧
      Packed buf base (sectionBytes elementSize (outer ++ [inner])) mem packed := by
  obtain ⟨packed, hrun, hpacked⟩ := packNest_spec h mem
  refine ⟨packed, ?_, hrun, hpacked⟩
  rw [strideMemcpy]
  split_ifs with hs
  · rw [← sectionBytes_rows hrow hs] at h hpacked
    obtain ⟨packed', hrun', hpacked'⟩ := packNest_spec h mem
    rw [hrun', hpacked.unique hpacked']
  · exact hrun

theorem strideMemcpy_unpack (hrow : inner.distance = elementSize) {buf base : ℤ}
    (h : Apart buf base (sectionBytes elementSize (outer ++ [inner]))) {mem f : ℤ → β}
    (hf : ∀ (j : ℕ) c, (sectionBytes elementSize (outer ++ [inner]))[j]? = some c →
      mem (buf + j) = f c) :
    ∃ mem', strideMemcpy base buf outer inner elementSize Flag.unpack mem = some mem' ∧
      Unpacked buf base (sectionBytes elementSize (outer ++ [inner])) mem mem' := by
  rw [strideMemcpy]
  split_ifs with hs
  · rw [← sectionBytes_rows hrow hs] at h hf ⊢
    exact unpackNest_spec h hf
  · exact unpackNest_spec h hf

/-- Packing a section and unpacking the buffer, possibly in another memory, at another place and
from a copy of the buffer, brings every byte of the section there and changes no other byte. -/
theorem strideMemcpy_pack_unpack (hdims : outer.length < 7) (hrow : inner.distance = elementSize)
    {buf base : ℤ} (h : Apart buf base (sectionBytes elementSize (outer ++ [inner])))
    (mem : ℤ → β) :
    ∃ packed,
      strideMemcpyDims buf base (outer ++ [inner]) elementSize Flag.pack mem = some packed ∧
      packNest buf base elementSize (outer ++ [inner]) mem = some packed ∧
      Packed buf base (sectionBytes elementSize (outer ++ [inner])) mem packed ∧
      ∀ (buf' base' : ℤ) (mem' : ℤ → β),
        Apart buf' base' (sectionBytes elementSize (outer ++ [inner])) →
        (∀ j < (sectionBytes elementSize (outer ++ [inner])).length,
          mem' (buf' + j) = packed (buf + j)) →
        ∃ restored,
          strideMemcpyDims base' buf' (outer ++ [inner]) elementSize Flag.unpack mem' =
            some restored ∧
          (∀ c ∈ sectionBytes elementSize (outer ++ [inner]),
            restored (base' + c) = mem (base + c)) ∧
          ∀ a, (∀ c ∈ sectionBytes elementSize (outer ++ [inner]), a ≠ base' + c) →
            restored a = mem' a := by
  obtain ⟨packed, hpack, hgeneral, hpacked⟩ := strideMemcpy_pack hrow h mem
  refine ⟨packed, ?_, hgeneral, hpacked, ?_⟩
  · rw [strideMemcpyDims_append buf base hdims, hpack]
  · intro buf' base' mem' h' hcopy
    have hf : ∀ (j : ℕ) c, (sectionBytes elementSize (outer ++ [inner]))[j]? = some c →
        mem' (buf' + j) = mem (base + c) := by
      intro j c hj
      rw [hcopy j (List.getElem?_eq_some_iff.mp hj).1, hpacked.moved j c hj]
    obtain ⟨restored, hunpack, hunpacked⟩ :=
      @strideMemcpy_unpack β _ _ _ hrow buf' base' h' mem' (fun c => mem (base + c)) hf
    refine ⟨restored, ?_, ?_, hunpacked.kept⟩
    · rw [strideMemcpyDims_append base' buf' hdims, hunpack]
    · intro c hc
      obtain ⟨j, hj⟩ := List.mem_iff_getElem?.mp hc
      rw [hunpacked.moved j c hj, hf j c hj]

/-- Two rows of two bytes each, the second two rows below the first: `a[0:2:2][0:2]` of
`char a[4][3]`, packed at address 100. -/
theorem strideMemcpy_pack_unpack_rows :
    Apart 100 0 (sectionBytes 1 [⟨2, 2, 3⟩, ⟨2, 1, 1⟩]) ∧
      ∃ packed, strideMemcpyDims 100 0 [⟨2, 2, 3⟩, ⟨2, 1, 1⟩] 1 Flag.pack (fun a : ℤ => a) =
        some packed ∧ packed 102 = 6 := by
  have h : Apart 100 0 (sectionBytes 1 [⟨2, 2, 3⟩, ⟨2, 1, 1⟩]) := by
    rw [Apart]
    decide
  obtain ⟨packed, hrun, -, hpacked, -⟩ := @strideMemcpy_pack_unpack ℤ [⟨2, 2, 3⟩] ⟨2, 1, 1⟩ 1
    (by decide) rfl 100 0 h fun a => a
  exact ⟨h, packed, hrun, hpacked.moved 2 6 (by decide)⟩

end OmniCompiler.Xmp.StrideMemcpy
