import OmniCompiler.Xmp.CoarrayLocal

/-!
# The table of chunk offsets (`xmp_coarray_local.c`)

`_XMP_set_stride` is called with a table of `copy_elmts` entries and a chunk
size from `_XMP_calc_copy_chunk`. Such a chunk tiles the section, so that the
chunks in row-major order are consecutive elements of it, and the table is
filled with the offsets of every `chunk_size / elmt_size`-th element. With six
or seven dimensions this needs a chunk that reaches the fourth one.
-/
namespace OmniCompiler.Xmp.Coarray

open Memory

variable {elmtSize chunk copyChunkDim : ℕ} {d : ArraySection} {ds info : List ArraySection}

structure ChunkOf (elmtSize chunk : ℕ) (info : List ArraySection) : Prop where
  dvd : elmtSize ∣ chunk
  pos : 0 < chunk
  le_run : chunk ≤ run info
  tiles : Tiles info chunk

/-- What the outer dimensions are does not matter to the chunk of an inner one. -/
theorem ChunkOf.cons (hw : WellFormed elmtSize (d :: ds)) (hne : ds ≠ [])
    (h : ChunkOf elmtSize chunk ds) : ChunkOf elmtSize chunk (d :: ds) := by
  refine ⟨h.dvd, h.pos, ?_, ?_⟩
  · rw [run_cons]
    split_ifs with hds
    · have hext := run_of_all hw.2.2.2.2 hne hds
      rw [← hw.2.2.2.1] at hext
      refine (hext ▸ h.le_run).trans ?_
      rw [ArraySection.rowRun]
      split_ifs
      · exact Nat.le_mul_of_pos_left _ hw.1
      · exact le_rfl
    · exact h.le_run
  · obtain ⟨e, hmem, htile⟩ := h.tiles
    exact ⟨e, List.mem_cons_of_mem _ hmem, htile⟩

theorem chunkOf_run (he : 0 < elmtSize) (hw : WellFormed elmtSize info) (hne : info ≠ []) :
    ChunkOf elmtSize (run info) info :=
  ⟨elmtSize_dvd_run hw, run_pos he hw hne, le_rfl, tiles_run hne⟩

/-- `_XMP_calc_copy_chunk`, at any dimension from `_XMP_get_dim_of_allelmts` on. -/
theorem chunkOf_calcCopyChunk (he : 0 < elmtSize) (hw : WellFormed elmtSize info)
    (hdim : getDimOfAllelmts info ≤ copyChunkDim)
    (hc : calcCopyChunk copyChunkDim info = some chunk) : ChunkOf elmtSize chunk info := by
  induction info generalizing copyChunkDim with
  | nil =>
    rw [calcCopyChunk] at hc
    split_ifs at hc
    · simp at hc
    · simp at hc
  | cons d ds ih =>
    have hrun := calcCopyChunk_run hw (List.cons_ne_nil d ds)
    rcases Nat.eq_or_lt_of_le hdim with rfl | hlt
    · obtain rfl : run (d :: ds) = chunk := by
        rw [hrun] at hc
        exact Option.some.inj hc
      exact chunkOf_run he hw (List.cons_ne_nil d ds)
    · cases copyChunkDim with
      | zero => exact absurd hlt (Nat.not_lt_zero _)
      | succ k =>
        cases k with
        | zero =>
          -- a complete section, measured at its outermost dimension
          have h0 : getDimOfAllelmts (d :: ds) = 0 := by omega
          rw [getDimOfAllelmts_cons] at h0
          split_ifs at h0 with hds hd
          have hrow : d.rowRun = chunk := by
            simpa [calcCopyChunk, ArraySection.rowRun] using hc
          obtain rfl : run (d :: ds) = chunk := by rw [run_cons, if_pos hds, hrow]
          exact chunkOf_run he hw (List.cons_ne_nil d ds)
        | succ k =>
          have hne : ds ≠ [] := by
            rintro rfl
            simp [calcCopyChunk] at hc
          apply ChunkOf.cons hw hne
          have hdim' : getDimOfAllelmts ds ≤ k + 1 := by
            rw [getDimOfAllelmts_cons] at hdim
            split_ifs at hdim with hds
            · rw [getDimOfAllelmts_eq_zero_iff.mpr hds]
              exact Nat.zero_le _
            · rw [getDimOfAllelmts_eq_zero_iff.mpr hds]
              exact Nat.zero_le _
            · omega
          apply @ih (k + 1) hw.2.2.2.2 hdim'
          simpa [calcCopyChunk] using hc

/-- One entry for each of the `copy_elmts` chunks: where its first element is. -/
def ListsChunks (elmtSize chunk : ℕ) (info : List ArraySection) : Option (List ℕ) → Prop
  | none => False
  | some stride => stride.length = sectionElmts info / (chunk / elmtSize) ∧
      ∀ k < stride.length, stride[k]? = (offsets info)[k * (chunk / elmtSize)]?

theorem listsChunks_strides (he : 0 < elmtSize) (s : Section elmtSize)
    (hc : ChunkOf elmtSize chunk s.info) :
    ListsChunks elmtSize chunk s.info (some (strides s.info chunk)) := by
  obtain ⟨hdvd, hpos, hrun, htiles⟩ := hc
  have hlo := Nat.le_of_dvd hpos hdvd
  refine ⟨(length_setStride he s hdvd hpos hrun).2.2 htiles, ?_⟩
  intro k _
  -- the first byte of the chunk, counted in chunks and in elements
  have hspan := span_strides he s.wellFormed s.ne_nil hlo hrun htiles
  have hchunk : k * chunk + 0 = k * (chunk / elmtSize) * elmtSize + 0 := by
    rw [mul_assoc, Nat.div_mul_cancel hdvd]
  have hbyte := congrArg (·[k * chunk + 0]?) hspan
  rw [getElem?_span hpos, hchunk, getElem?_span he] at hbyte
  simpa using hbyte

/-- The table is exactly filled with the chunk offsets unless there are six or seven dimensions
and the chunk does not reach the fourth one. -/
theorem setStride_lists_iff (he : 0 < elmtSize) (s : Section elmtSize)
    (hdim : getDimOfAllelmts s.info ≤ copyChunkDim)
    (hc : calcCopyChunk copyChunkDim s.info = some chunk) :
    ListsChunks elmtSize chunk s.info (setStride s.info chunk) ↔ StrideEnds s.info chunk := by
  have hchunk := chunkOf_calcCopyChunk he s.wellFormed hdim hc
  have hlo := Nat.le_of_dvd hchunk.pos hchunk.dvd
  constructor
  · intro h
    by_contra hn
    rw [setStride_of_not_ends he s.wellFormed s.dims_le hn] at h
    exact h
  · intro h
    rw [setStride_of_ends he s.wellFormed hlo s.ne_nil s.dims_le h]
    exact listsChunks_strides he s hchunk

/-- `char a[10][10]`, section `a[0:2][0:6]`: two chunks of six bytes. -/
theorem setStride_lists_pairOfSixes :
    StrideEnds pairOfSixes.info 6 ∧
      ListsChunks 1 6 pairOfSixes.info (setStride pairOfSixes.info 6) := by
  have h : StrideEnds pairOfSixes.info 6 := Or.inl (by decide)
  exact ⟨h, (@setStride_lists_iff 1 6 2 Nat.one_pos pairOfSixes (by decide)
    (by decide)).mpr h⟩

/-- `char a[2][2][2][2][2][2]`, section `a[:][:][:][:][:][0]`. -/
def evenBytes : Section 1 where
  info := [⟨0, 2, 1, 2, 32⟩, ⟨0, 2, 1, 2, 16⟩, ⟨0, 2, 1, 2, 8⟩, ⟨0, 2, 1, 2, 4⟩, ⟨0, 2, 1, 2, 2⟩,
    ⟨0, 1, 1, 2, 1⟩]
  ne_nil := by decide
  dims_le := by decide
  wellFormed := by decide

/-- Chunks of one byte: the second chain of comparisons steps through the fourth dimension by
`1 / 4 = 0`. -/
theorem setStride_evenBytes :
    calcCopyChunk (getDimOfAllelmts evenBytes.info) evenBytes.info = some 1 ∧
      ¬ ListsChunks 1 1 evenBytes.info (setStride evenBytes.info 1) := by
  have h : setStride evenBytes.info 1 = none := by decide
  refine ⟨by decide, ?_⟩
  rw [h]
  exact id

end OmniCompiler.Xmp.Coarray
