import OmniCompiler.Xmp.CoarrayLocal

/-!
# Contiguous sections (`xmp_coarray.c`)

`_check_contiguous` decides whether a put or get may move a section as one
block. It compares the lengths and strides around the innermost complete
dimensions; the elements form one block exactly when the outermost dimension of
more than one element has unit stride and everything inside it is complete.
-/
namespace OmniCompiler.Xmp.Coarray

open Memory

variable {elmtSize : ℕ} {d : ArraySection} {ds info : List ArraySection}

/-- The bytes of the elements, in row-major order, are consecutive. -/
def Contiguous (elmtSize : ℕ) (info : List ArraySection) : Prop :=
  ∃ a n, span elmtSize (elementOffsets info) = List.range' a n

def Dense (elmtSize : ℕ) (info : List ArraySection) : Prop :=
  ∀ k < sectionElmts info, (offsets info)[k]? = some (k * elmtSize)

theorem OneRun.contiguous (he : 0 < elmtSize) (hw : WellFormed elmtSize info) (hne : info ≠ [])
    (h : OneRun info) : Contiguous elmtSize info := by
  refine ⟨getOffset info, sectionElmts info * elmtSize, ?_⟩
  rw [elementOffsets_eq, span_map_add, h.span_offsets he hw hne, List.map_add_range', add_zero]

theorem Contiguous.dense (he : 0 < elmtSize) (hw : WellFormed elmtSize info)
    (h : Contiguous elmtSize info) : Dense elmtSize info := by
  obtain ⟨a, n, h⟩ := h
  rw [elementOffsets_eq, span_map_add] at h
  have hn : n = sectionElmts info * elmtSize := by
    have hlen := congrArg List.length h
    rw [List.length_map, length_span, length_offsets, List.length_range'] at hlen
    exact hlen.symm
  -- the first byte of element `k`
  have hbyte : ∀ k < sectionElmts info, ∃ o, (offsets info)[k]? = some o ∧
      getOffset info + o = a + k * elmtSize := by
    intro k hk
    have hlt : k * elmtSize + 0 < n := by
      have := Nat.mul_lt_mul_of_pos_right hk he
      omega
    have hget := congrArg (·[k * elmtSize + 0]?) h
    simp only [List.getElem?_map, getElem?_span he, List.getElem?_range' hlt] at hget
    obtain ⟨o, ho⟩ : ∃ o, (offsets info)[k]? = some o := by
      rw [← length_offsets] at hk
      exact ⟨_, List.getElem?_eq_getElem hk⟩
    refine ⟨o, ho, ?_⟩
    rw [ho] at hget
    simpa using hget
  have hstart : getOffset info = a := by
    obtain ⟨o, ho, heq⟩ := hbyte 0 (sectionElmts_pos hw)
    rw [← List.head?_eq_getElem?, head_offsets hw, Option.some.injEq] at ho
    omega
  intro k hk
  obtain ⟨o, ho, heq⟩ := hbyte k hk
  rw [ho, Option.some.injEq]
  omega

/-- The first row of the section is the section of the inner dimensions. -/
theorem offsets_cons_start (hl : 0 < d.length) :
    ∃ rest, offsets (d :: ds) = offsets ds ++ rest := by
  obtain ⟨m, hm⟩ := Nat.exists_eq_succ_of_ne_zero hl.ne'
  rw [offsets, hm, List.range_succ_eq_map, List.flatMap_cons]
  simp

theorem Dense.tail (hl : 0 < d.length) (h : Dense elmtSize (d :: ds)) : Dense elmtSize ds := by
  intro k hk
  obtain ⟨rest, hrest⟩ := @offsets_cons_start d ds hl
  have hle : sectionElmts ds ≤ sectionElmts (d :: ds) := by
    rw [sectionElmts_cons]
    exact Nat.le_mul_of_pos_left _ hl
  have hget := h k (hk.trans_le hle)
  rwa [hrest, List.getElem?_append_left (by rwa [length_offsets])] at hget

theorem Dense.strideOffset_eq (hw : WellFormed elmtSize (d :: ds)) (hl : 2 ≤ d.length)
    (h : Dense elmtSize (d :: ds)) : d.strideOffset = sectionElmts ds * elmtSize := by
  obtain ⟨m, hm⟩ := Nat.exists_eq_add_of_le' hl
  have hpos := sectionElmts_pos hw.2.2.2.2
  have hlt : sectionElmts ds < sectionElmts (d :: ds) := by
    rw [sectionElmts_cons]
    exact lt_mul_left hpos (by omega)
  have hget := h (sectionElmts ds) hlt
  obtain ⟨t, ht⟩ := List.head?_eq_some_iff.mp (head_offsets hw.2.2.2.2)
  rw [offsets, hm, List.range_succ_eq_map, List.flatMap_cons, List.range_succ_eq_map,
    List.map_cons, List.flatMap_cons, List.getElem?_append_right (by simp [length_offsets]),
    List.length_map, length_offsets, Nat.sub_self, ht] at hget
  simpa using hget

theorem sectionElmts_le_extent (hw : WellFormed elmtSize info) :
    sectionElmts info * elmtSize ≤ extent elmtSize info := by
  induction info with
  | nil => exact le_rfl
  | cons d ds ih =>
    rw [sectionElmts_cons, extent_cons, mul_assoc]
    exact Nat.mul_le_mul (length_le_elmts hw) (ih hw.2.2.2.2)

theorem all_of_extent_le (he : 0 < elmtSize) (hw : WellFormed elmtSize info)
    (h : extent elmtSize info ≤ sectionElmts info * elmtSize) :
    info.all ArraySection.isAll = true := by
  induction info with
  | nil => rfl
  | cons d ds ih =>
    have hpos := extent_pos he hw.2.2.2.2
    have hle := length_le_elmts hw
    rw [sectionElmts_cons, extent_cons, mul_assoc] at h
    have hlen : d.elmts ≤ d.length := by
      apply Nat.le_of_mul_le_mul_right _ hpos
      exact h.trans (Nat.mul_le_mul_left _ (sectionElmts_le_extent hw.2.2.2.2))
    have heq : d.length = d.elmts := le_antisymm hle hlen
    rw [heq] at h
    rw [List.all_cons, isAll_of_length hw heq, Bool.true_and]
    exact ih hw.2.2.2.2 (Nat.le_of_mul_le_mul_left h (by have := hw.1; omega))

theorem Dense.oneRun (he : 0 < elmtSize) (hw : WellFormed elmtSize info) (hne : info ≠ [])
    (h : Dense elmtSize info) : OneRun info := by
  induction info with
  | nil => exact absurd rfl hne
  | cons d ds ih =>
    rcases Nat.lt_or_ge d.length 2 with hl | hl
    · have hone : d.length = 1 := by
        have := hw.1
        omega
      by_cases hds : ds = []
      · exact OneRun.rows (by rw [hds]; rfl) (Or.inr hone)
      · exact OneRun.single hone (ih hw.2.2.2.2 hds (h.tail hw.1))
    · -- a row takes at least the place of the inner array, and no more than its elements
      have hstep := h.strideOffset_eq hw hl
      have hle := sectionElmts_le_extent hw.2.2.2.2
      rw [ArraySection.strideOffset] at hstep
      have hall : ds.all ArraySection.isAll = true := by
        apply all_of_extent_le he hw.2.2.2.2
        rw [← hstep, ← hw.2.2.2.1]
        exact Nat.le_mul_of_pos_left _ hw.2.1
      rw [sectionElmts_of_all hall, ← hw.2.2.2.1] at hstep
      exact OneRun.rows hall (Or.inl (Nat.eq_of_mul_eq_mul_right (distance_pos he hw)
        (by rw [hstep, one_mul])))

theorem contiguous_iff_oneRun (he : 0 < elmtSize) (hw : WellFormed elmtSize info)
    (hne : info ≠ []) : Contiguous elmtSize info ↔ OneRun info :=
  ⟨fun h => (h.dense he hw).oneRun he hw hne, fun h => h.contiguous he hw hne⟩

/-! ## The comparisons find every such section -/

/-- `stride` is set to one where only one element is taken. -/
def Normalised (info : List ArraySection) : Prop := ∀ d ∈ info, d.length = 1 → d.stride = 1

theorem strides_of_all (hw : WellFormed elmtSize info)
    (ha : info.all ArraySection.isAll = true) : ∀ d ∈ info, d.stride = 1 ∨ d.length = 1 := by
  induction info with
  | nil => simp
  | cons d ds ih =>
    rw [List.all_cons, Bool.and_eq_true] at ha
    exact List.forall_mem_cons.mpr ⟨stride_of_isAll hw ha.1, ih hw.2.2.2.2 ha.2⟩

theorem OneRun.strides (hw : WellFormed elmtSize info) (h : OneRun info) :
    ∀ d ∈ info, d.stride = 1 ∨ d.length = 1 := by
  induction h with
  | rows hds hd => exact List.forall_mem_cons.mpr ⟨hd, strides_of_all hw.2.2.2.2 hds⟩
  | single hd _ ih => exact List.forall_mem_cons.mpr ⟨Or.inr hd, ih hw.2.2.2.2⟩

/-- Around the complete dimensions: lengths of one, and a unit stride next to them. -/
theorem OneRun.dims (hnorm : Normalised info) (h : OneRun info) :
    getDimOfAllelmts info = 0 ∨
      ((info.take (getDimOfAllelmts info - 1)).all (·.length = 1) &&
        info[getDimOfAllelmts info - 1]?.any (·.stride = 1)) = true := by
  induction h with
  | @rows d ds hds hd =>
    have hstride : d.stride = 1 := hd.elim id (hnorm d List.mem_cons_self)
    rw [getDimOfAllelmts_cons, if_pos hds]
    split_ifs
    · exact Or.inl rfl
    · right
      simp [hstride]
  | @single d ds hd _ ih =>
    have hstride := hnorm d List.mem_cons_self hd
    have hrest := ih fun e he => hnorm e (List.mem_cons_of_mem _ he)
    rw [getDimOfAllelmts_cons]
    split_ifs with hds
    · exact Or.inl rfl
    · right
      simp [hstride]
    · right
      obtain h0 | hrest := hrest
      · exact absurd (getDimOfAllelmts_eq_zero_iff.mp h0) hds
      · have hpos : getDimOfAllelmts ds ≠ 0 := fun h0 => hds (getDimOfAllelmts_eq_zero_iff.mp h0)
        obtain ⟨k, hk⟩ := Nat.exists_eq_succ_of_ne_zero hpos
        rw [hk] at hrest ⊢
        simpa [hd] using hrest

/-- `_check_contiguous` answers, and its answer is whether the section is one block. -/
theorem checkContiguous_contiguous_iff (he : 0 < elmtSize) (s : Section elmtSize)
    (hnorm : Normalised s.info) :
    ∃ answer, checkContiguous s.info (sectionElmts s.info) = some answer ∧
      (answer = true ↔ Contiguous elmtSize s.info) := by
  rw [contiguous_iff_oneRun he s.wellFormed s.ne_nil]
  by_cases hrun : OneRun s.info
  · refine ⟨true, ?_, iff_of_true rfl hrun⟩
    have hskip : ¬ (s.info.any fun d => d.stride ≠ 1 ∧ d.length ≠ 1) = true := by
      rw [List.any_eq_true]
      rintro ⟨d, hd, hne⟩
      rw [decide_eq_true_eq] at hne
      exact (hrun.strides s.wellFormed d hd).elim hne.1 hne.2
    have hdim : getDimOfAllelmts s.info ≤ 7 := (getDimOfAllelmts_le s.info).trans s.dims_le
    rw [checkContiguous, if_neg hskip]
    dsimp only
    rw [if_pos hdim]
    split_ifs with h1 h2 h3
    · rfl
    · rfl
    · rfl
    · rw [(hrun.dims hnorm).resolve_left h3]
  · cases hc : checkContiguous s.info (sectionElmts s.info) with
    | some answer =>
      refine ⟨answer, rfl, iff_of_false ?_ hrun⟩
      rintro rfl
      exact hrun (oneRun_of_checkContiguous s.wellFormed s.ne_nil hc)
    | none =>
      -- `_XMP_fatal` needs more than seven dimensions
      have hdim : getDimOfAllelmts s.info ≤ 7 := (getDimOfAllelmts_le s.info).trans s.dims_le
      rw [checkContiguous] at hc
      dsimp only at hc
      rw [if_pos hdim] at hc
      split_ifs at hc

/-- `a[1:2][:]` of `char a[4][3]`. -/
def middleRows : Section 1 where
  info := [⟨1, 2, 1, 4, 3⟩, ⟨0, 3, 1, 3, 1⟩]
  ne_nil := by decide
  dims_le := by decide
  wellFormed := by decide

theorem checkContiguous_middleRows : Normalised middleRows.info ∧
    ∃ answer, checkContiguous middleRows.info (sectionElmts middleRows.info) = some answer ∧
      (answer = true ↔ Contiguous 1 middleRows.info) := by
  have hnorm : Normalised middleRows.info := by
    rw [Normalised]
    decide
  exact ⟨hnorm, checkContiguous_contiguous_iff Nat.one_pos middleRows hnorm⟩

end OmniCompiler.Xmp.Coarray
