import OmniCompiler.Xmp.Shadow

/-!
# Local indices of array elements (`xmp_gmove.c`)

`_XMP_align_local_idx` computes, for any index of a distributed array, the node that owns it and its
position in the memory of that node. An array need not start where its template does, and each
distribution format corrects the position for the part of the template before the array.
-/
namespace OmniCompiler.Xmp

open MachineInt BlockCyclic OwnedCount SmallFin

variable {k d n : ℕ}

/-- The results `*rank` and `*local_idx`. -/
structure LocalIdx where
  rank : ℤ
  localIdx : ℤ
  deriving DecidableEq, Repr

def localIdxBlock (globalIdx base offset parChunkWidth shadowSizeLo : ℤ) : LocalIdx :=
  let rank := toInt ((toULL (globalIdx + offset - base)).tdiv parChunkWidth)
  let localIdx := toInt (globalIdx + offset - base - rank * parChunkWidth + shadowSizeLo)
  let idiv := toInt ((toULL offset).tdiv parChunkWidth)
  ⟨rank, if rank = idiv then toInt (localIdx - (toULL offset).tmod parChunkWidth) else localIdx⟩

def localIdxCyclic (globalIdx base offset size : ℤ) : LocalIdx :=
  let idiv := offset.tdiv size
  let imod := offset.tmod size
  let rank := toInt ((globalIdx + offset - base).tmod size)
  let localIdx := toInt ((globalIdx + offset - base).tdiv size)
  ⟨rank, if imod > rank then localIdx - (idiv + 1) else localIdx - idiv⟩

def localIdxBlockCyclic (globalIdx base offset size parWidth : ℤ) : LocalIdx :=
  let w := toInt parWidth
  let idiv := (offset.tdiv w).tdiv size
  let imod1 := (offset.tdiv w).tmod size
  let imod2 := offset.tmod w
  let off := toInt (globalIdx + offset - base)
  let localIdx := off.tdiv (size * w) * w + off.tmod w
  let rank := (off.tdiv w).tmod size
  ⟨rank,
    if imod1 > 0 then
      if imod1 = rank then localIdx - idiv * w - imod2
      else if imod1 > rank then localIdx - (idiv + 1) * w
      else localIdx
    else if imod1 = 0 then
      if imod1 = rank then localIdx - idiv * w - imod2
      else localIdx - idiv * w
    else localIdx⟩

/-- The first block that ends after `x`. -/
def firstBlock (mappingArray : ℕ → ℤ) (size : ℕ) (x : ℤ) : Option ℕ :=
  (List.range size).find? fun i => x < mappingArray (i + 1)

/-- When no block is found, `*rank` keeps the value `rank0`. -/
def localIdxGblock (globalIdx base tbase offset : ℤ) (size : ℕ) (mappingArray : ℕ → ℤ)
    (shadowSizeLo : ℤ) (rank0 : ℕ) : LocalIdx :=
  let rank := (firstBlock (fun i => mappingArray i + (base - tbase)) size (globalIdx + offset)).getD
    rank0
  let localIdx := toInt (globalIdx + offset - mappingArray rank - (base - tbase) + shadowSizeLo)
  match firstBlock (fun i => mappingArray i + (base - tbase)) size offset with
  | none => ⟨rank, localIdx⟩
  | some irank =>
    let idiv := toInt (offset - (mappingArray irank + (base - tbase) - base))
    ⟨rank, if rank = irank then localIdx - idiv else localIdx⟩

/-- `_XMP_align_local_idx`; there is no result when an aligned dimension has no template index. -/
def alignLocalIdx (globalIdx : ℤ) (array : XmpArray k d n) (arrayAxis : Fin k) (rank0 : ℕ) :
    Option LocalIdx :=
  let ai := array.info arrayAxis
  let base := ai.serLower
  match ai.alignManner, ai.alignTemplateIndex with
  | .notAligned, _ => some ⟨0, toInt (globalIdx - base)⟩
  | _, none => none
  | manner, some templateIndex =>
    let chunk := array.alignTemplate.chunk templateIndex
    let tbase := (array.alignTemplate.info templateIndex).serLower
    let offset := toInt (ai.alignSubscript + (base - tbase))
    match manner with
    | .duplication => some ⟨0, toInt (globalIdx + offset - base)⟩
    | .block => some (localIdxBlock globalIdx base offset chunk.parChunkWidth ai.shadowSizeLo)
    | .cyclic => some (localIdxCyclic globalIdx base offset chunk.nodesSize)
    | .blockCyclic =>
      some (localIdxBlockCyclic globalIdx base offset chunk.nodesSize chunk.parWidth)
    | .gblock => some (localIdxGblock globalIdx base tbase offset chunk.nodesSize.toNat
        chunk.mappingArray ai.shadowSizeLo rank0)
    | .notAligned => some ⟨0, toInt (globalIdx - base)⟩

/-! ## One dimension -/

section Dimension

-- the element at template position `x` of an array that starts at template position `o`
variable {g base o x : ℤ}

theorem localIdxBlock_eq {w lo N : ℤ} (hw : 0 < w) (ho : 0 ≤ o) (hx : x = g + o - base)
    (hox : o ≤ x)
    (hxN : x < N) (hN : InInt N) (hlo : InInt lo) (hsum : InInt (lo + N)) :
    localIdxBlock g base o w lo = ⟨x / w, lo + (x - max o (x / w * w))⟩ := by
  obtain ⟨hN0, hN1⟩ := hN
  obtain ⟨hlo0, hlo1⟩ := hlo
  obtain ⟨hsum0, hsum1⟩ := hsum
  have hULL : toULL x = x := toULL_of_nonneg (by omega) (by omega)
  have hULLo : toULL o = o := toULL_of_nonneg ho (by omega)
  have hxw := Int.emod_add_mul_ediv x w
  have how := Int.emod_add_mul_ediv o w
  have hxm0 := Int.emod_nonneg x hw.ne'
  have hxm1 := Int.emod_lt_of_pos x hw
  have hom0 := Int.emod_nonneg o hw.ne'
  have hom1 := Int.emod_lt_of_pos o hw
  have hq0 := Int.ediv_nonneg (show 0 ≤ x by omega) hw.le
  have hqx : x / w ≤ x := Int.ediv_le_self w (by omega)
  have hp0 := Int.ediv_nonneg ho hw.le
  have hpo : o / w ≤ o := Int.ediv_le_self w ho
  have hpq : o / w ≤ x / w := Int.ediv_le_ediv hw hox
  have hcomm : x / w * w = w * (x / w) := mul_comm _ _
  have hqw : 0 ≤ w * (x / w) := mul_nonneg hw.le hq0
  simp only [localIdxBlock, ← hx, hULL, hULLo]
  rw [Int.tdiv_eq_ediv_of_nonneg (by omega), Int.tdiv_eq_ediv_of_nonneg ho,
    Int.tmod_eq_emod_of_nonneg ho, toInt_of_inInt ⟨by omega, by omega⟩,
    toInt_of_inInt (show InInt (o / w) from ⟨by omega, by omega⟩),
    toInt_of_inInt (show InInt (x - x / w * w + lo) from ⟨by omega, by omega⟩)]
  split_ifs with heq
  · have hmax : max o (x / w * w) = o := by
      rw [hcomm, heq]
      omega
    have hval : x - x / w * w + lo - o % w = lo + (x - o) := by
      rw [heq] at hcomm ⊢
      omega
    rw [hmax, hval, toInt_of_inInt ⟨by omega, by omega⟩]
  · have hnext : w * (o / w) + w ≤ w * (x / w) := by
      have := mul_le_mul_of_nonneg_left (show o / w + 1 ≤ x / w by omega) hw.le
      linarith
    have hmax : max o (x / w * w) = x / w * w := by omega
    rw [hmax, add_comm]

theorem localIdxCyclic_eq {P N : ℤ} (hP : 0 < P) (hPint : InInt P) (ho : 0 ≤ o)
    (hx : x = g + o - base) (hox : o ≤ x) (hxN : x < N) (hN : InInt N) :
    localIdxCyclic g base o P =
      ⟨owner 1 P x, localIndex 1 P x - before 1 P (owner 1 P x) o⟩ := by
  obtain ⟨hN0, hN1⟩ := hN
  obtain ⟨-, hP1⟩ := hPint
  have hx0 : 0 ≤ x := by omega
  have hm0 := Int.emod_nonneg x hP.ne'
  have hm1 := Int.emod_lt_of_pos x hP
  have hq0 := Int.ediv_nonneg hx0 hP.le
  have hqx : x / P ≤ x := Int.ediv_le_self P hx0
  simp only [localIdxCyclic, ← hx, owner, localIndex, before, Int.ediv_one, mul_one, Int.emod_one,
    add_zero]
  rw [Int.tdiv_eq_ediv_of_nonneg ho, Int.tmod_eq_emod_of_nonneg ho, Int.tdiv_eq_ediv_of_nonneg hx0,
    Int.tmod_eq_emod_of_nonneg hx0, toInt_of_inInt ⟨by omega, by omega⟩,
    toInt_of_inInt (show InInt (x / P) from ⟨by omega, by omega⟩)]
  split_ifs <;> simp only [LocalIdx.mk.injEq, true_and] <;> omega

theorem blockCyclic_correction {i r localIdx idiv w imod2 : ℤ} (hi : 0 ≤ i) (hr : 0 ≤ r) :
    (if i > 0 then
      if i = r then localIdx - idiv * w - imod2
      else if i > r then localIdx - (idiv * w + w)
      else localIdx
    else if i = 0 then
      if i = r then localIdx - idiv * w - imod2
      else localIdx - idiv * w
    else localIdx) =
      localIdx - (idiv * w + if r < i then w else if r = i then imod2 else 0) +
        if 0 < i ∧ i < r then idiv * w else 0 := by
  rcases hi.lt_or_eq with hpos | rfl
  · rcases lt_trichotomy i r with hlt | rfl | hgt
    · rw [if_pos hpos, if_neg hlt.ne, if_neg (by omega), if_neg (by omega), if_neg hlt.ne',
        if_pos ⟨hpos, hlt⟩]
      ring
    · rw [if_pos hpos, if_pos rfl, if_neg (by omega), if_pos rfl, if_neg (by omega)]
      ring
    · rw [if_pos hpos, if_neg hgt.ne', if_pos hgt, if_pos hgt, if_neg (by omega)]
      ring
  · rcases hr.lt_or_eq with hpos | rfl
    · simp [hpos.ne, hpos.ne', hpos.not_gt]
    · simp
      ring

/-- The position is too large by the blocks of the whole rounds before the array, on the nodes after
the one where the array starts, unless that is the first node. -/
theorem localIdxBlockCyclic_eq {w P N : ℤ} (hw : 0 < w) (hP : 0 < P) (hPw : InInt (P * w))
    (ho : 0 ≤ o) (hx : x = g + o - base) (hox : o ≤ x) (hxN : x < N) (hN : InInt N) :
    localIdxBlockCyclic g base o P w =
      ⟨owner w P x, localIndex w P x - before w P (owner w P x) o +
        if 0 < o / w % P ∧ o / w % P < owner w P x then o / w / P * w else 0⟩ := by
  obtain ⟨hN0, hN1⟩ := hN
  obtain ⟨-, hPw1⟩ := hPw
  have hx0 : 0 ≤ x := by omega
  have hwP : w ≤ P * w := le_mul_of_one_le_left hw.le hP
  have hPw0 : 0 < P * w := mul_pos hP hw
  have hoq := Int.ediv_nonneg ho hw.le
  have hxq := Int.ediv_nonneg hx0 hw.le
  have him0 := Int.emod_nonneg (o / w) hP.ne'
  simp only [localIdxBlockCyclic, ← hx, owner, localIndex, before]
  rw [toInt_of_inInt (show InInt w from ⟨by omega, by omega⟩),
    toInt_of_inInt (show InInt x from ⟨by omega, by omega⟩), Int.tdiv_eq_ediv_of_nonneg ho,
    Int.tmod_eq_emod_of_nonneg ho, Int.tdiv_eq_ediv_of_nonneg hx0, Int.tmod_eq_emod_of_nonneg hx0,
    Int.tdiv_eq_ediv_of_nonneg hoq, Int.tmod_eq_emod_of_nonneg hoq, Int.tdiv_eq_ediv_of_nonneg hx0,
    Int.tmod_eq_emod_of_nonneg hxq, add_one_mul]
  have hxm0 := Int.emod_nonneg (x / w) hP.ne'
  rw [LocalIdx.mk.injEq]
  exact ⟨rfl, blockCyclic_correction him0 hxm0⟩

/-- The block of the element, for running sums that cover the template. -/
theorem firstBlock_spec {rsum : ℕ → ℤ} {P r : ℕ} {y : ℤ} (h : firstBlock rsum P y = some r) :
    r < P ∧ y < rsum (r + 1) ∧ ∀ k < r, rsum (k + 1) ≤ y := by
  rw [firstBlock, List.find?_range_eq_some] at h
  obtain ⟨hy, hr, hbefore⟩ := h
  refine ⟨by simpa using hr, by simpa using hy, ?_⟩
  intro k hk
  simpa using hbefore k hk

theorem exists_firstBlock {rsum : ℕ → ℤ} {P : ℕ} {y : ℤ} (h0 : rsum 0 ≤ y) (h1 : y < rsum P) :
    ∃ r, firstBlock rsum P y = some r ∧ rsum r ≤ y := by
  cases h : firstBlock rsum P y with
  | none =>
    exfalso
    rw [firstBlock, List.find?_range_eq_none] at h
    cases P with
    | zero => omega
    | succ P =>
      have := h P (by omega)
      simp only [Bool.not_eq_true', decide_eq_false_iff_not] at this
      omega
  | some r =>
    obtain ⟨-, -, hbefore⟩ := firstBlock_spec h
    refine ⟨r, rfl, ?_⟩
    cases r with
    | zero => exact h0
    | succ r => exact hbefore r (by omega)

theorem firstBlock_shift (rsum : ℕ → ℤ) (P : ℕ) (y s : ℤ) :
    firstBlock (fun i => rsum i + s) P (y + s) = firstBlock rsum P y := by
  simp only [firstBlock, add_lt_add_iff_right]

/-- The correction is made for the block that holds the template index `sub`, not the first array
element. -/
theorem localIdxGblock_eq {rsum : ℕ → ℤ} {P r rank0 : ℕ} {tbase sub lo N : ℤ}
    (ho : o = sub + (base - tbase)) (hr : firstBlock rsum P (g + sub) = some r)
    (hle : rsum r ≤ g + sub) (hlow : tbase ≤ rsum r) (hbase : tbase ≤ base + sub) (hg : base ≤ g)
    (hgN : g + sub < tbase + N) (hN : InInt N) (hlo : InInt lo) (hsum : InInt (lo + N)) :
    localIdxGblock g base tbase o P rsum lo rank0 =
      ⟨r, lo + (g + sub - if firstBlock rsum P sub = some r then base + sub else rsum r)⟩ := by
  obtain ⟨hN0, hN1⟩ := hN
  obtain ⟨hlo0, hlo1⟩ := hlo
  obtain ⟨hsum0, hsum1⟩ := hsum
  have hfirst : firstBlock (fun i => rsum i + (base - tbase)) P (g + o) = some r := by
    rw [ho, ← add_assoc, firstBlock_shift, hr]
  have hsub : firstBlock (fun i => rsum i + (base - tbase)) P o = firstBlock rsum P sub := by
    rw [ho, firstBlock_shift]
  have hlocal : toInt (g + o - rsum r - (base - tbase) + lo) = lo + (g + sub - rsum r) := by
    rw [toInt_of_inInt ⟨by omega, by omega⟩]
    omega
  simp only [localIdxGblock, hfirst, hsub, Option.getD_some, hlocal]
  cases hs : firstBlock rsum P sub with
  | none => simp
  | some irank =>
    simp only [Option.some.injEq, LocalIdx.mk.injEq, true_and]
    by_cases heq : r = irank
    · subst heq
      rw [if_pos rfl, if_pos rfl, toInt_of_inInt ⟨by omega, by omega⟩]
      omega
    · rw [if_neg heq, if_neg (fun h => heq h.symm)]

theorem count_before_in_block {L H A s : ℤ} (hA : A ≤ g) (hL : L ≤ g + s) (hH : g + s < H) :
    count (fun x => L ≤ x + s ∧ x + s < H) A g = g + s - max L (A + s) := by
  have hshift := @count_shift (fun x => L ≤ x ∧ x < H) _ s A g
  have hblock := count_block L H (show A + s ≤ g + s by omega)
  rw [hshift, hblock]
  omega

theorem count_before_owner {w P A s : ℤ} (hw : 0 < w) (hP : 0 < P) (hA : A ≤ g) :
    count (fun x => owner w P (x + s) = owner w P (g + s)) A g =
      localIndex w P (g + s) - before w P (owner w P (g + s)) (A + s) := by
  have hshift := @count_shift (fun x => owner w P x = owner w P (g + s)) _ s A g
  have hr0 : 0 ≤ owner w P (g + s) := Int.emod_nonneg _ hP.ne'
  have hr1 : owner w P (g + s) < P := Int.emod_lt_of_pos _ hP
  rw [hshift, count_owner hw hP hr0 hr1 (by omega), before_owner hw]

end Dimension

/-! ## Descriptors built from a declaration -/

namespace ArrayDecl

variable (decl : ArrayDecl k d n)

/-- The element `g` belongs to the nodes with coordinate `r`. -/
def DimOwns (t : Fin d) (sub : ℤ) (r : Fin (decl.nodesSize (decl.dist t).1)) (g : ℤ) : Prop :=
  Owned (decl.template t) ⟨decl.nodesSize (decl.dist t).1, r, decl.distSize_limit t⟩
    (decl.dist t).2 (g + sub)

instance (t : Fin d) (sub : ℤ) (r : Fin (decl.nodesSize (decl.dist t).1)) :
    DecidablePred (decl.DimOwns t sub r) :=
  fun g => inferInstanceAs (Decidable (Owned _ _ _ (g + sub)))

/-- Where the elements of a node start in its memory. -/
def localStart (t : Fin d) (shadowSizeLo : ℤ) : ℤ :=
  match (decl.dist t).2 with
  | .block | .gblock _ => shadowSizeLo
  | _ => 0

/-- The computed rank owns the element; the local index counts the elements of that rank before it
and lies inside the memory of every node with that rank that holds a part of the array. -/
def LocalIdxRight (shadow : Fin k → Shadow) (i : Fin k) (t : Fin d) (sub : ℤ) (a : XmpArray k d n)
    (rank0 : ℕ) (g : ℤ) : Prop :=
  ∃ (r : Fin (decl.nodesSize (decl.dist t).1)) (l : LocalIdx), alignLocalIdx g a i rank0 = some l ∧
    l.rank = (r : ℕ) ∧ decl.DimOwns t sub r g ∧
    l.localIdx = decl.localStart t (a.info i).shadowSizeLo +
      count (decl.DimOwns t sub r) (decl.lower i) g ∧
    ∀ (c : decl.Coord) (b b' : XmpArray k d n), decl.Built c b → initShadow b shadow = .ok b' →
      c (decl.dist t).1 = r → b'.isAllocated = true → shadow i ≠ .full →
      0 ≤ l.localIdx ∧ l.localIdx < (b'.info i).allocSize

/-- No conversion to `int` changes a value, and the sizes of general blocks are not negative. -/
def IdxFits (t : Fin d) (shadowSizeLo : ℤ) : Prop :=
  InInt (decl.template t).serSize ∧ InInt shadowSizeLo ∧
    InInt (shadowSizeLo + (decl.template t).serSize) ∧
    match (decl.dist t).2 with
    | .blockCyclic w => InInt (decl.nodesSize (decl.dist t).1 * w)
    | .gblock (some m) => ∀ j < decl.nodesSize (decl.dist t).1, 0 ≤ m j
    | _ => True

/-- Block-cyclic: not a node after the one where the array starts, when the array starts after a
whole round and not on the first node. General blocks: the block of the element is the one that
holds the template index `sub` just when it holds elements before the array. -/
def LocalIdxCond (i : Fin k) (t : Fin d) (sub g : ℤ) : Prop :=
  match (decl.dist t).2 with
  | .blockCyclic w =>
    let P : ℤ := decl.nodesSize (decl.dist t).1
    let first := (decl.lower i + sub - (decl.template t).serLower) / w
    ¬ (w ≠ 1 ∧ 0 < first / P ∧ 0 < first % P ∧
      first % P < owner w P (g + sub - (decl.template t).serLower))
  | .gblock (some m) =>
    let P := decl.nodesSize (decl.dist t).1
    let rsum := rsumArray (decl.template t).serLower m
    ∀ r, firstBlock rsum P (g + sub) = some r →
      if firstBlock rsum P sub = some r then rsum r ≤ decl.lower i + sub
      else decl.lower i + sub ≤ rsum r
  | _ => True

section Built

variable {decl} {c : decl.Coord} {a a' : XmpArray k d n} {shadow : Fin k → Shadow} {i : Fin k}
variable {t : Fin d} {sub g : ℤ} {rank0 : ℕ}

/-- The computed index is right up to an error that vanishes under the condition. -/
def LocalIdxUpTo (decl : ArrayDecl k d n) (i : Fin k) (t : Fin d) (sub : ℤ) (a : XmpArray k d n)
    (rank0 : ℕ) (g : ℤ) : Prop :=
  ∃ (r : Fin (decl.nodesSize (decl.dist t).1)) (err : ℤ), alignLocalIdx g a i rank0 =
      some ⟨(r : ℕ), decl.localStart t (a.info i).shadowSizeLo +
        count (decl.DimOwns t sub r) (decl.lower i) g + err⟩ ∧
    decl.DimOwns t sub r g ∧ (err = 0 ↔ decl.LocalIdxCond i t sub g)

/-- What `_XMP_align_local_idx` reads of a built array. -/
structure ReadsDim (decl : ArrayDecl k d n) (i : Fin k) (t : Fin d) (sub : ℤ) (a : XmpArray k d n) :
    Prop where
  pos : 0 < decl.nodesSize (decl.dist t).1
  serLower : (a.info i).serLower = decl.lower i
  alignManner : (a.info i).alignManner = (a.alignTemplate.chunk t).distManner.alignManner
  alignSubscript : (a.info i).alignSubscript = sub
  alignTemplateIndex : (a.info i).alignTemplateIndex = some t
  info : a.alignTemplate.info t = decl.template t
  lower : (decl.template t).serLower ≤ decl.lower i + sub
  upper : decl.upper i + sub ≤ (decl.template t).serUpper
  chunk : ReplicatedChunk (decl.template t) (decl.nodesSize (decl.dist t).1) (decl.dist t).1
    (a.alignTemplate.chunk t) (decl.dist t).2
  nodesSize : (decl.dist t).2 ≠ .duplication →
    (a.alignTemplate.chunk t).nodesSize = decl.nodesSize (decl.dist t).1

theorem Built.readsDim (hb : decl.Built c a) (hs : initShadow a shadow = .ok a')
    (htar : decl.target i = some (t, sub)) : ReadsDim decl i t sub a' := by
  obtain ⟨htempl, -, hdims⟩ := initShadow_spec hs
  have hdim := hdims i
  have hdesc := hb.described i
  obtain ⟨hmanner, hsub, hidx, hinfo, hlow, hup, hrep⟩ := hdesc.aligned t sub htar
  rw [← htempl] at hmanner hinfo hrep
  refine ⟨(c (decl.dist t).1).pos, hdim.serLower.trans hdesc.lower, hdim.alignManner.trans hmanner,
    hdim.alignSubscript.trans hsub, hdim.alignTemplateIndex.trans hidx, hinfo, hlow, hup, hrep, ?_⟩
  intro hfmt
  rw [htempl, TemplateChunk.nodesSize, hb.nodesInfo_eq hfmt]
  rfl

theorem ReadsDim.offset (h : ReadsDim decl i t sub a) (hg : decl.lower i ≤ g ∧ g ≤ decl.upper i)
    (hfits : InInt (decl.template t).serSize) :
    toInt (sub + (decl.lower i - (decl.template t).serLower)) =
      decl.lower i + sub - (decl.template t).serLower := by
  have hlow := h.lower
  have hup := h.upper
  have hN := (decl.template t).serUpper_eq
  obtain ⟨-, hN1⟩ := hfits
  rw [toInt_of_inInt ⟨by omega, by omega⟩]
  ring

theorem ReadsDim.block (h : ReadsDim decl i t sub a) (hfmt : (decl.dist t).2 = .block)
    (hg : decl.lower i ≤ g ∧ g ≤ decl.upper i) (hfits : decl.IdxFits t (a.info i).shadowSizeLo) :
    decl.LocalIdxUpTo i t sub a rank0 g := by
  obtain ⟨hN, hlo, hsum, -⟩ := hfits
  have hlow := h.lower
  have hup := h.upper
  have hNeq := (decl.template t).serUpper_eq
  have hP : (0 : ℤ) < decl.nodesSize (decl.dist t).1 := by exact_mod_cast h.pos
  have hrep := h.chunk
  rw [hfmt] at hrep
  obtain ⟨hmanner, -, hwidth⟩ := hrep
  have ha := h.alignManner
  rw [hmanner] at ha
  have hoff := h.offset hg hN
  have hW := ceilDiv_pos (decl.template t).serSize_pos hP
  have hWle := (ceilDiv_bounds (decl.template t).serSize_pos.le hP).1
  obtain ⟨W, hWeq⟩ : ∃ W, W = ceilDiv (decl.template t).serSize (decl.nodesSize (decl.dist t).1) :=
    ⟨_, rfl⟩
  rw [← hWeq] at hW hWle hwidth
  obtain ⟨x, hx⟩ : ∃ x, x = g + sub - (decl.template t).serLower := ⟨_, rfl⟩
  have hx0 : 0 ≤ x := by omega
  have hr0 := Int.ediv_nonneg hx0 hW.le
  have hr1 : x / W < decl.nodesSize (decl.dist t).1 := Int.ediv_lt_of_lt_mul hW (by linarith)
  have hxr := Int.ediv_mul_le x hW.ne'
  have hxr' := Int.lt_ediv_add_one_mul_self x hW
  have heq := @localIdxBlock_eq g (decl.lower i) (decl.lower i + sub - (decl.template t).serLower) x
    W (a.info i).shadowSizeLo (decl.template t).serSize hW (by omega) (by omega)
      (by omega) (by omega)
    hN hlo hsum
  obtain ⟨r, hr⟩ : ∃ r : Fin (decl.nodesSize (decl.dist t).1), ((r : ℕ) : ℤ) = x / W :=
    ⟨⟨(x / W).toNat, by omega⟩, by simp [hr0]⟩
  have hiff : ∀ y, decl.DimOwns t sub r y ↔
      (decl.template t).serLower + x / W * W ≤ y + sub ∧
        y + sub < (decl.template t).serLower + (x / W + 1) * W := by
    intro y
    rw [DimOwns, hfmt, owned_block_iff, ← hWeq, add_one_mul]
    dsimp only
    rw [hr]
    omega
  have hcount := @count_before_in_block g ((decl.template t).serLower + x / W * W)
    ((decl.template t).serLower + (x / W + 1) * W) (decl.lower i) sub hg.1 (by omega) (by omega)
  refine ⟨r, 0, ?_, (hiff g).mpr ⟨by omega, by omega⟩, ?_⟩
  · rw [count_congr hiff, hcount, hr]
    simp only [alignLocalIdx, ha, DistManner.alignManner, h.alignTemplateIndex, h.alignSubscript,
      h.serLower, h.info, hoff, hwidth, heq, localStart, hfmt, Option.some.injEq, LocalIdx.mk.injEq,
      true_and]
    omega
  · simp [LocalIdxCond, hfmt]

/-- Blocks of `w` dealt in turn; blocks of one element have a branch of their own. -/
theorem ReadsDim.cyclicWidth {w : ℤ} (h : ReadsDim decl i t sub a) (hw : 0 < w)
    (hdup : (decl.dist t).2 ≠ .duplication)
    (hrep : CyclicReplicated (decl.nodesSize (decl.dist t).1) (decl.dist t).1 w
      (a.alignTemplate.chunk t))
    (howns : ∀ r y, decl.DimOwns t sub r y ↔
      owner w (decl.nodesSize (decl.dist t).1) (y + (sub - (decl.template t).serLower)) = (r : ℕ))
    (hstart : ∀ lo, decl.localStart t lo = 0)
    (hcond : decl.LocalIdxCond i t sub g ↔ ¬ (w ≠ 1 ∧
      0 < (decl.lower i + sub - (decl.template t).serLower) / w / decl.nodesSize (decl.dist t).1 ∧
      0 < (decl.lower i + sub - (decl.template t).serLower) / w % decl.nodesSize (decl.dist t).1 ∧
      (decl.lower i + sub - (decl.template t).serLower) / w % decl.nodesSize (decl.dist t).1 <
        owner w (decl.nodesSize (decl.dist t).1) (g + sub - (decl.template t).serLower)))
    (hg : decl.lower i ≤ g ∧ g ≤ decl.upper i) (hN : InInt (decl.template t).serSize)
    (hPw : InInt (decl.nodesSize (decl.dist t).1 * w)) :
    decl.LocalIdxUpTo i t sub a rank0 g := by
  have hlow := h.lower
  have hup := h.upper
  have hNeq := (decl.template t).serUpper_eq
  have hoff := h.offset hg hN
  have hsize := h.nodesSize hdup
  obtain ⟨hmanner, -, hwidth, -⟩ := hrep
  have ha := h.alignManner
  obtain ⟨P, hPeq⟩ : ∃ P : ℤ, P = decl.nodesSize (decl.dist t).1 := ⟨_, rfl⟩
  have hP : 0 < P := by
    rw [hPeq]
    exact_mod_cast h.pos
  rw [← hPeq] at hsize hcond hPw
  simp only [← hPeq] at howns
  obtain ⟨o, ho⟩ : ∃ o, o = decl.lower i + sub - (decl.template t).serLower := ⟨_, rfl⟩
  obtain ⟨x, hx⟩ : ∃ x, x = g + sub - (decl.template t).serLower := ⟨_, rfl⟩
  rw [← ho] at hoff
  rw [← hx, ← ho] at hcond
  have hr0 : 0 ≤ owner w P x := Int.emod_nonneg _ hP.ne'
  have hr1 : owner w P x < P := Int.emod_lt_of_pos _ hP
  obtain ⟨r, hr⟩ : ∃ r : Fin (decl.nodesSize (decl.dist t).1), ((r : ℕ) : ℤ) = owner w P x :=
    ⟨⟨(owner w P x).toNat, by omega⟩, by simp [hr0]⟩
  have hgx : g + (sub - (decl.template t).serLower) = x := by omega
  have hlo : decl.lower i + (sub - (decl.template t).serLower) = o := by omega
  have hcount :=
    @count_before_owner g w P (decl.lower i) (sub - (decl.template t).serLower) hw hP hg.1
  rw [hgx, hlo] at hcount
  have hcount' : count (decl.DimOwns t sub r) (decl.lower i) g =
      localIndex w P x - before w P (owner w P x) o := by
    rw [← hcount]
    apply count_congr
    intro y
    rw [howns, hr]
  have hown : decl.DimOwns t sub r g := by rw [howns, hgx, hr]
  by_cases hone : w = 1
  · subst hone
    rw [mul_one] at hPw
    rw [hmanner, if_pos rfl] at ha
    have heq :=
      @localIdxCyclic_eq g (decl.lower i) o x P (decl.template t).serSize hP hPw (by omega)
      (by omega) (by omega) (by omega) hN
    refine ⟨r, 0, ?_, hown, by simp [hcond]⟩
    rw [hcount', hstart, zero_add, add_zero, hr]
    simp only [alignLocalIdx, ha, DistManner.alignManner, h.alignTemplateIndex, h.alignSubscript,
      h.serLower, h.info, hoff, hsize, heq]
  · rw [hmanner, if_neg hone] at ha
    have heq := @localIdxBlockCyclic_eq g (decl.lower i) o x w P (decl.template t).serSize hw hP hPw
      (by omega) (by omega) (by omega) (by omega) hN
    refine ⟨r, if 0 < o / w % P ∧ o / w % P < owner w P x then o / w / P * w else 0, ?_, hown, ?_⟩
    · rw [hcount', hstart, zero_add, hr]
      simp only [alignLocalIdx, ha, DistManner.alignManner, h.alignTemplateIndex, h.alignSubscript,
        h.serLower, h.info, hoff, hsize, hwidth, heq]
    · have hq0 : 0 ≤ o / w / P := Int.ediv_nonneg (Int.ediv_nonneg (by omega) hw.le) hP.le
      rw [hcond]
      split_ifs with hbad
      · rw [mul_eq_zero]
        constructor
        · rintro (hzero | hzero)
          · omega
          · omega
        · intro hno
          left
          by_contra hne
          exact hno ⟨hone, by omega, hbad.1, hbad.2⟩
      · simp only [true_iff]
        rintro ⟨-, -, h1, h2⟩
        exact hbad ⟨h1, h2⟩

theorem ReadsDim.cyclic (h : ReadsDim decl i t sub a) (hfmt : (decl.dist t).2 = .cyclic)
    (hg : decl.lower i ≤ g ∧ g ≤ decl.upper i) (hfits : decl.IdxFits t (a.info i).shadowSizeLo) :
    decl.LocalIdxUpTo i t sub a rank0 g := by
  have hrep := h.chunk
  rw [hfmt] at hrep
  have hP : InInt (decl.nodesSize (decl.dist t).1 * 1) := by
    have := decl.nodesSize_limit (decl.dist t).1
    exact ⟨by omega, by omega⟩
  refine h.cyclicWidth one_pos (by simp [hfmt]) hrep ?_ (fun lo => by simp [localStart, hfmt])
    (by simp [LocalIdxCond, hfmt]) hg hfits.1 hP
  intro r y
  rw [DimOwns, hfmt, Owned, add_sub_assoc]

theorem ReadsDim.blockCyclic {w : ℤ} (h : ReadsDim decl i t sub a)
    (hfmt : (decl.dist t).2 = .blockCyclic w) (hg : decl.lower i ≤ g ∧ g ≤ decl.upper i)
    (hfits : decl.IdxFits t (a.info i).shadowSizeLo) : decl.LocalIdxUpTo i t sub a rank0 g := by
  have hrep := h.chunk
  rw [hfmt] at hrep
  obtain ⟨hN, -, -, hPw⟩ := hfits
  rw [hfmt] at hPw
  refine h.cyclicWidth (decl.width_pos t w hfmt) (by simp [hfmt]) hrep ?_
    (fun lo => by simp [localStart, hfmt]) (by simp [LocalIdxCond, hfmt]) hg hN hPw
  intro r y
  rw [DimOwns, hfmt, Owned, add_sub_assoc]

theorem ReadsDim.gblock {m : ℕ → ℤ} (h : ReadsDim decl i t sub a)
    (hfmt : (decl.dist t).2 = .gblock (some m)) (hg : decl.lower i ≤ g ∧ g ≤ decl.upper i)
    (hfits : decl.IdxFits t (a.info i).shadowSizeLo) : decl.LocalIdxUpTo i t sub a rank0 g := by
  obtain ⟨hN, hlo, hsum, hm⟩ := hfits
  rw [hfmt] at hm
  have hlow := h.lower
  have hup := h.upper
  have hNeq := (decl.template t).serUpper_eq
  have hoff := h.offset hg hN
  have hsize := h.nodesSize (by simp [hfmt])
  have hrep := h.chunk
  rw [hfmt] at hrep
  obtain ⟨hmanner, -, hmap, hcover⟩ := hrep
  have ha := h.alignManner
  rw [hmanner] at ha
  obtain ⟨rsum, hrsum⟩ : ∃ rsum, rsum = rsumArray (decl.template t).serLower m := ⟨_, rfl⟩
  rw [← hrsum] at hmap hcover
  have hstart : rsum 0 = (decl.template t).serLower := by rw [hrsum]; rfl
  obtain ⟨r, hr, hle⟩ := exists_firstBlock (show rsum 0 ≤ g + sub by omega)
    (show g + sub < rsum (decl.nodesSize (decl.dist t).1) by omega)
  obtain ⟨hrP, hlt, -⟩ := firstBlock_spec hr
  have hrlow : (decl.template t).serLower ≤ rsum r := by
    rw [hrsum]
    exact serLower_le_rsumArray _ fun j hj => hm j (by omega)
  have heq := @localIdxGblock_eq g (decl.lower i) (decl.lower i + sub - (decl.template t).serLower)
    rsum (decl.nodesSize (decl.dist t).1) r rank0 (decl.template t).serLower sub
    (a.info i).shadowSizeLo (decl.template t).serSize (by ring) hr hle hrlow hlow hg.1 (by omega) hN
    hlo hsum
  have hiff : ∀ y, decl.DimOwns t sub ⟨r, hrP⟩ y ↔ rsum r ≤ y + sub ∧ y + sub < rsum (r + 1) := by
    intro y
    rw [DimOwns, hfmt, Owned, ← hrsum]
  have hcount := @count_before_in_block g (rsum r) (rsum (r + 1)) (decl.lower i) sub hg.1 hle hlt
  refine ⟨⟨r, hrP⟩, max (rsum r) (decl.lower i + sub) -
    (if firstBlock rsum (decl.nodesSize (decl.dist t).1) sub = some r then decl.lower i + sub
      else rsum r), ?_, (hiff g).mpr ⟨hle, hlt⟩, ?_⟩
  · rw [count_congr hiff, hcount]
    simp only [alignLocalIdx, ha, DistManner.alignManner, h.alignTemplateIndex, h.alignSubscript,
      h.serLower, h.info, hoff, hsize, hmap, Int.toNat_natCast, heq, localStart, hfmt,
      Option.some.injEq, LocalIdx.mk.injEq, true_and]
    ring
  · simp only [LocalIdxCond, hfmt, ← hrsum, hr, Option.some.injEq, forall_eq']
    split_ifs <;> omega

theorem Built.localIdxUpTo (hb : decl.Built c a) (hs : initShadow a shadow = .ok a')
    (htar : decl.target i = some (t, sub)) (hfmt : (decl.dist t).2 ≠ .duplication)
    (hg : decl.lower i ≤ g ∧ g ≤ decl.upper i) (hfits : decl.IdxFits t (a'.info i).shadowSizeLo) :
    decl.LocalIdxUpTo i t sub a' rank0 g := by
  have h := hb.readsDim hs htar
  cases hd : (decl.dist t).2 with
  | duplication => exact absurd hd hfmt
  | block => exact h.block hd hg hfits
  | cyclic => exact h.cyclic hd hg hfits
  | blockCyclic w => exact h.blockCyclic hd hg hfits
  | gblock m =>
    cases m with
    | none =>
      have hrep := h.chunk
      rw [hd] at hrep
      exact hrep.elim
    | some m => exact h.gblock hd hg hfits

theorem rankOwns_unique (hm : ∀ m, (decl.dist t).2 = .gblock (some m) →
      ∀ j < decl.nodesSize (decl.dist t).1, 0 ≤ m j)
    (hfmt : (decl.dist t).2 ≠ .duplication) (hfix : (decl.dist t).2 ≠ .gblock none)
    {r r' : Fin (decl.nodesSize (decl.dist t).1)} (h : decl.DimOwns t sub r g)
    (h' : decl.DimOwns t sub r' g) : r = r' := by
  rw [DimOwns] at h h'
  cases hd : (decl.dist t).2 with
  | duplication => exact absurd hd hfmt
  | block =>
    rw [hd, Owned] at h h'
    exact Fin.ext (by exact_mod_cast h.symm.trans h')
  | cyclic =>
    rw [hd, Owned] at h h'
    exact Fin.ext (by exact_mod_cast h.symm.trans h')
  | blockCyclic w =>
    rw [hd, Owned] at h h'
    exact Fin.ext (by exact_mod_cast h.symm.trans h')
  | gblock m =>
    cases m with
    | none => exact absurd hd hfix
    | some m =>
      rw [hd, Owned] at h h'
      dsimp only at h h'
      have hnn := hm m hd
      have hle : ∀ {q q' : Fin (decl.nodesSize (decl.dist t).1)}, (q : ℕ) < q' →
          rsumArray (decl.template t).serLower m ((q : ℕ) + 1) ≤
            rsumArray (decl.template t).serLower m q' := by
        intro q q' hq
        exact rsumArray_le _ (fun j hj => hnn j (hj.trans q'.isLt)) hq
      rcases lt_trichotomy (r : ℕ) r' with hlt | heq | hgt
      · have := hle hlt
        omega
      · exact Fin.ext heq
      · have := hle hgt
        omega

/-- The local index of an element that is numbered rightly lies in the allocated memory. -/
theorem Built.localIdx_lt (hb : decl.Built c a) (hs : initShadow a shadow = .ok a')
    (htar : decl.target i = some (t, sub)) (hfmt : (decl.dist t).2 ≠ .duplication)
    (hg : decl.lower i ≤ g ∧ g ≤ decl.upper i) (hown : decl.DimOwns t sub (c (decl.dist t).1) g)
    (ha : a'.isAllocated = true) {lo hi : ℤ} (hlo : 0 ≤ lo) (hhi : 0 ≤ hi)
    (halloc : (a'.info i).allocSize = (a.info i).allocSize + (lo + hi)) :
    decl.localStart t lo + count (decl.DimOwns t sub (c (decl.dist t).1)) (decl.lower i) g <
      (a'.info i).allocSize := by
  obtain ⟨-, hsame, -⟩ := initShadow_spec hs
  have hroom := hb.count_le_allocSize (hsame ▸ ha) htar hfmt hg hown
  have hlt := count_lt hg.1 (show g < decl.upper i + 1 by omega) hown
  have hle : decl.localStart t lo ≤ lo := by
    rw [localStart]
    split <;> omega
  have hroom' : count (decl.DimOwns t sub (c (decl.dist t).1)) (decl.lower i) (decl.upper i + 1) ≤
      (a.info i).allocSize := hroom
  omega

theorem Built.shadow_widths (hb : decl.Built c a) (hs : initShadow a shadow = .ok a')
    (hfull : shadow i ≠ .full) : ∃ lo hi, 0 ≤ lo ∧ 0 ≤ hi ∧ (a'.info i).shadowSizeLo = lo ∧
      ∀ (c' : decl.Coord) (b b' : XmpArray k d n), decl.Built c' b → initShadow b shadow = .ok b' →
        b'.isAllocated = true → (b'.info i).allocSize = (b.info i).allocSize + (lo + hi) := by
  obtain ⟨-, -, hdims⟩ := initShadow_spec hs
  have hdim := hdims i
  have hzero := hb.shadowSizeLo i
  cases hsh : shadow i with
  | none =>
    refine ⟨0, 0, le_rfl, le_rfl, ?_, ?_⟩
    · rw [hdim.none hsh, hzero]
    · intro c' b b' _ hs' _
      obtain ⟨-, -, hdims'⟩ := initShadow_spec hs'
      rw [(hdims' i).none hsh]
      ring
  | normal lo hi =>
    obtain ⟨hlo, hhi, hsize, -⟩ := hdim.normal lo hi hsh
    refine ⟨lo, hi, hlo, hhi, hsize hzero, ?_⟩
    intro c' b b' _ hs' ha
    obtain ⟨-, hsame, hdims'⟩ := initShadow_spec hs'
    obtain ⟨-, -, -, halloc⟩ := (hdims' i).normal lo hi hsh
    exact halloc (hsame ▸ ha)
  | full => exact absurd hsh hfull

theorem Built.localIdxRight_iff (hb : decl.Built c a) (hs : initShadow a shadow = .ok a')
    (htar : decl.target i = some (t, sub)) (hfmt : (decl.dist t).2 ≠ .duplication)
    (hg : decl.lower i ≤ g ∧ g ≤ decl.upper i) (hfits : decl.IdxFits t (a'.info i).shadowSizeLo) :
    decl.LocalIdxRight shadow i t sub a' rank0 g ↔ decl.LocalIdxCond i t sub g := by
  obtain ⟨r, err, heq, hown, herr⟩ := hb.localIdxUpTo hs htar hfmt hg hfits
  constructor
  · rintro ⟨r', l, hl, hrank, -, hlocal, -⟩
    rw [heq, Option.some.injEq] at hl
    subst hl
    dsimp only at hrank hlocal
    obtain rfl : r = r' := Fin.ext (by exact_mod_cast hrank)
    rw [← herr]
    omega
  · intro hcond
    rw [herr.mpr hcond, add_zero] at heq
    refine ⟨r, _, heq, rfl, hown, rfl, ?_⟩
    intro c' b b' hb' hs' hc' ha' hfull
    obtain ⟨lo, hi, hlo, hhi, hsize, halloc⟩ := hb.shadow_widths hs hfull
    rw [hsize]
    constructor
    · have hnn := @count_nonneg (decl.DimOwns t sub r) _ (decl.lower i) g
      have hstart : 0 ≤ decl.localStart t lo := by
        rw [localStart]
        split <;> omega
      exact add_nonneg hstart hnn
    · subst hc'
      exact hb'.localIdx_lt hs' htar hfmt hg hown ha' hlo hhi (halloc c' b b' hb' hs' ha')

end Built

end ArrayDecl

/-- `_XMP_align_local_idx` is right for an element exactly under its condition; where this holds for
the whole dimension, the elements of each rank are numbered without gaps. -/
theorem alignLocalIdx_right_iff (decl : ArrayDecl k d n) (c : decl.Coord) (a a' : XmpArray k d n)
    (shadow : Fin k → Shadow) (i : Fin k) (t : Fin d) (sub : ℤ) (rank0 : ℕ) (hb : decl.Built c a)
    (hs : initShadow a shadow = .ok a') (htar : decl.target i = some (t, sub))
    (hfmt : (decl.dist t).2 ≠ .duplication) :
    decl.IdxFits t (a'.info i).shadowSizeLo →
      (∀ g, decl.lower i ≤ g → g ≤ decl.upper i →
        (decl.LocalIdxRight shadow i t sub a' rank0 g ↔ decl.LocalIdxCond i t sub g)) ∧
      ((∀ g, decl.lower i ≤ g → g ≤ decl.upper i → decl.LocalIdxCond i t sub g) →
        ∀ r, Set.BijOn (fun g => (alignLocalIdx g a' i rank0).elim 0 LocalIdx.localIdx -
            decl.localStart t (a'.info i).shadowSizeLo)
          {g | decl.lower i ≤ g ∧ g < decl.upper i + 1 ∧ decl.DimOwns t sub r g}
          (Set.Ico 0 (OwnedCount.count (decl.DimOwns t sub r) (decl.lower i)
            (decl.upper i + 1)))) := by
  intro hfits
  have hiff : ∀ g, decl.lower i ≤ g → g ≤ decl.upper i →
      (decl.LocalIdxRight shadow i t sub a' rank0 g ↔ decl.LocalIdxCond i t sub g) :=
    fun g h0 h1 => hb.localIdxRight_iff hs htar hfmt ⟨h0, h1⟩ hfits
  refine ⟨hiff, fun hcond r => ?_⟩
  have hle := decl.lower_le_upper i
  refine (bijOn_count (by omega)).congr fun g hg => ?_
  obtain ⟨h0, h1, hown⟩ := hg
  obtain ⟨r', l, hl, hrank, hown', hlocal, -⟩ := (hiff g h0 (by omega)).mpr (hcond g h0 (by omega))
  have hreads := hb.readsDim hs htar
  have hr : r' = r := by
    refine ArrayDecl.rankOwns_unique ?_ hfmt ?_ hown' hown
    · intro m hm
      have hnn := hfits.2.2.2
      rw [hm] at hnn
      exact hnn
    · intro hnone
      have hrep := hreads.chunk
      rw [hnone] at hrep
      exact hrep
  subst hr
  simp only [hl, Option.elim_some, hlocal]
  ring

/-- Sixteen elements from the ninth index of `t(0:23)` on, which is distributed `cyclic(2)` onto
three nodes. The array starts in the second round, on the second node. -/
def lateDecl : ArrayDecl 1 1 1 :=
  .line 3 (.fixed 0 23 (by decide)) (.blockCyclic 2) 0 15 8 (by norm_num)
    (by decide) (by rintro w ⟨⟩; norm_num) (by norm_num)

def lateCoord : lateDecl.Coord := fun _ => (0 : Fin 3)

/-- The descriptor on the first node. -/
def lateArray : XmpArray 1 1 1 := lateDecl.builtLine lateCoord

theorem built_lateArray : lateDecl.Built lateCoord lateArray :=
  ArrayDecl.built_of_build rfl

/-- On the node where the array starts the indices are right. -/
theorem alignLocalIdx_right_late :
    lateDecl.LocalIdxRight (fun _ => .none) 0 0 8 lateArray 0 0 := by
  have hfits : lateDecl.IdxFits 0 (lateArray.info 0).shadowSizeLo := by
    refine ⟨by decide, by decide, by decide, ?_⟩
    change InInt (((3 : ℕ) : ℤ) * 2)
    decide
  have h := alignLocalIdx_right_iff lateDecl lateCoord lateArray lateArray
    (fun _ => .none) 0 0 8 0 built_lateArray (initShadow_none lateArray) rfl
      (by simp [lateDecl, ArrayDecl.line]) hfits
  apply (h.1 0 (by decide) (by decide)).mpr
  rintro ⟨-, -, -, hlt⟩
  revert hlt
  decide

/-- The third element is the first on the last node, and its local index is computed as 2. -/
theorem alignLocalIdx_late_wrong :
    lateDecl.Built lateCoord lateArray ∧
    initShadow lateArray (fun _ => .none) = .ok lateArray ∧
    alignLocalIdx 2 lateArray 0 0 = some ⟨2, 2⟩ ∧
    OwnedCount.count (lateDecl.DimOwns 0 8 ⟨2, by decide⟩) 0 2 = 0 ∧
    ¬ lateDecl.LocalIdxRight (fun _ => .none) 0 0 8 lateArray 0 2 := by
  have hrun : alignLocalIdx 2 lateArray 0 0 = some ⟨2, 2⟩ := by decide
  have hcount : OwnedCount.count (lateDecl.DimOwns 0 8 ⟨2, by decide⟩) 0 2 = 0 := by decide
  refine ⟨built_lateArray, initShadow_none lateArray, hrun, hcount, ?_⟩
  rintro ⟨r, l, hl, hrank, -, hlocal, -⟩
  rw [hrun, Option.some.injEq] at hl
  subst hl
  obtain rfl : r = ⟨2, by decide⟩ := by
    apply Fin.ext
    have : ((2 : ℤ)) = ((r : ℕ) : ℤ) := hrank
    simpa using (by exact_mod_cast this.symm : (r : ℕ) = 2)
  have hlocal' : (2 : ℤ) = 0 + OwnedCount.count (lateDecl.DimOwns 0 8 ⟨2, by decide⟩) 0 2 := hlocal
  rw [hcount] at hlocal'
  omega

end OmniCompiler.Xmp
