import OmniCompiler.Arithmetic.FoldExcept
import OmniCompiler.Xmpf.CoarrayAxes

/-!
# Reference of a coindexed section (`xmpf_coarray_get.c`)

The vectors of the collapsed section are read one by one, either straight into the
registered chunk of the result, or through the local buffer. The recursion over the
axes passes on the address behind the vector before; the offset in the chunk is the
same for all vectors.
-/
namespace OmniCompiler.Xmpf

open FoldExcept Memory MachineInt

variable {β : Type}

/-- What does not change between the calls: `COMM_UNIT`, `XMPF_get_localBufSize()`, and origin and
size of the chunk of the coarray. -/
structure GetEnv where
  commUnit : ℕ
  localBufSize : ℕ
  orgAddr : ℤ
  chunkSize : ℕ

/-- The memory of the result and the local buffer, which is the first part of its chunk. -/
structure GetMem (β : Type) where
  mem : ℤ → β
  buf : ℤ → β

section Code

variable (E : GetEnv) (remote : ℤ → β)

/-- `_XMPF_getVector_DMA` into the chunk at `orgAddrDMA`. -/
def getVectorDMA (baseAddr : ℤ) (bytes : ℕ) (orgAddrDMA offsetDMA : ℤ) (mem : ℤ → β) : ℤ → β :=
  transfer bytes remote mem (orgAddrDMA + offsetDMA) (baseAddr - E.orgAddr)

/-- One communication into the local buffer and the `memcpy` from there. -/
def getThroughBuf (bytes : ℕ) (src dst : ℤ) (m : GetMem β) : GetMem β :=
  let buf := getVectorDMA E remote src bytes 0 0 m.buf
  { mem := transfer bytes buf m.mem dst 0, buf := buf }

/-- The loop of `_XMPF_getVector_buffer`. A loop that advances ends within `bytes` rounds; `none`
is one that does not end. -/
def getVectorRounds : ℕ → ℕ → ℤ → ℤ → GetMem β → Option (GetMem β)
  | 0, rest, src, dst, m =>
    if E.localBufSize < rest then none else some (getThroughBuf E remote rest src dst m)
  | rounds + 1, rest, src, dst, m =>
    if E.localBufSize < rest then
      getVectorRounds rounds (rest - E.localBufSize) (src + E.localBufSize) (dst + E.localBufSize)
        (getThroughBuf E remote E.localBufSize src dst m)
    else some (getThroughBuf E remote rest src dst m)

/-- `_XMPF_getVector_buffer`, where the rounded length is the length. -/
def getVectorBuffer (bytes : ℕ) (baseAddr result : ℤ) (m : GetMem β) : Option (GetMem β) :=
  getVectorRounds E remote bytes bytes baseAddr result m

/-- The call in the innermost loop; `dma` is the registered chunk and the offset in it. -/
def getVector (dma : Option (ℤ × ℤ)) (bytes : ℕ) (src dst : ℤ) (m : GetMem β) : Option (GetMem β) :=
  match dma with
  | some (orgAddrDMA, offsetDMA) =>
    some { m with mem := getVectorDMA E remote src bytes orgAddrDMA offsetDMA m.mem }
  | none => getVectorBuffer E remote bytes src dst m

/-- `_getVectorIter`, from the last axis to the first, whose loop moves the address on; the other
loops compute its distance in `int`. -/
def getVectorIter (dma : Option (ℤ × ℤ)) (bytes : ℕ) :
    List Axis → ℤ → ℤ × GetMem β → Option (ℤ × GetMem β)
  | [], _, _ => none
  | [a], baseAddr, t =>
    (List.range a.count).foldlM (fun t (i : ℕ) =>
      (getVector E remote dma bytes (baseAddr + i * a.src) t.1 t.2).map fun m => (t.1 + bytes, m)) t
  | a :: b :: inner, baseAddr, t =>
    (List.range a.count).foldlM (fun t (i : ℕ) => (cint (i * a.src)).bind fun gap =>
      getVectorIter dma bytes (b :: inner) (baseAddr + gap) t) t

/-- The recursion of `_getCoarray` over the contiguous axes. Of an axis only the count and the
distance in the coarray are read. -/
def collapseSkip : ℕ → List Axis → Option (ℕ × List Axis)
  | bytes, [] => some (bytes, [])
  | bytes, a :: axes =>
    if (bytes : ℤ) = a.src then (cnat (bytes * a.count)).bind fun bytes => collapseSkip bytes axes
    else some (bytes, a :: axes)

def getCoarray (dma : Option (ℤ × ℤ)) (bytes : ℕ) (axes : List Axis) (baseAddr result : ℤ)
    (m : GetMem β) : Option (GetMem β) :=
  (collapseSkip bytes axes).bind fun (bytes, axes) =>
    match axes with
    | [] => getVector E remote dma bytes baseAddr result m
    | axes => (getVectorIter E remote dma bytes axes.reverse baseAddr (result, m)).map Prod.snd

def GetEnv.isAddrInCoarrayChunk (E : GetEnv) (addr : ℤ) : Prop :=
  0 ≤ addr - E.orgAddr ∧ addr - E.orgAddr < E.chunkSize

instance (addr : ℤ) : Decidable (E.isAddrInCoarrayChunk addr) := inferInstanceAs (Decidable (_ ∧ _))

/-- `xmpf_coarray_get_array_`. `chunkDMA` is the address of the registered chunk of the result, if
there is one and the eager mode is off; `remote` is the chunk of the coarray on the other image. -/
def getArray (chunkDMA : Option ℤ) (element : ℕ) (axes : List Axis) (baseAddr result : ℤ)
    (m : GetMem β) : Option (GetMem β) :=
  if element % E.commUnit ≠ 0 then none
  else if ¬ E.isAddrInCoarrayChunk baseAddr then none
  else getCoarray E remote (chunkDMA.map fun orgAddrDMA => (orgAddrDMA, result - orgAddrDMA))
    element axes baseAddr result m

end Code

/-! ## Vectors -/

variable {E : GetEnv} {remote : ℤ → β} {bytes : ℕ}

def GetEnv.Reads (E : GetEnv) (bytes : ℕ) : Prop := bytes = 0 ∨ 0 < E.localBufSize

theorem getThroughBuf_mem (bytes : ℕ) (src dst : ℤ) (m : GetMem β) :
    (getThroughBuf E remote bytes src dst m).mem =
      transfer bytes remote m.mem dst (src - E.orgAddr) :=
  transfer_buffered bytes remote m.buf m.mem dst _

theorem getVectorRounds_spec {rounds : ℕ} (h : E.Reads bytes) (hrounds : bytes ≤ rounds)
    (src dst : ℤ) (m : GetMem β) : ∃ m', getVectorRounds E remote rounds bytes src dst m = some m' ∧
      m'.mem = transfer bytes remote m.mem dst (src - E.orgAddr) := by
  induction rounds generalizing bytes src dst m with
  | zero =>
    have hle : ¬ E.localBufSize < bytes := by omega
    exact ⟨_, if_neg hle, getThroughBuf_mem bytes src dst m⟩
  | succ rounds ih =>
    rw [getVectorRounds]
    by_cases hlt : E.localBufSize < bytes
    · rw [if_pos hlt]
      have hpos : 0 < E.localBufSize := by
        obtain h0 | hpos := h
        · omega
        · exact hpos
      obtain ⟨m', hm', hmem⟩ := @ih (bytes - E.localBufSize) (Or.inr hpos) (by omega)
        (src + E.localBufSize) (dst + E.localBufSize)
        (getThroughBuf E remote E.localBufSize src dst m)
      refine ⟨m', hm', ?_⟩
      have hjoin := transfer_transfer E.localBufSize (bytes - E.localBufSize) remote m.mem dst
        (src - E.orgAddr)
      rw [hmem, getThroughBuf_mem, add_sub_right_comm, hjoin, Nat.add_sub_cancel' hlt.le]
    · rw [if_neg hlt]
      exact ⟨_, rfl, getThroughBuf_mem bytes src dst m⟩

theorem getVectorRounds_none {rounds : ℕ} (h : ¬ E.Reads bytes) (src dst : ℤ) (m : GetMem β) :
    getVectorRounds E remote rounds bytes src dst m = none := by
  unfold GetEnv.Reads at h
  have hlt : E.localBufSize < bytes := by omega
  have hzero : E.localBufSize = 0 := by omega
  induction rounds generalizing src dst m with
  | zero => exact if_pos hlt
  | succ rounds ih =>
    rw [getVectorRounds, if_pos hlt, hzero, Nat.sub_zero, ← hzero]
    exact ih _ _ _

/-- Where a vector is stored: behind the one before, or always at the offset in the chunk. -/
def stored (dma : Option (ℤ × ℤ)) (dst : ℤ) : ℤ :=
  match dma with
  | some (orgAddrDMA, offsetDMA) => orgAddrDMA + offsetDMA
  | none => dst

theorem getVector_spec {dma : Option (ℤ × ℤ)} (h : dma = none → E.Reads bytes) (src dst : ℤ)
    (m : GetMem β) : ∃ m', getVector E remote dma bytes src dst m = some m' ∧
      m'.mem = transfer bytes remote m.mem (stored dma dst) (src - E.orgAddr) := by
  cases dma with
  | some chunk => exact ⟨_, rfl, rfl⟩
  | none => exact getVectorRounds_spec (h rfl) le_rfl src dst m

theorem getVectors_spec (remote : ℤ → β) {dma : Option (ℤ × ℤ)} (ps : List (ℤ × ℤ))
    (h : ps ≠ [] → dma = none → E.Reads bytes) (dst : ℤ) (m : GetMem β)
    (hadj : Adjacent bytes dst (ps.map Prod.fst)) :
    ∃ dst' m', ps.foldlM (fun (t : ℤ × GetMem β) p =>
        (getVector E remote dma bytes p.2 t.1 t.2).map fun m => (t.1 + bytes, m)) (dst, m) =
        some (dst', m') ∧
      m'.mem = transfers bytes remote m.mem
        (ps.map fun p => (stored dma p.1, p.2 - E.orgAddr)) := by
  induction ps generalizing dst m with
  | nil => exact ⟨dst, m, rfl, rfl⟩
  | cons p ps ih =>
    have hreads := h (List.cons_ne_nil p ps)
    obtain ⟨m₁, hm₁, hmem₁⟩ := @getVector_spec β E remote bytes dma hreads p.2 dst m
    obtain ⟨hp, hrest⟩ := hadj
    obtain ⟨dst', m', hrun, hmem⟩ := ih (fun _ => hreads) (dst + bytes) m₁ hrest
    refine ⟨dst', m', ?_, ?_⟩
    · rw [List.foldlM_cons]
      dsimp only
      rw [hm₁]
      exact hrun
    · rw [hmem, hmem₁, ← hp, List.map_cons, transfers_cons]

/-! ## Sections -/

/-- The products of the outer loops fit in `int`, as far as the walk goes. -/
def OuterFits (loops : List Axis) : Prop :=
  ∀ a ∈ loops.dropLast.takeWhile (fun a => a.count ≠ 0), InInt ((a.count - 1 : ℤ) * a.src)

theorem outerFits_cons {a b : Axis} {inner : List Axis} (ha : a.count ≠ 0) :
    OuterFits (a :: b :: inner) ↔
      InInt ((a.count - 1 : ℤ) * a.src) ∧ OuterFits (b :: inner) := by
  rw [OuterFits, List.dropLast_cons_cons, List.takeWhile_cons_of_pos (by simpa using ha),
    List.forall_mem_cons]
  rfl

theorem outerFits_empty {a b : Axis} {inner : List Axis} (ha : a.count = 0) :
    OuterFits (a :: b :: inner) := by
  rw [OuterFits, List.dropLast_cons_cons, List.takeWhile_cons_of_neg (by simpa using ha)]
  intro c hc
  cases hc

theorem getVectorIter_unfit {loops : List Axis} (h : ¬ OuterFits loops) (dma : Option (ℤ × ℤ))
    (bytes : ℕ) (baseAddr : ℤ) (t : ℤ × GetMem β) :
    getVectorIter E remote dma bytes loops baseAddr t = none := by
  induction loops generalizing baseAddr t with
  | nil => rfl
  | cons a inner ih =>
    cases inner with
    | nil =>
      apply absurd _ h
      intro c hc
      cases hc
    | cons b inner =>
      have ha : a.count ≠ 0 := fun ha => h (outerFits_empty ha)
      rw [outerFits_cons ha, not_and_or] at h
      rw [getVectorIter]
      obtain hlast | hinner := h
      · -- the last product does not fit
        apply foldlM_range_none (Nat.sub_lt (Nat.pos_of_ne_zero ha) one_pos)
        intro u
        have hcast : ((a.count - 1 : ℕ) : ℤ) = a.count - 1 := by omega
        rw [hcast, cint, if_neg hlast]
        rfl
      · apply foldlM_range_none (Nat.pos_of_ne_zero ha)
        intro u
        rw [cint_zero_mul, Option.bind_some]
        exact ih hinner _ _

theorem getVectorIter_eq_nest {loops : List Axis} (hne : loops ≠ []) (h : OuterFits loops)
    (dma : Option (ℤ × ℤ)) (bytes : ℕ) (d baseAddr : ℤ) (t : ℤ × GetMem β) :
    getVectorIter E remote dma bytes loops baseAddr t =
      nest (fun _ src (t : ℤ × GetMem β) =>
        (getVector E remote dma bytes src t.1 t.2).map fun m => (t.1 + bytes, m))
        loops d baseAddr t := by
  induction loops generalizing d baseAddr t with
  | nil => exact absurd rfl hne
  | cons a inner ih =>
    cases inner with
    | nil => rfl
    | cons b inner =>
      rw [getVectorIter, nest]
      apply foldlM_range_congr
      intro i hi u
      obtain ⟨hlast, hinner⟩ := (outerFits_cons (Nat.ne_zero_of_lt hi)).mp h
      rw [cint_eq_some.mpr ⟨inInt_mul hi hlast, rfl⟩, Option.bind_some]
      exact ih (List.cons_ne_nil b inner) hinner _ _ _

theorem getVectorIter_eq {axes : List Axis} (hne : axes ≠ []) (h : OuterFits axes.reverse)
    (dma : Option (ℤ × ℤ)) (bytes : ℕ) (baseAddr dst : ℤ) (m : GetMem β) :
    getVectorIter E remote dma bytes axes.reverse baseAddr (dst, m) =
      (visited (packed bytes axes).reverse dst baseAddr).foldlM (fun (t : ℤ × GetMem β) p =>
        (getVector E remote dma bytes p.2 t.1 t.2).map fun m => (t.1 + bytes, m)) (dst, m) := by
  have hne' : axes.reverse ≠ [] := by simpa using hne
  rw [getVectorIter_eq_nest hne' h dma bytes 0]
  have hbody := nest_freeze (fun src (t : ℤ × GetMem β) =>
    (getVector E remote dma bytes src t.1 t.2).map fun m => (t.1 + bytes, m))
  have hleft := hbody axes.reverse 0 0 baseAddr (dst, m)
  have hright := hbody (packed bytes axes).reverse dst 0 baseAddr (dst, m)
  rw [List.map_reverse, map_freeze_packed, ← List.map_reverse, ← hleft, nest_eq_foldlM] at hright
  exact hright.symm

theorem collapse_packed (bytes : ℕ) (axes : List Axis) : collapse bytes (packed bytes axes) =
    (collapseSkip bytes axes).map fun p => (p.1, packed p.1 p.2) := by
  induction axes generalizing bytes with
  | nil => rfl
  | cons a axes ih =>
    rw [packed, collapse, collapseSkip]
    by_cases ha : (bytes : ℤ) = a.src
    · rw [if_pos ⟨rfl, ha⟩, if_pos ha]
      cases hx : cnat (bytes * a.count) with
      | none => rfl
      | some x =>
        obtain ⟨-, rfl⟩ := cnat_eq_some.mp hx
        exact ih _
    · rw [if_neg fun h => ha h.2, if_neg ha]
      rfl

theorem map_stored (chunkDMA : Option ℤ) (result d s : ℤ) (loops : List Axis) :
    (visited loops d s).map (fun p => (stored (chunkDMA.map fun orgAddrDMA =>
      (orgAddrDMA, result - orgAddrDMA)) p.1, p.2 - E.orgAddr)) =
    if chunkDMA = none then visited loops d (s - E.orgAddr)
    else visited (loops.map Axis.freeze) result (s - E.orgAddr) := by
  cases chunkDMA with
  | none =>
    have := visited_shift loops d s 0 (-E.orgAddr)
    rw [add_zero, ← sub_eq_add_neg] at this
    rw [if_pos rfl, this]
    simp [stored, sub_eq_add_neg]
  | some c =>
    have := visited_shift loops d s 0 (-E.orgAddr)
    rw [add_zero, ← sub_eq_add_neg] at this
    rw [if_neg (by simp), ← map_visited_freeze loops d, this, List.map_map]
    simp [stored, sub_eq_add_neg, Function.comp_def]

variable {axes rest : List Axis} {element : ℕ} {baseAddr result : ℤ}

theorem getCoarray_spec (remote : ℤ → β) (baseAddr result : ℤ) {dma : Option (ℤ × ℤ)}
    (hc : collapseSkip element axes = some (bytes, rest)) (hfits : OuterFits rest.reverse)
    (h : dma = none → elements rest = 0 ∨ E.Reads bytes) (m : GetMem β) :
    ∃ m', getCoarray E remote dma element axes baseAddr result m = some m' ∧
      m'.mem = transfers bytes remote m.mem
        ((visited (packed bytes rest).reverse result baseAddr).map
        fun p => (stored dma p.1, p.2 - E.orgAddr)) := by
  rw [getCoarray, hc, Option.bind_some]
  cases rest with
  | nil =>
    have hreads : dma = none → E.Reads bytes := by
      intro hdma
      obtain h0 | hreads := h hdma
      · cases h0
      · exact hreads
    exact getVector_spec hreads baseAddr result m
  | cons a rest =>
    have hreads : visited (packed bytes (a :: rest)).reverse result baseAddr ≠ [] → dma = none →
        E.Reads bytes := by
      intro hne hdma
      obtain h0 | hreads := h hdma
      · rw [← elements_packed bytes, ← elements_reverse] at h0
        exact absurd (visited_eq_nil.mpr h0) hne
      · exact hreads
    obtain ⟨dst', m', hrun, hmem⟩ := getVectors_spec remote _ hreads result m
      (adjacent_visited (dense_packed bytes (a :: rest)) result baseAddr)
    refine ⟨m', ?_, hmem⟩
    dsimp only
    rw [getVectorIter_eq (List.cons_ne_nil a rest) hfits, hrun]
    rfl

theorem getCoarray_unfit {dma : Option (ℤ × ℤ)}
    (hc : collapseSkip element axes = some (bytes, rest))
    (h : ¬ OuterFits rest.reverse) (m : GetMem β) :
    getCoarray E remote dma element axes baseAddr result m = none := by
  rw [getCoarray, hc, Option.bind_some]
  cases rest with
  | nil =>
    apply absurd _ h
    intro c hc
    cases hc
  | cons a rest =>
    dsimp only
    rw [getVectorIter_unfit h, Option.map_none]

theorem getCoarray_none {dma : Option (ℤ × ℤ)} (hc : collapseSkip element axes = some (bytes, rest))
    (hfits : OuterFits rest.reverse) (hdma : dma = none) (h : ¬ (elements rest = 0 ∨ E.Reads bytes))
    (m : GetMem β) :
    getCoarray E remote dma element axes baseAddr result m = none := by
  rw [not_or] at h
  subst hdma
  rw [getCoarray, hc, Option.bind_some]
  cases rest with
  | nil => exact getVectorRounds_none h.2 _ _ _
  | cons a rest =>
    dsimp only
    rw [getVectorIter_eq (List.cons_ne_nil a rest) hfits]
    cases hv : visited (packed bytes (a :: rest)).reverse result baseAddr with
    | nil =>
      rw [visited_eq_nil, elements_reverse, elements_packed] at hv
      exact absurd hv h.1
    | cons p ps =>
      have hnone := @getVectorRounds_none β E remote bytes bytes h.2 p.2 result m
      rw [List.foldlM_cons]
      dsimp only [getVector, getVectorBuffer]
      rw [hnone]
      rfl

/-- The element is a multiple of `COMM_UNIT`, the base address lies in the chunk, the lengths and
the distances of the outer loops fit in `int`, and the section is one vector where the result is
registered, or the buffer is not empty. -/
def GetEnv.GetOk (E : GetEnv) (chunkDMA : Option ℤ) (element : ℕ) (axes : List Axis)
    (baseAddr : ℤ) :
    Prop :=
  element % E.commUnit = 0 ∧ E.isAddrInCoarrayChunk baseAddr ∧
    ∃ bytes rest, collapseSkip element axes = some (bytes, rest) ∧ OuterFits rest.reverse ∧
      if chunkDMA = none then elements rest = 0 ∨ E.Reads bytes
      else bytes = 0 ∨ elements rest ≤ 1

theorem transfers_collapseSkip (hc : collapseSkip element axes = some (bytes, rest))
    (remote mem : ℤ → β) (d s : ℤ) :
    transfers element remote mem (visited (packed element axes).reverse d s) =
      transfers bytes remote mem (visited (packed bytes rest).reverse d s) := by
  apply transfers_collapse
  rw [collapse_packed, hc]
  rfl

/-- A get stores the section in array-element order, whatever the memories hold, if and only if it
reads no more than one vector into a registered result. -/
theorem getArray_stored_iff (E : GetEnv) (chunkDMA : Option ℤ) (element : ℕ) (axes : List Axis)
    (baseAddr result : ℤ) :
    (∀ remote mem buf : ℤ → UInt8, ∃ m',
      getArray E remote chunkDMA element axes baseAddr result ⟨mem, buf⟩ = some m' ∧
      StoredInOrder element axes result (baseAddr - E.orgAddr) remote mem m'.mem) ↔
    E.GetOk chunkDMA element axes baseAddr := by
  have hmap := map_stored (E := E) chunkDMA result result baseAddr
  constructor
  · intro h
    obtain ⟨m', hget, hstored⟩ := h (fun _ => 0) (fun _ => 1) (fun _ => 0)
    unfold getArray at hget
    have hunit : element % E.commUnit = 0 := by
      by_contra hne
      rw [if_pos hne] at hget
      cases hget
    rw [if_neg (not_not.mpr hunit)] at hget
    have hchunk : E.isAddrInCoarrayChunk baseAddr := by
      by_contra hne
      rw [if_pos hne] at hget
      cases hget
    rw [if_neg (not_not.mpr hchunk)] at hget
    refine ⟨hunit, hchunk, ?_⟩
    cases hc : collapseSkip element axes with
    | none =>
      rw [getCoarray, hc] at hget
      cases hget
    | some p =>
      obtain ⟨bytes, rest⟩ := p
      have hfits : OuterFits rest.reverse := by
        by_contra hno
        rw [getCoarray_unfit hc hno] at hget
        cases hget
      refine ⟨bytes, rest, rfl, hfits, ?_⟩
      cases chunkDMA with
      | none =>
        rw [if_pos rfl]
        by_contra hno
        rw [getCoarray_none hc hfits (by rfl) hno] at hget
        cases hget
      | some orgAddrDMA =>
        rw [if_neg (by simp)]
        by_contra hno
        rw [not_or, not_le] at hno
        have hdma : (some orgAddrDMA).map (fun orgAddrDMA => (orgAddrDMA, result - orgAddrDMA)) =
            none → elements rest = 0 ∨ E.Reads bytes := by
          intro hnone
          cases hnone
        obtain ⟨c, hrun, hmem⟩ := getCoarray_spec (fun _ => 0) baseAddr result hc hfits hdma
          ⟨fun _ => (1 : UInt8), fun _ => 0⟩
        rw [hget] at hrun
        obtain rfl := Option.some.inj hrun
        rw [storedInOrder_iff_eq, transfers_collapseSkip hc, hmem] at hstored
        rw [hmap, if_neg (by simp)] at hstored
        have hmany : 1 < elements (packed bytes rest) := by
          rw [elements_packed]
          exact hno.2
        apply @transfers_freeze_ne _ bytes result (baseAddr - E.orgAddr) [] (packed bytes rest)
          (Nat.pos_of_ne_zero hno.1) (sectionDisjoint_packed bytes rest)
          (Nat.ne_zero_of_lt hmany) hmany (0 : UInt8) 1 (by decide)
        rw [List.reverse_nil, List.append_nil]
        exact hstored
  · intro ⟨hunit, hchunk, bytes, rest, hc, hfits, hok⟩ remote mem buf
    unfold getArray
    rw [if_neg (not_not.mpr hunit), if_neg (not_not.mpr hchunk)]
    have hreads : (chunkDMA.map fun orgAddrDMA => (orgAddrDMA, result - orgAddrDMA)) = none →
        elements rest = 0 ∨ E.Reads bytes := by
      intro hnone
      rwa [if_pos (Option.map_eq_none_iff.mp hnone)] at hok
    obtain ⟨m', hrun, hmem⟩ := getCoarray_spec remote baseAddr result hc hfits hreads ⟨mem, buf⟩
    refine ⟨m', hrun, ?_⟩
    rw [storedInOrder_iff_eq, transfers_collapseSkip hc, hmem, hmap]
    by_cases hnone : chunkDMA = none
    · rw [if_pos hnone]
    · rw [if_neg hnone] at hok ⊢
      obtain h0 | hle := hok
      · rw [h0, transfers_zero, transfers_zero]
      · obtain h0 | hone : elements rest = 0 ∨ elements rest = 1 := by omega
        · rw [visited_eq_nil.mpr (by rw [elements_freeze, elements_reverse, elements_packed, h0]),
            visited_eq_nil.mpr (by rw [elements_reverse, elements_packed, h0])]
        · rw [visited_freeze_of_elements_eq_one (by rw [elements_reverse, elements_packed, hone])]

/-- Every other one of two elements, read into a registered result: both come to its first place. -/
theorem getArray_registered_lost :
    ¬ ∃ m', getArray ⟨4, 400000, 0, 64⟩ (fun _ => (1 : UInt8)) (some 0) 4 [⟨2, 0, 8⟩] 0 32
        ⟨fun _ => 0, fun _ => 0⟩ = some m' ∧
      StoredInOrder 4 [⟨2, 0, 8⟩] 32 (0 - 0) (fun _ => 1) (fun _ => 0) m'.mem := by
  intro ⟨m', hget, hstored⟩
  have hread : (getArray ⟨4, 400000, 0, 64⟩ (fun _ => (1 : UInt8)) (some 0) 4 [⟨2, 0, 8⟩] 0 32
      ⟨fun _ => 0, fun _ => 0⟩).map (fun m => m.mem 36) = some 0 := by decide +kernel
  rw [hget, Option.map_some] at hread
  have hsecond := hstored.stored 1 [1] (by decide) 0 (by decide)
  exact absurd (hsecond.symm.trans (Option.some.inj hread)) (by decide)

end OmniCompiler.Xmpf
