import OmniCompiler.Xmpf.CoarrayGet

/-!
# Get of a coindexed section into a local section (`xmpf_coarray_getsub.c`)

The code is the one of the put with the direction of the data turned around, except
in the packing walk. There the local elements are still copied into the local buffer,
and flushing it reads the remote data over them; nothing is copied out.
-/
namespace OmniCompiler.Xmpf

open Memory MachineInt

variable {β : Type}

def GetEnv.bufSize (E : GetEnv) : ℤ := toInt E.localBufSize

namespace Getsub

/-- The memory, `_localBuf_used` and `_remote_baseAddr`. -/
structure LocalBuf (β : Type) where
  m : GetMem β
  used : ℕ
  remoteAddr : ℤ

section Code

variable (E : GetEnv) (remote : ℤ → β)

def initLocalBuf (dst : ℤ) (b : LocalBuf β) : LocalBuf β := { b with remoteAddr := dst, used := 0 }

def flushLocalBuf (b : LocalBuf β) : LocalBuf β :=
  if 0 < b.used then
    { m := { b.m with buf := getVectorDMA E remote b.remoteAddr b.used 0 0 b.m.buf }
      remoteAddr := b.remoteAddr + b.used
      used := 0 }
  else b

def fillLocalBuf (bytes : ℕ) (src : ℤ) (b : LocalBuf β) : LocalBuf β :=
  { b with
    m := { b.m with buf := transfer bytes b.m.mem b.m.buf b.used src }
    used := b.used + bytes }

/-- The loop of `_push_localBuf` for huge data: the bytes that are left, their address and the
buffer. A loop that advances ends within `bytes` rounds; `none` is one that does not end, or the
copying of a negative number of bytes. -/
def pushHuge : ℕ → ℕ → ℤ → LocalBuf β → Option (ℕ × ℤ × LocalBuf β)
  | 0, bytes, src, b => if (bytes : ℤ) ≤ E.bufSize then some (bytes, src, b) else none
  | rounds + 1, bytes, src, b =>
    if (bytes : ℤ) ≤ E.bufSize then some (bytes, src, b)
    else if E.bufSize < 0 then none
    else
      let copySize := E.bufSize.toNat
      pushHuge rounds (bytes - copySize) (src + copySize)
        (flushLocalBuf E remote (fillLocalBuf copySize src { b with used := 0 }))

def pushLocalBuf (src0 : ℤ) (bytes0 : ℕ) (b : LocalBuf β) : Option (LocalBuf β) :=
  (cnat (b.used + bytes0)).bind fun total =>
    if E.bufSize ≤ total then
      (pushHuge E remote bytes0 bytes0 src0 (flushLocalBuf E remote b)).map
        fun (bytes, src, b) => if bytes = 0 then b else fillLocalBuf bytes src b
    else some (if bytes0 = 0 then b else fillLocalBuf bytes0 src0 b)

def getsubVectorIterDMA (bytes : ℕ) (axes : List Axis) (baseAddr orgAddrDMA offsetDMA : ℤ)
    (m : GetMem β) : Option (GetMem β) :=
  nest (fun offset src m =>
      some { m with mem := getVectorDMA E remote src bytes orgAddrDMA offset m.mem })
    axes.reverse offsetDMA baseAddr m

def getsubVectorIterBuffer (bytes : ℕ) (axes : List Axis) (baseAddr loc : ℤ) (m : GetMem β) :
    Option (GetMem β) :=
  nest (fun dst src m => getVectorBuffer E remote bytes src dst m) axes.reverse loc baseAddr m

def getsubVectorIterBufferPack1 (bytes : ℕ) (loops : List Axis) (loc : ℤ) (b : LocalBuf β) :
    Option (LocalBuf β) :=
  nest (fun src _ b => pushLocalBuf E remote src bytes b) loops loc 0 b

/-- `_getsubVectorIter_bufferPack`; the last axis of the source is the first one of `loops`. -/
def getsubVectorIterBufferPack (bytes contiguity : ℕ) (baseAddr : ℤ) :
    List Axis → ℤ → LocalBuf β → Option (LocalBuf β)
  | [], _, _ => none
  | a :: loops, loc, b =>
    if contiguity = (a :: loops).length then
      (getsubVectorIterBufferPack1 E remote bytes (a :: loops) loc (initLocalBuf baseAddr b)).map
        (flushLocalBuf E remote)
    else (List.range a.count).foldlM
      (fun b (i : ℕ) => getsubVectorIterBufferPack bytes contiguity baseAddr loops
        (loc + i * a.dst) b)
      b

def getsubCoarrayBufferPack (bytes : ℕ) (axes : List Axis) (baseAddr loc : ℤ) (m : GetMem β) :
    Option (GetMem β) :=
  (contiguity Axis.src bytes axes).bind fun contiguity =>
    (getsubVectorIterBufferPack E remote bytes contiguity baseAddr axes.reverse loc
      { m := m, used := 0, remoteAddr := baseAddr }).map LocalBuf.m

def getsubCoarrayDMA (bytes : ℕ) (axes : List Axis) (baseAddr orgAddrDMA offsetDMA : ℤ)
    (m : GetMem β) : Option (GetMem β) :=
  (collapse bytes axes).bind fun (bytes, axes) =>
    match axes with
    | [] => some { m with mem := getVectorDMA E remote baseAddr bytes orgAddrDMA offsetDMA m.mem }
    | axes => getsubVectorIterDMA E remote bytes axes baseAddr orgAddrDMA offsetDMA m

def getsubCoarrayBuffer (bytes : ℕ) (axes : List Axis) (baseAddr loc : ℤ) (m : GetMem β) :
    Option (GetMem β) :=
  (collapse bytes axes).bind fun (bytes, axes) =>
    match axes with
    | [] => getVectorBuffer E remote bytes baseAddr loc m
    | a :: axes =>
      if (bytes : ℤ) ≠ a.src then getsubVectorIterBuffer E remote bytes (a :: axes) baseAddr loc m
      else (cnat (bytes * 2)).bind fun twice =>
        if E.bufSize < twice then getsubVectorIterBuffer E remote bytes (a :: axes) baseAddr loc m
        else getsubCoarrayBufferPack E remote bytes (a :: axes) baseAddr loc m

/-- `xmpf_coarray_getsub_array_`. `chunkDMA` is the address of the registered chunk of the local
array, if there is one and the eager mode is off. The axes have `skip_local[]` as distances at the
destination and `skip[]` as those at the source. -/
def getsubArray (chunkDMA : Option ℤ) (element : ℕ) (axes : List Axis) (baseAddr loc : ℤ)
    (m : GetMem β) : Option (GetMem β) :=
  if element % E.commUnit ≠ 0 then none
  else match chunkDMA with
    | some orgAddrDMA =>
      getsubCoarrayDMA E remote element axes baseAddr orgAddrDMA (loc - orgAddrDMA) m
    | none => getsubCoarrayBuffer E remote element axes baseAddr loc m

end Code

/-! ## The packing walk -/

variable {E : GetEnv} {remote : ℤ → β} {bytes : ℕ}

theorem flush_mem (b : LocalBuf β) : (flushLocalBuf E remote b).m.mem = b.m.mem := by
  unfold flushLocalBuf
  split_ifs
  · rfl
  · rfl

theorem pushHuge_mem {rounds bytes' : ℕ} {src src' : ℤ} {b b' : LocalBuf β}
    (h : pushHuge E remote rounds bytes src b = some (bytes', src', b')) : b'.m.mem = b.m.mem := by
  induction rounds generalizing bytes src b with
  | zero =>
    rw [pushHuge] at h
    split_ifs at h
    cases h
    rfl
  | succ rounds ih =>
    rw [pushHuge] at h
    split_ifs at h
    · cases h
      rfl
    · rw [ih h, flush_mem]
      rfl

theorem push_mem {src : ℤ} {b b' : LocalBuf β} (h : pushLocalBuf E remote src bytes b = some b') :
    b'.m.mem = b.m.mem := by
  obtain ⟨total, -, h⟩ := Option.bind_eq_some_iff.mp h
  by_cases hfull : E.bufSize ≤ total
  · rw [if_pos hfull] at h
    obtain ⟨⟨bytes', src', c⟩, hc, hb'⟩ := Option.map_eq_some_iff.mp h
    have hmem := pushHuge_mem hc
    rw [flush_mem] at hmem
    dsimp only at hb'
    split_ifs at hb'
    · rw [← hb', hmem]
    · rw [← hb', ← hmem]
      rfl
  · rw [if_neg hfull] at h
    split_ifs at h
    · rw [← Option.some.inj h]
    · rw [← Option.some.inj h]
      rfl

theorem bufferPack_mem {contiguity : ℕ} {loops : List Axis} {baseAddr loc : ℤ} {b b' : LocalBuf β}
    (h : getsubVectorIterBufferPack E remote bytes contiguity baseAddr loops loc b = some b') :
    b'.m.mem = b.m.mem := by
  induction loops generalizing loc b b' with
  | nil => cases h
  | cons a loops ih =>
    rw [getsubVectorIterBufferPack] at h
    split_ifs at h
    · obtain ⟨c, hc, rfl⟩ := Option.map_eq_some_iff.mp h
      rw [getsubVectorIterBufferPack1, nest_eq_foldlM] at hc
      rw [flush_mem]
      refine (foldlM_keeps (fun b : LocalBuf β => b.m.mem) ?_ hc).trans rfl
      intro t p t' ht
      exact push_mem ht
    · refine foldlM_keeps (fun b : LocalBuf β => b.m.mem) ?_ h
      intro t i t' ht
      exact ih ht

theorem push_nothing (hsize : 0 ≤ E.bufSize) (src : ℤ) {b : LocalBuf β} (hb : b.used = 0) :
    pushLocalBuf E remote src 0 b = some b := by
  have hflush : flushLocalBuf E remote b = b := by
    unfold flushLocalBuf
    rw [hb, if_neg (by decide)]
  have hle : ((0 : ℕ) : ℤ) ≤ E.bufSize := by omega
  unfold pushLocalBuf
  rw [hb, cnat_of_lt (by decide), Option.bind_some, hflush, pushHuge, if_pos hle]
  by_cases hfull : E.bufSize ≤ ((0 + 0 : ℕ) : ℤ)
  · rw [if_pos hfull]
    rfl
  · rw [if_neg hfull]
    rfl

theorem bufferPack_nothing {contiguity : ℕ} {loops : List Axis} (hsize : 0 ≤ E.bufSize)
    (h : bytes = 0 ∨ elements loops = 0) (hpos : 0 < contiguity) (hlen : contiguity ≤ loops.length)
    (baseAddr loc : ℤ) (b : LocalBuf β) : ∃ b',
      getsubVectorIterBufferPack E remote bytes contiguity baseAddr loops loc b = some b' := by
  induction loops generalizing loc b with
  | nil =>
    rw [List.length_nil] at hlen
    omega
  | cons a loops ih =>
    rw [getsubVectorIterBufferPack]
    by_cases heq : contiguity = (a :: loops).length
    · rw [if_pos heq, getsubVectorIterBufferPack1, nest_eq_foldlM]
      have hpushes : ∃ b', (visited (a :: loops) loc 0).foldlM
          (fun b p => pushLocalBuf E remote p.1 bytes b) (initLocalBuf baseAddr b) = some b' ∧
          b'.used = 0 := by
        apply foldlM_isSome (fun b : LocalBuf β => b.used = 0) _ rfl
        intro t p hp ht
        obtain rfl | h0 := h
        · exact ⟨t, push_nothing hsize p.1 ht, ht⟩
        · rw [visited_eq_nil.mpr h0] at hp
          cases hp
      obtain ⟨b', hb', -⟩ := hpushes
      exact ⟨flushLocalBuf E remote b', by rw [hb', Option.map_some]⟩
    · rw [if_neg heq]
      have hlen' : contiguity ≤ loops.length := by
        rw [List.length_cons] at hlen heq
        omega
      have hrows : ∃ b', (List.range a.count).foldlM (fun b (i : ℕ) => getsubVectorIterBufferPack E
          remote bytes contiguity baseAddr loops (loc + i * a.dst) b) b = some b' ∧ True := by
        apply foldlM_isSome (fun _ => True) _ trivial
        intro t i hi _
        have hrest : bytes = 0 ∨ elements loops = 0 := by
          obtain hb | h0 := h
          · exact Or.inl hb
          · rw [elements_cons] at h0
            obtain hc | h0 := Nat.mul_eq_zero.mp h0
            · rw [hc] at hi
              cases hi
            · exact Or.inr h0
        obtain ⟨t', ht'⟩ := ih hrest hlen' (loc + i * a.dst) t
        exact ⟨t', ht', trivial⟩
      obtain ⟨b', hb', -⟩ := hrows
      exact ⟨b', hb'⟩

/-! ## Sections -/

/-- There is nothing to get, or the vectors of this length can be got one by one. -/
def VectorsOk (E : GetEnv) (bytes : ℕ) (axes : List Axis) : Prop :=
  elements axes = 0 ∨ E.Reads bytes

/-- A collapsed section that is got through the local buffer: nothing can be got by packing. -/
def BufferOk (E : GetEnv) (bytes : ℕ) : List Axis → Prop
  | [] => E.Reads bytes
  | a :: axes =>
    if (bytes : ℤ) ≠ a.src then VectorsOk E bytes (a :: axes)
    else bytes * 2 < 2 ^ 31 ∧
      if E.bufSize < (bytes * 2 : ℕ) then VectorsOk E bytes (a :: axes)
      else (contiguity Axis.src bytes (a :: axes)).isSome = true ∧ bytes * elements (a :: axes) = 0

/-- The element is a multiple of `COMM_UNIT`, the lengths fit in `int`, and a section got through
the local buffer is not packed unless there is nothing to get. -/
def GetsubOk (E : GetEnv) (chunkDMA : Option ℤ) (element : ℕ) (axes : List Axis) : Prop :=
  element % E.commUnit = 0 ∧ ∃ bytes rest, collapse element axes = some (bytes, rest) ∧
    (chunkDMA = none → BufferOk E bytes rest)

variable {axes rest : List Axis} {element : ℕ} {baseAddr loc : ℤ} {m m' : GetMem β}

theorem vectorIterBuffer_spec (h : VectorsOk E bytes axes) :
    ∃ m', getsubVectorIterBuffer E remote bytes axes baseAddr loc m = some m' ∧
      m'.mem = transfers bytes remote m.mem (visited axes.reverse loc (baseAddr - E.orgAddr)) := by
  have hbody : ∀ p ∈ visited axes.reverse loc baseAddr, ∀ t : GetMem β, ∃ t',
      getVectorBuffer E remote bytes p.2 p.1 t = some t' ∧
      t'.mem = transfers bytes remote t.mem (visited [] (p.1 + 0) (p.2 + -E.orgAddr)) := by
    intro p hp t
    obtain h0 | hreads := h
    · rw [← elements_reverse, ← visited_eq_nil (d := loc) (s := baseAddr)] at h0
      rw [h0] at hp
      cases hp
    · obtain ⟨t', ht', hmem⟩ := getVectorRounds_spec hreads le_rfl p.2 p.1 t
      refine ⟨t', ht', ?_⟩
      rw [hmem, visited, transfers_cons, transfers_nil, add_zero, sub_eq_add_neg]
  have := nest_transfers GetMem.mem (fun dst src m => getVectorBuffer E remote bytes src dst m)
    hbody m
  rwa [List.append_nil, add_zero, ← sub_eq_add_neg] at this

theorem vectorIterBuffer_none (h : ¬ VectorsOk E bytes axes) :
    getsubVectorIterBuffer E remote bytes axes baseAddr loc m = none := by
  unfold VectorsOk at h
  rw [not_or, ← elements_reverse] at h
  rw [getsubVectorIterBuffer, nest_eq_foldlM]
  cases hv : visited axes.reverse loc baseAddr with
  | nil => exact absurd (visited_eq_nil.mp hv) h.1
  | cons p ps =>
    have hnone := @getVectorRounds_none β E remote bytes bytes h.2 p.2 p.1 m
    rw [List.foldlM_cons, getVectorBuffer, hnone]
    rfl

theorem coarrayBufferPack_mem
    (h : getsubCoarrayBufferPack E remote bytes axes baseAddr loc m = some m') :
    m'.mem = m.mem := by
  obtain ⟨k, -, h⟩ := Option.bind_eq_some_iff.mp h
  obtain ⟨b', hb', rfl⟩ := Option.map_eq_some_iff.mp h
  exact bufferPack_mem hb'

theorem coarrayBufferPack_nothing {a : Axis} (ha : (bytes : ℤ) = a.src) (hsize : 0 ≤ E.bufSize)
    (hk : (contiguity Axis.src bytes (a :: axes)).isSome = true)
    (h : bytes * elements (a :: axes) = 0) :
    ∃ m', getsubCoarrayBufferPack E remote bytes (a :: axes) baseAddr loc m = some m' := by
  obtain ⟨k, hk⟩ := Option.isSome_iff_exists.mp hk
  have hlen := contiguity_le hk
  rw [← List.length_reverse] at hlen
  rw [Nat.mul_eq_zero, ← elements_reverse] at h
  obtain ⟨b', hb'⟩ := bufferPack_nothing hsize h (contiguity_pos ha hk) hlen baseAddr loc
    { m := m, used := 0, remoteAddr := baseAddr }
  refine ⟨b'.m, ?_⟩
  rw [getsubCoarrayBufferPack, hk, Option.bind_some, hb', Option.map_some]

theorem transfers_nothing (h : bytes * elements axes = 0) (mem : ℤ → β) (d s : ℤ) :
    transfers bytes remote mem (visited axes.reverse d s) = mem := by
  obtain h0 | h0 := Nat.mul_eq_zero.mp h
  · rw [h0, transfers_zero]
  · rw [visited_eq_nil.mpr (by rw [elements_reverse, h0])]
    rfl

theorem transfers_ne (h : bytes * elements axes ≠ 0) {x y : β} (hxy : x ≠ y) (d s : ℤ) :
    transfers bytes (fun _ => x) (fun _ => y) (visited axes.reverse d s) ≠ fun _ => y := by
  obtain ⟨hbytes, helements⟩ := Nat.mul_ne_zero_iff.mp h
  obtain ⟨p, hp⟩ := List.exists_mem_of_ne_nil (visited axes.reverse d s) (by
    rw [Ne, visited_eq_nil, elements_reverse]
    exact helements)
  intro heq
  have hcell := congrFun heq p.1
  rw [transfers_const ⟨p, hp, le_rfl, by omega⟩] at hcell
  exact hxy hcell

theorem coarrayBuffer_spec (hc : collapse element axes = some (bytes, rest))
    (h : BufferOk E bytes rest) :
    ∃ m', getsubCoarrayBuffer E remote element axes baseAddr loc m = some m' ∧
      m'.mem = transfers bytes remote m.mem (visited rest.reverse loc (baseAddr - E.orgAddr)) := by
  rw [getsubCoarrayBuffer, hc, Option.bind_some]
  cases rest with
  | nil => exact getVectorRounds_spec h le_rfl baseAddr loc m
  | cons a rest =>
    dsimp only
    rw [BufferOk] at h
    by_cases ha : (bytes : ℤ) ≠ a.src
    · rw [if_pos ha] at h ⊢
      exact vectorIterBuffer_spec h
    · rw [if_neg ha] at h ⊢
      rw [cnat_of_lt h.1, Option.bind_some]
      by_cases hlarge : E.bufSize < (bytes * 2 : ℕ)
      · rw [if_pos hlarge] at h ⊢
        exact vectorIterBuffer_spec h.2
      · rw [if_neg hlarge] at h ⊢
        have hsize : 0 ≤ E.bufSize := by omega
        obtain ⟨m', hm'⟩ := coarrayBufferPack_nothing (not_not.mp ha) hsize h.2.1 h.2.2
          (m := m)
        refine ⟨m', hm', ?_⟩
        rw [coarrayBufferPack_mem hm', transfers_nothing h.2.2]

/-- What the buffer scheme needs in order to get the section whatever its contents are. -/
theorem bufferOk_of_coarrayBuffer (hc : collapse element axes = some (bytes, rest)) {x y : β}
    (hxy : x ≠ y)
    (h : getsubCoarrayBuffer E (fun _ => x) element axes baseAddr loc m = some m')
    (hm : m.mem = fun _ => y)
    (hmem : m'.mem = transfers bytes (fun _ => x) (fun _ => y)
      (visited rest.reverse loc (baseAddr - E.orgAddr))) : BufferOk E bytes rest := by
  rw [getsubCoarrayBuffer, hc, Option.bind_some] at h
  cases rest with
  | nil =>
    by_contra hno
    dsimp only at h
    rw [getVectorBuffer, getVectorRounds_none hno] at h
    cases h
  | cons a rest =>
    dsimp only at h
    rw [BufferOk]
    have hvectors : getsubVectorIterBuffer E (fun _ => x) bytes (a :: rest) baseAddr loc m =
        some m' → VectorsOk E bytes (a :: rest) := by
      intro hget
      by_contra hno
      rw [vectorIterBuffer_none hno] at hget
      cases hget
    by_cases ha : (bytes : ℤ) ≠ a.src
    · rw [if_pos ha] at h ⊢
      exact hvectors h
    · rw [if_neg ha] at h ⊢
      by_cases hlarge : E.bufSize < (bytes * 2 : ℕ)
      · obtain ⟨twice, htwice, h⟩ := Option.bind_eq_some_iff.mp h
        obtain ⟨hlt, htwo⟩ := cnat_eq_some.mp htwice
        rw [← htwo, if_pos hlarge] at h
        rw [if_pos hlarge]
        exact ⟨hlt, hvectors h⟩
      · obtain ⟨twice, htwice, h⟩ := Option.bind_eq_some_iff.mp h
        obtain ⟨hlt, htwo⟩ := cnat_eq_some.mp htwice
        rw [← htwo, if_neg hlarge] at h
        rw [if_neg hlarge]
        have hkept := coarrayBufferPack_mem h
        obtain ⟨k, hk, -⟩ := Option.bind_eq_some_iff.mp h
        refine ⟨hlt, by rw [hk, Option.isSome_some], ?_⟩
        by_contra hne
        apply transfers_ne hne hxy loc (baseAddr - E.orgAddr)
        rw [← hmem, hkept, hm]

theorem coarrayDMA_spec (hc : collapse element axes = some (bytes, rest)) (orgAddrDMA : ℤ) :
    ∃ m', getsubCoarrayDMA E remote element axes baseAddr orgAddrDMA (loc - orgAddrDMA) m =
        some m' ∧
      m'.mem = transfers bytes remote m.mem (visited rest.reverse loc (baseAddr - E.orgAddr)) := by
  rw [getsubCoarrayDMA, hc, Option.bind_some]
  cases rest with
  | nil =>
    refine ⟨_, rfl, ?_⟩
    dsimp only [getVectorDMA]
    rw [add_sub_cancel]
    rfl
  | cons a rest =>
    have hbody : ∀ p ∈ visited (a :: rest).reverse (loc - orgAddrDMA) baseAddr, ∀ t : GetMem β,
        ∃ t', some { t with mem := getVectorDMA E remote p.2 bytes orgAddrDMA p.1 t.mem } =
          some t' ∧
        t'.mem = transfers bytes remote t.mem
          (visited [] (p.1 + orgAddrDMA) (p.2 + -E.orgAddr)) := by
      intro p _ t
      refine ⟨_, rfl, ?_⟩
      rw [visited, transfers_cons, transfers_nil, add_comm, ← sub_eq_add_neg]
      rfl
    have := nest_transfers GetMem.mem
      (fun offset src m =>
        some { m with mem := getVectorDMA E remote src bytes orgAddrDMA offset m.mem }) hbody m
    rw [List.append_nil, sub_add_cancel, ← sub_eq_add_neg] at this
    exact this

/-- A get into a local section is a get into a temporary followed by an assignment, whatever the
memories hold, if and only if nothing is packed. -/
theorem getsubArray_assigned_iff (E : GetEnv) (chunkDMA : Option ℤ) (element : ℕ) (axes : List Axis)
    (baseAddr loc : ℤ) :
    (∀ remote mem buf : ℤ → UInt8, ∃ m',
      getsubArray E remote chunkDMA element axes baseAddr loc ⟨mem, buf⟩ = some m' ∧
      GetThenAssigned element axes loc (baseAddr - E.orgAddr) remote mem m'.mem) ↔
    GetsubOk E chunkDMA element axes := by
  constructor
  · intro h
    obtain ⟨m', hget, hassigned⟩ := h (fun _ => 0) (fun _ => 1) (fun _ => 0)
    unfold getsubArray at hget
    have hunit : element % E.commUnit = 0 := by
      by_contra hne
      rw [if_pos hne] at hget
      cases hget
    rw [if_neg (not_not.mpr hunit)] at hget
    refine ⟨hunit, ?_⟩
    cases hc : collapse element axes with
    | none =>
      cases chunkDMA with
      | some orgAddrDMA =>
        dsimp only at hget
        rw [getsubCoarrayDMA, hc] at hget
        cases hget
      | none =>
        dsimp only at hget
        rw [getsubCoarrayBuffer, hc] at hget
        cases hget
    | some p =>
      obtain ⟨bytes, rest⟩ := p
      refine ⟨bytes, rest, rfl, ?_⟩
      intro hscheme
      subst hscheme
      apply bufferOk_of_coarrayBuffer hc (x := (0 : UInt8)) (y := 1) (by decide) hget rfl
      rw [getThenAssigned_iff_eq.mp hassigned, transfers_collapse hc]
  · intro ⟨hunit, bytes, rest, hc, hok⟩ remote mem buf
    unfold getsubArray
    rw [if_neg (not_not.mpr hunit)]
    cases chunkDMA with
    | some orgAddrDMA =>
      obtain ⟨m', hm', hmem⟩ := coarrayDMA_spec hc orgAddrDMA (E := E)
        (m := ⟨mem, buf⟩)
      refine ⟨m', hm', ?_⟩
      rw [getThenAssigned_iff_eq, hmem, transfers_collapse hc]
    | none =>
      obtain ⟨m', hm', hmem⟩ := coarrayBuffer_spec hc (hok rfl) (E := E)
        (m := ⟨mem, buf⟩)
      refine ⟨m', hm', ?_⟩
      rw [getThenAssigned_iff_eq, hmem, transfers_collapse hc]

/-- Two adjacent elements, got into every other local element: nothing comes to the local array. -/
theorem getsubArray_packed_lost : SectionDisjoint 4 [⟨2, 8, 4⟩] ∧
    ¬ ∃ m', getsubArray ⟨4, 400000, 0, 64⟩ (fun _ => (1 : UInt8)) none 4 [⟨2, 8, 4⟩] 0 0
        ⟨fun _ => 0, fun _ => 0⟩ = some m' ∧
      GetThenAssigned 4 [⟨2, 8, 4⟩] 0 (0 - 0) (fun _ => 1) (fun _ => 0) m'.mem := by
  have hd : SectionDisjoint 4 [⟨2, 8, 4⟩] := sectionDisjoint_iff.mpr (by decide)
  refine ⟨hd, ?_⟩
  intro ⟨m', hget, hassigned⟩
  have hread : (getsubArray ⟨4, 400000, 0, 64⟩ (fun _ => (1 : UInt8)) none 4 [⟨2, 8, 4⟩] 0 0
      ⟨fun _ => 0, fun _ => 0⟩).map (fun m => m.mem 0) = some 0 := by decide +kernel
  rw [hget, Option.map_some] at hread
  have hfirst := (hassigned.elements hd).moved [0] (mem_indices.mp (by decide)) 0 (by decide)
  exact absurd (hfirst.symm.trans (Option.some.inj hread)) (by decide)

end Getsub

end OmniCompiler.Xmpf
