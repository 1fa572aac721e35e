import OmniCompiler.Xmpf.CoarrayAxes

/-!
# Put to a coindexed section (`xmpf_coarray_put.c`)

A put writes the vectors of the collapsed section one by one, either straight from
a registered chunk, or through the local buffer, or it packs several vectors into
the buffer. The packing walk is made for a coarray that is contiguous from the
first axis on. It starts the buffer anew at every index of the axes that are not
contiguous, but always for the same remote address.
-/
namespace OmniCompiler.Xmpf

open Memory MachineInt

variable {β : Type}

/-- What does not change between the calls: `COMM_UNIT`, `XMPF_get_localBufSize()` and
`XMPF_isSafeBufferMode()`. -/
structure PutEnv where
  commUnit : ℕ
  localBufSize : ℕ
  safe : Bool

def PutEnv.bufSize (E : PutEnv) : ℤ := toInt E.localBufSize

structure LocalBuf (β : Type) where
  contents : ℤ → β
  used : ℕ
  target : ℤ
  remote : ℤ → β

section Code

variable (E : PutEnv) (orgAddr : ℤ) (loc : ℤ → β)

/-- `_putVector_DMA` for an asynchronous put. `dma` is the registered chunk that is read. -/
def putVectorDMA (baseAddr : ℤ) (bytes : ℕ) (dma : ℤ → β) (offsetDMA : ℤ)
    (remote : ℤ → β) : ℤ → β :=
  transfer bytes dma remote (baseAddr - orgAddr) offsetDMA

def initLocalBuf (dst : ℤ) (b : LocalBuf β) : LocalBuf β := { b with target := dst, used := 0 }

def flushLocalBuf (b : LocalBuf β) : LocalBuf β :=
  if 0 < b.used then
    { b with
      remote := putVectorDMA orgAddr b.target b.used b.contents 0 b.remote
      target := b.target + b.used
      used := 0 }
  else b

/-- The loop of `_push_localBuf` for huge data: the bytes that are left, their address and the
buffer. A loop that advances ends within `bytes` rounds; `none` is one that does not end, or the
copying of a negative number of bytes. -/
def pushHuge : ℕ → ℕ → ℤ → LocalBuf β → Option (ℕ × ℤ × LocalBuf β)
  | 0, bytes, src, b => if (bytes : ℤ) ≤ E.bufSize then some (bytes, src, b) else none
  | rounds + 1, bytes, src, b =>
    if (bytes : ℤ) ≤ E.bufSize then some (bytes, src, b)
    else if E.bufSize < 0 then none
    else
      let copySize := E.bufSize.toNat
      pushHuge rounds (bytes - copySize) (src + copySize) (flushLocalBuf orgAddr
        { b with contents := transfer copySize loc b.contents 0 src, used := copySize })

/-- The end of `_push_localBuf`. -/
def appendLocalBuf (bytes : ℕ) (src : ℤ) (b : LocalBuf β) : LocalBuf β :=
  if bytes = 0 then b
  else { b with contents := transfer bytes loc b.contents b.used src, used := b.used + bytes }

def pushLocalBuf (src0 : ℤ) (bytes0 : ℕ) (b : LocalBuf β) : Option (LocalBuf β) :=
  (cnat (b.used + bytes0)).bind fun total =>
    if E.bufSize ≤ total then
      (pushHuge E orgAddr loc bytes0 bytes0 src0 (flushLocalBuf orgAddr b)).map
        fun (bytes, src, b) => appendLocalBuf loc bytes src b
    else some (appendLocalBuf loc bytes0 src0 b)

/-- `_putVector_buffer` and `_putVector_buffer_SAFE`, where the buffer is a new one. -/
def putVectorBuffer (bytes : ℕ) (baseAddr rhs : ℤ) (b : LocalBuf β) : Option (LocalBuf β) :=
  if E.safe then
    let buf := transfer bytes loc b.contents 0 rhs
    some { b with remote := transfer bytes buf b.remote (baseAddr - orgAddr) 0 }
  else
    (pushLocalBuf E orgAddr loc rhs bytes (initLocalBuf baseAddr b)).map (flushLocalBuf orgAddr)

def putVectorIterDMA (bytes : ℕ) (dma : ℤ → β) (axes : List Axis) (baseAddr offsetDMA : ℤ)
    (remote : ℤ → β) : Option (ℤ → β) :=
  nest (fun dst offset remote => some (putVectorDMA orgAddr dst bytes dma offset remote))
    axes.reverse baseAddr offsetDMA remote

def putVectorIterBuffer (bytes : ℕ) (axes : List Axis) (baseAddr rhs : ℤ) (b : LocalBuf β) :
    Option (LocalBuf β) :=
  nest (putVectorBuffer E orgAddr loc bytes) axes.reverse baseAddr rhs b

def putVectorIterBufferPack1 (bytes : ℕ) (loops : List Axis) (rhs : ℤ) (b : LocalBuf β) :
    Option (LocalBuf β) :=
  nest (fun _ src b => pushLocalBuf E orgAddr loc src bytes b) loops 0 rhs b

/-- `_putVectorIter_bufferPack`; the last axis of the source is the first one of `loops`. -/
def putVectorIterBufferPack (bytes contiguity : ℕ) (baseAddr : ℤ) :
    List Axis → ℤ → LocalBuf β → Option (LocalBuf β)
  | [], _, _ => none
  | a :: loops, rhs, b =>
    if contiguity = (a :: loops).length then
      (putVectorIterBufferPack1 E orgAddr loc bytes (a :: loops) rhs (initLocalBuf baseAddr b)).map
        (flushLocalBuf orgAddr)
    else (List.range a.count).foldlM
      (fun b (i : ℕ) => putVectorIterBufferPack bytes contiguity baseAddr loops
        (rhs + i * a.src) b) b

def putCoarrayBufferPack (bytes : ℕ) (axes : List Axis) (baseAddr rhs : ℤ) (b : LocalBuf β) :
    Option (LocalBuf β) :=
  (contiguity Axis.dst bytes axes).bind fun contiguity =>
    putVectorIterBufferPack E orgAddr loc bytes contiguity baseAddr axes.reverse rhs b

def putCoarrayDMA (bytes : ℕ) (axes : List Axis) (baseAddr : ℤ) (dma : ℤ → β) (offsetDMA : ℤ)
    (remote : ℤ → β) : Option (ℤ → β) :=
  (collapse bytes axes).bind fun (bytes, axes) =>
    match axes with
    | [] => some (putVectorDMA orgAddr baseAddr bytes dma offsetDMA remote)
    | axes => putVectorIterDMA orgAddr bytes dma axes baseAddr offsetDMA remote

def putCoarrayBuffer (bytes : ℕ) (axes : List Axis) (baseAddr rhs : ℤ) (b : LocalBuf β) :
    Option (LocalBuf β) :=
  (collapse bytes axes).bind fun (bytes, axes) =>
    match axes with
    | [] => putVectorBuffer E orgAddr loc bytes baseAddr rhs b
    | a :: axes =>
      if (bytes : ℤ) ≠ a.dst then putVectorIterBuffer E orgAddr loc bytes (a :: axes) baseAddr rhs b
      else (cnat (bytes * 2)).bind fun twice =>
        if E.bufSize < twice then putVectorIterBuffer E orgAddr loc bytes (a :: axes) baseAddr rhs b
        else putCoarrayBufferPack E orgAddr loc bytes (a :: axes) baseAddr rhs b

/-- `xmpf_coarray_put_array_` for an asynchronous put. `chunkDMA` is the address of the registered
chunk of the right-hand side, if there is one and the eager mode is off; `remote` is the chunk of
the coarray on the other image. -/
def putArray (chunkDMA : Option ℤ) (element : ℕ) (axes : List Axis) (baseAddr rhs : ℤ)
    (buf remote : ℤ → β) : Option (ℤ → β) :=
  if element % E.commUnit ≠ 0 then none
  else match chunkDMA with
    | some orgAddrDMA =>
      putCoarrayDMA orgAddr element axes baseAddr (fun o => loc (orgAddrDMA + o))
        (rhs - orgAddrDMA) remote
    | none => (putCoarrayBuffer E orgAddr loc element axes baseAddr rhs
        { contents := buf, used := 0, target := baseAddr, remote := remote }).map LocalBuf.remote

end Code

/-! ## The local buffer as a stream -/

variable {E : PutEnv} {orgAddr : ℤ} {loc : ℤ → β}

namespace LocalBuf

/-- The remote chunk after flushing. -/
def view (orgAddr : ℤ) (b : LocalBuf β) : ℤ → β :=
  transfer b.used b.contents b.remote (b.target - orgAddr) 0

def pos (b : LocalBuf β) : ℤ := b.target + b.used

end LocalBuf

@[simp] theorem flush_used (b : LocalBuf β) : (flushLocalBuf orgAddr b).used = 0 := by
  unfold flushLocalBuf
  split_ifs with h
  · rfl
  · omega

@[simp] theorem flush_remote (b : LocalBuf β) :
    (flushLocalBuf orgAddr b).remote = b.view orgAddr := by
  unfold flushLocalBuf LocalBuf.view
  split_ifs with h
  · rfl
  · have h0 : b.used = 0 := by omega
    rw [h0, transfer_zero]

@[simp] theorem flush_target (b : LocalBuf β) : (flushLocalBuf orgAddr b).target = b.pos := by
  unfold flushLocalBuf LocalBuf.pos
  split_ifs with h
  · rfl
  · have h0 : b.used = 0 := by omega
    simp [h0]

@[simp] theorem view_flush (b : LocalBuf β) :
    (flushLocalBuf orgAddr b).view orgAddr = b.view orgAddr := by
  rw [LocalBuf.view, flush_used, transfer_zero, flush_remote]

@[simp] theorem pos_flush (b : LocalBuf β) : (flushLocalBuf orgAddr b).pos = b.pos := by
  rw [LocalBuf.pos, flush_used, flush_target]
  simp

theorem appendLocalBuf_eq (bytes : ℕ) (src : ℤ) (b : LocalBuf β) : appendLocalBuf loc bytes src b =
    { b with contents := transfer bytes loc b.contents b.used src, used := b.used + bytes } := by
  unfold appendLocalBuf
  by_cases h0 : bytes = 0
  · rw [if_pos h0, h0, transfer_zero, add_zero]
  · rw [if_neg h0]

/-- Appending to the buffer appends to what flushing it will have written. -/
theorem view_append (b : LocalBuf β) (bytes : ℕ) (src : ℤ) :
    (appendLocalBuf loc bytes src b).view orgAddr =
      transfer bytes loc (b.view orgAddr) (b.pos - orgAddr) src := by
  rw [appendLocalBuf_eq]
  funext a
  unfold LocalBuf.view LocalBuf.pos transfer
  dsimp only
  by_cases h1 : b.target + b.used - orgAddr ≤ a ∧ a < b.target + b.used - orgAddr + bytes
  · rw [if_pos (by push_cast; omega), if_pos (by omega), if_pos h1]
    congr 1
    ring
  · rw [if_neg h1]
    by_cases h2 : b.target - orgAddr ≤ a ∧ a < b.target - orgAddr + b.used
    · rw [if_pos (by push_cast; omega), if_neg (by omega), if_pos h2]
    · rw [if_neg (by push_cast; omega), if_neg h2]

theorem pos_append (b : LocalBuf β) (bytes : ℕ) (src : ℤ) :
    (appendLocalBuf loc bytes src b).pos = b.pos + bytes := by
  rw [appendLocalBuf_eq, LocalBuf.pos, LocalBuf.pos]
  push_cast
  ring

def PutEnv.Roomy (E : PutEnv) (bytes : ℕ) : Prop := 0 ≤ E.bufSize ∧ (bytes = 0 ∨ 0 < E.bufSize)

theorem pushHuge_of_le {bytes : ℕ} (h : (bytes : ℤ) ≤ E.bufSize) (rounds : ℕ) (src : ℤ)
    (b : LocalBuf β) : pushHuge E orgAddr loc rounds bytes src b = some (bytes, src, b) := by
  cases rounds with
  | zero => exact if_pos h
  | succ rounds => exact if_pos h

theorem pushHuge_spec {rounds bytes : ℕ} (hr : E.Roomy bytes) (hrounds : bytes ≤ rounds) (src : ℤ)
    (b : LocalBuf β) (hb : b.used = 0) : ∃ bytes' src' b',
      pushHuge E orgAddr loc rounds bytes src b = some (bytes', src', b') ∧
      transfer bytes' loc (b'.view orgAddr) (b'.pos - orgAddr) src' =
        transfer bytes loc (b.view orgAddr) (b.pos - orgAddr) src ∧
      b'.pos + bytes' = b.pos + bytes := by
  induction rounds generalizing bytes src b with
  | zero =>
    have hle : (bytes : ℤ) ≤ E.bufSize := by
      have := hr.1
      omega
    exact ⟨bytes, src, b, pushHuge_of_le hle _ _ _, rfl, rfl⟩
  | succ rounds ih =>
    by_cases hle : (bytes : ℤ) ≤ E.bufSize
    · exact ⟨bytes, src, b, pushHuge_of_le hle _ _ _, rfl, rfl⟩
    · have hpos : 0 < E.bufSize := by
        obtain ⟨h0, h | h⟩ := hr
        · omega
        · exact h
      obtain ⟨c, hc⟩ := Int.eq_ofNat_of_zero_le hr.1
      have htoNat : E.bufSize.toNat = c := by omega
      have happ := @appendLocalBuf_eq β loc c src b
      rw [hb, zero_add, Nat.cast_zero] at happ
      obtain ⟨bytes', src', b', hrun, hsent, hend⟩ := @ih (bytes - c) ⟨hr.1, Or.inr hpos⟩
        (by omega) (src + c)
        (flushLocalBuf orgAddr (appendLocalBuf loc c src b)) (flush_used _)
      refine ⟨bytes', src', b', ?_, ?_, ?_⟩
      · rw [pushHuge, if_neg hle, if_neg (by omega), htoNat]
        dsimp only
        rw [← happ]
        exact hrun
      · rw [hsent, view_flush, pos_flush, view_append, pos_append, add_sub_right_comm]
        have hjoin := transfer_transfer c (bytes - c) loc (b.view orgAddr) (b.pos - orgAddr) src
        rw [hjoin, Nat.add_sub_cancel' (by omega)]
      · rw [hend, pos_flush, pos_append]
        omega

theorem pushHuge_none {rounds bytes : ℕ} (hr : ¬ E.Roomy bytes) (src : ℤ) (b : LocalBuf β) :
    pushHuge E orgAddr loc rounds bytes src b = none := by
  unfold PutEnv.Roomy at hr
  have hle : ¬ (bytes : ℤ) ≤ E.bufSize := by omega
  induction rounds generalizing src b with
  | zero => exact if_neg hle
  | succ rounds ih =>
    rw [pushHuge, if_neg hle]
    by_cases hneg : E.bufSize < 0
    · exact if_pos hneg
    · -- A buffer of size 0: no round sends anything.
      have hzero : E.bufSize.toNat = 0 := by omega
      rw [if_neg hneg, hzero]
      exact ih _ _

theorem pushLocalBuf_spec {bytes : ℕ} (hr : E.Roomy bytes) (src : ℤ) (b : LocalBuf β)
    (hfit : b.used + bytes < 2 ^ 31) : ∃ b', pushLocalBuf E orgAddr loc src bytes b = some b' ∧
      b'.view orgAddr = transfer bytes loc (b.view orgAddr) (b.pos - orgAddr) src ∧
      b'.pos = b.pos + bytes := by
  unfold pushLocalBuf
  rw [cnat_of_lt hfit, Option.bind_some]
  by_cases hfull : E.bufSize ≤ (b.used + bytes : ℕ)
  · obtain ⟨bytes', src', b', hrun, hsent, hend⟩ := pushHuge_spec hr le_rfl src
      (flushLocalBuf orgAddr b) (flush_used b)
    rw [if_pos hfull, hrun, Option.map_some]
    refine ⟨_, rfl, ?_, ?_⟩
    · rw [view_append, hsent, view_flush, pos_flush]
    · rw [pos_append, hend, pos_flush]
  · rw [if_neg hfull]
    exact ⟨_, rfl, view_append b bytes src, pos_append b bytes src⟩

theorem used_pushLocalBuf {bytes : ℕ} {src : ℤ} {b b' : LocalBuf β}
    (h : pushLocalBuf E orgAddr loc src bytes b = some b') (hle : (bytes : ℤ) ≤ E.bufSize) :
    b.used + bytes < 2 ^ 31 ∧
      b'.used = if E.bufSize ≤ (b.used + bytes : ℕ) then bytes else b.used + bytes := by
  unfold pushLocalBuf at h
  obtain ⟨total, htotal, h⟩ := Option.bind_eq_some_iff.mp h
  obtain ⟨hfit, rfl⟩ := cnat_eq_some.mp htotal
  refine ⟨hfit, ?_⟩
  by_cases hfull : E.bufSize ≤ (b.used + bytes : ℕ)
  · rw [if_pos hfull, pushHuge_of_le hle, Option.map_some] at h
    have h := Option.some.inj h
    dsimp only at h
    rw [if_pos hfull, ← h, appendLocalBuf_eq]
    simp
  · rw [if_neg hfull] at h
    rw [if_neg hfull, ← Option.some.inj h, appendLocalBuf_eq]

/-! ## Vectors -/

def PutEnv.Takes (E : PutEnv) (bytes : ℕ) : Prop := E.safe = true ∨ E.Roomy bytes

theorem putVectorBuffer_spec {bytes : ℕ} (h : E.Takes bytes) (hfit : bytes < 2 ^ 31)
    (baseAddr rhs : ℤ) (b : LocalBuf β) :
    ∃ b', putVectorBuffer E orgAddr loc bytes baseAddr rhs b = some b' ∧
      b'.remote = transfer bytes loc b.remote (baseAddr - orgAddr) rhs := by
  unfold putVectorBuffer
  by_cases hsafe : E.safe = true
  · rw [if_pos hsafe]
    exact ⟨_, rfl, transfer_buffered bytes loc b.contents b.remote _ rhs⟩
  · rw [if_neg hsafe]
    have hr : E.Roomy bytes := by
      obtain h | h := h
      · exact absurd h hsafe
      · exact h
    have hzero : (initLocalBuf baseAddr b).used + bytes = bytes := Nat.zero_add bytes
    obtain ⟨b', hb', hview, -⟩ := pushLocalBuf_spec hr rhs (initLocalBuf baseAddr b)
      (by rwa [hzero])
    refine ⟨flushLocalBuf orgAddr b', by rw [hb', Option.map_some], ?_⟩
    rw [flush_remote, hview]
    simp [initLocalBuf, LocalBuf.view, LocalBuf.pos]

theorem putVectorBuffer_none {bytes : ℕ} (h : ¬ E.Takes bytes) (baseAddr rhs : ℤ) (b : LocalBuf β) :
    putVectorBuffer E orgAddr loc bytes baseAddr rhs b = none := by
  unfold PutEnv.Takes at h
  rw [not_or] at h
  have hle : E.bufSize ≤ ((initLocalBuf baseAddr b).used + bytes : ℕ) := by
    have := h.2
    unfold PutEnv.Roomy at this
    simp only [initLocalBuf]
    omega
  unfold putVectorBuffer
  rw [if_neg h.1, Option.map_eq_none_iff]
  unfold pushLocalBuf
  by_cases hfit : (initLocalBuf baseAddr b).used + bytes < 2 ^ 31
  · rw [cnat_of_lt hfit, Option.bind_some, if_pos hle, pushHuge_none h.2, Option.map_none]
  · rw [cnat_of_not_lt hfit]
    rfl

/-! ## Streams -/

/-- Where vectors of this length are pushed one after the other, `used + bytes` fits in `int` at
the first `n` of them. -/
def PutEnv.Fits (E : PutEnv) (bytes n : ℕ) : Prop :=
  ∀ k < n, (k * bytes : ℕ) < E.bufSize → (k + 1) * bytes < 2 ^ 31

theorem pushes_spec {bytes n : ℕ} (hle : (bytes * 2 : ℕ) ≤ E.bufSize) (hfit : bytes < 2 ^ 31)
    (hfits : E.Fits bytes n) (ps : List (ℤ × ℤ)) (done : ℕ) (b : LocalBuf β)
    (hdone : done + ps.length ≤ n)
    (hused : ∃ j ≤ done, b.used = j * bytes ∧ (b.used = 0 ∨ b.used < E.bufSize))
    (hadj : Adjacent bytes (b.pos - orgAddr) (ps.map Prod.fst)) :
    ∃ b', ps.foldlM (fun b p => pushLocalBuf E orgAddr loc p.2 bytes b) b = some b' ∧
      b'.view orgAddr = transfers bytes loc (b.view orgAddr) ps := by
  have hr : E.Roomy bytes := by
    unfold PutEnv.Roomy
    omega
  induction ps generalizing done b with
  | nil => exact ⟨b, rfl, rfl⟩
  | cons p ps ih =>
    rw [List.length_cons] at hdone
    obtain ⟨j, hj, hju, hroom⟩ := hused
    have hnext : b.used + bytes < 2 ^ 31 := by
      obtain h0 | hlt := hroom
      · rwa [h0, zero_add]
      · have := hfits j (by omega) (by rwa [← hju])
        rwa [hju, ← Nat.add_one_mul]
    obtain ⟨b', hb', hview, hpos⟩ := pushLocalBuf_spec hr p.2 b hnext
    have hused' := (used_pushLocalBuf hb' (by omega)).2
    obtain ⟨hp, hrest⟩ := hadj
    have hfilled : ∃ j ≤ done + 1, b'.used = j * bytes ∧ (b'.used = 0 ∨ b'.used < E.bufSize) := by
      by_cases hfull : E.bufSize ≤ (b.used + bytes : ℕ)
      · rw [if_pos hfull] at hused'
        exact ⟨1, by omega, by omega, by omega⟩
      · rw [if_neg hfull] at hused'
        refine ⟨j + 1, by omega, ?_, by omega⟩
        rw [hused', hju, Nat.add_one_mul]
    have hend : b'.pos - orgAddr = b.pos - orgAddr + bytes := by
      rw [hpos]
      ring
    rw [← hend] at hrest
    obtain ⟨b'', hb'', hview'⟩ := ih (done + 1) b' (by omega) hfilled hrest
    refine ⟨b'', ?_, ?_⟩
    · rw [List.foldlM_cons, hb']
      exact hb''
    · rw [hview', hview, transfers_cons, hp]

theorem fits_of_pushes {bytes : ℕ} (hle : (bytes * 2 : ℕ) ≤ E.bufSize) {ps : List (ℤ × ℤ)} {j : ℕ}
    {b b' : LocalBuf β} (hused : b.used = j * bytes)
    (h : ps.foldlM (fun b p => pushLocalBuf E orgAddr loc p.2 bytes b) b = some b') (k : ℕ)
    (hk : k < ps.length) (hroom : ((j + k) * bytes : ℕ) < E.bufSize) :
    (j + k + 1) * bytes < 2 ^ 31 := by
  induction ps generalizing j b k with
  | nil => cases hk
  | cons p ps ih =>
    rw [List.foldlM_cons] at h
    obtain ⟨c, hc, hrest⟩ := Option.bind_eq_some_iff.mp h
    obtain ⟨hfit, hcused⟩ := used_pushLocalBuf hc (by omega)
    cases k with
    | zero =>
      rw [add_zero, Nat.add_one_mul, ← hused]
      exact hfit
    | succ k =>
      have hmono : (j + 1) * bytes ≤ (j + (k + 1)) * bytes := Nat.mul_le_mul_right _ (by omega)
      have hnot : ¬ E.bufSize ≤ (b.used + bytes : ℕ) := by
        rw [hused, ← Nat.add_one_mul]
        omega
      rw [if_neg hnot, hused, ← Nat.add_one_mul] at hcused
      have hshift : j + (k + 1) = j + 1 + k := by omega
      rw [hshift] at hroom ⊢
      exact ih hcused hrest k (by simpa using hk) hroom

/-- The walk over the contiguous axes, between `_init_localBuf` and `_flush_localBuf`. -/
def putStream (E : PutEnv) (orgAddr : ℤ) (loc : ℤ → β) (bytes : ℕ) (inner : List Axis)
    (baseAddr rhs : ℤ) (b : LocalBuf β) : Option (LocalBuf β) :=
  (putVectorIterBufferPack1 E orgAddr loc bytes inner rhs (initLocalBuf baseAddr b)).map
    (flushLocalBuf orgAddr)

theorem bufferPack1_eq (bytes : ℕ) (inner : List Axis) (d rhs : ℤ) (b : LocalBuf β) :
    putVectorIterBufferPack1 E orgAddr loc bytes inner rhs b =
      (visited inner d rhs).foldlM (fun b p => pushLocalBuf E orgAddr loc p.2 bytes b) b := by
  have hsnd : ∀ d', (visited inner d' rhs).map Prod.snd =
      (indices inner).map fun v => rhs + place Axis.src inner v := by
    intro d'
    rw [visited_eq_map, List.map_map]
    rfl
  have hfold : ∀ d', (visited inner d' rhs).foldlM
      (fun b p => pushLocalBuf E orgAddr loc p.2 bytes b) b =
      ((visited inner d' rhs).map Prod.snd).foldlM
        (fun b src => pushLocalBuf E orgAddr loc src bytes b) b := by
    intro d'
    rw [List.foldlM_map]
  rw [putVectorIterBufferPack1, nest_eq_foldlM, hfold 0, hfold d, hsnd, hsnd]

theorem putStream_spec {bytes : ℕ} (hle : (bytes * 2 : ℕ) ≤ E.bufSize) (hfit : bytes < 2 ^ 31)
    {inner : List Axis} (hdense : Dense Axis.dst bytes inner)
    (hfits : E.Fits bytes (elements inner))
    (baseAddr rhs : ℤ) (b : LocalBuf β) :
    ∃ b', putStream E orgAddr loc bytes inner baseAddr rhs b = some b' ∧
      b'.remote = transfers bytes loc b.remote (visited inner (baseAddr - orgAddr) rhs) := by
  have hstart : (initLocalBuf baseAddr b).pos = baseAddr := by simp [initLocalBuf, LocalBuf.pos]
  have hview : (initLocalBuf baseAddr b).view orgAddr = b.remote := by
    simp [initLocalBuf, LocalBuf.view]
  obtain ⟨b', hb', hsent⟩ := pushes_spec hle hfit hfits (visited inner (baseAddr - orgAddr) rhs) 0
    (initLocalBuf baseAddr b) (by rw [length_visited, zero_add])
    ⟨0, le_rfl, (Nat.zero_mul bytes).symm, Or.inl rfl⟩
    (by rw [hstart]; exact adjacent_visited hdense _ _)
  rw [← bufferPack1_eq] at hb'
  refine ⟨flushLocalBuf orgAddr b', ?_, ?_⟩
  · rw [putStream, hb', Option.map_some]
  · rw [flush_remote, hsent, hview]

theorem fits_of_putStream {bytes : ℕ} (hle : (bytes * 2 : ℕ) ≤ E.bufSize) {inner : List Axis}
    {baseAddr rhs : ℤ} {b b' : LocalBuf β}
    (h : putStream E orgAddr loc bytes inner baseAddr rhs b = some b') :
    E.Fits bytes (elements inner) := by
  obtain ⟨c, hc, -⟩ := Option.map_eq_some_iff.mp h
  rw [bufferPack1_eq bytes inner 0] at hc
  intro k hk hroom
  have hzero : (initLocalBuf baseAddr b).used = 0 * bytes := (Nat.zero_mul bytes).symm
  have := fits_of_pushes hle hzero hc k (by rwa [length_visited]) (by rwa [zero_add])
  rwa [zero_add] at this

/-- The packing walk puts a stream for every index of the outer axes, but always from the same
remote address. -/
theorem bufferPack_eq (bytes : ℕ) (baseAddr : ℤ) {inner : List Axis} (hne : inner ≠ [])
    (outer : List Axis) (rhs : ℤ) (b : LocalBuf β) :
    putVectorIterBufferPack E orgAddr loc bytes inner.length baseAddr (outer ++ inner) rhs b =
      nest (fun _ src b => putStream E orgAddr loc bytes inner baseAddr src b) outer 0 rhs b := by
  induction outer generalizing rhs b with
  | nil =>
    cases inner with
    | nil => exact absurd rfl hne
    | cons a inner => exact if_pos rfl
  | cons a outer ih =>
    have hlen : ¬ inner.length = (a :: (outer ++ inner)).length := by
      simp
      omega
    rw [List.cons_append, putVectorIterBufferPack, if_neg hlen,
      nest_freeze (fun src b => putStream E orgAddr loc bytes inner baseAddr src b) _ 0 0]
    rw [List.map_cons, nest]
    congr 1
    funext b i
    rw [ih, nest_freeze (fun src b => putStream E orgAddr loc bytes inner baseAddr src b) _ 0
      (0 + i * a.freeze.dst)]
    rfl

/-! ## Sections -/

/-- There is nothing to put, or the vectors of this length can be put one by one. -/
def PutEnv.VectorsOk (E : PutEnv) (bytes : ℕ) (axes : List Axis) : Prop :=
  elements axes = 0 ∨ E.Takes bytes

/-- The streams do not overflow, and there is but one of them unless there is nothing to put. -/
def PutEnv.PackOk (E : PutEnv) (bytes : ℕ) (axes : List Axis) : Prop :=
  ∃ k, contiguity Axis.dst bytes axes = some k ∧
    (elements (axes.drop k) = 0 ∨ E.Fits bytes (elements (axes.take k))) ∧
    (bytes * elements axes = 0 ∨ elements (axes.drop k) = 1)

def PutEnv.BufferOk (E : PutEnv) (bytes : ℕ) : List Axis → Prop
  | [] => E.Takes bytes
  | a :: axes =>
    if (bytes : ℤ) ≠ a.dst then E.VectorsOk bytes (a :: axes)
    else bytes * 2 < 2 ^ 31 ∧
      if E.bufSize < (bytes * 2 : ℕ) then E.VectorsOk bytes (a :: axes)
      else E.PackOk bytes (a :: axes)

/-- The element is a multiple of `COMM_UNIT`, the lengths fit in `int`, and a section put through
the local buffer is not packed from more than one stream. -/
def PutEnv.PutOk (E : PutEnv) (chunkDMA : Option ℤ) (element : ℕ) (axes : List Axis) : Prop :=
  element % E.commUnit = 0 ∧ ∃ bytes rest, collapse element axes = some (bytes, rest) ∧
    (chunkDMA = none → E.BufferOk bytes rest)

variable {bytes : ℕ} {axes : List Axis} {baseAddr rhs : ℤ} {b : LocalBuf β}

theorem vectorIterBuffer_spec (h : E.VectorsOk bytes axes) (hfit : bytes < 2 ^ 31) :
    ∃ b', putVectorIterBuffer E orgAddr loc bytes axes baseAddr rhs b = some b' ∧
      b'.remote = transfers bytes loc b.remote (visited axes.reverse (baseAddr - orgAddr) rhs) := by
  have hbody : ∀ p ∈ visited axes.reverse baseAddr rhs, ∀ t : LocalBuf β, ∃ t',
      putVectorBuffer E orgAddr loc bytes p.1 p.2 t = some t' ∧
      t'.remote = transfers bytes loc t.remote (visited [] (p.1 + -orgAddr) (p.2 + 0)) := by
    intro p hp t
    obtain h0 | htakes := h
    · rw [← elements_reverse, ← visited_eq_nil (d := baseAddr) (s := rhs)] at h0
      rw [h0] at hp
      cases hp
    · obtain ⟨t', ht', hremote⟩ := putVectorBuffer_spec htakes hfit p.1 p.2 t
      refine ⟨t', ht', ?_⟩
      rw [hremote, visited, transfers_cons, transfers_nil, add_zero, sub_eq_add_neg]
  have := nest_transfers LocalBuf.remote (putVectorBuffer E orgAddr loc bytes) hbody b
  rwa [List.append_nil, add_zero, ← sub_eq_add_neg] at this

theorem vectorIterBuffer_none (h : ¬ E.VectorsOk bytes axes) :
    putVectorIterBuffer E orgAddr loc bytes axes baseAddr rhs b = none := by
  unfold PutEnv.VectorsOk at h
  rw [not_or, ← elements_reverse] at h
  rw [putVectorIterBuffer, nest_eq_foldlM]
  cases hv : visited axes.reverse baseAddr rhs with
  | nil => exact absurd (visited_eq_nil.mp hv) h.1
  | cons p ps =>
    rw [List.foldlM_cons, putVectorBuffer_none h.2]
    rfl

theorem reverse_eq_drop_take (axes : List Axis) (k : ℕ) :
    axes.reverse = (axes.drop k).reverse ++ (axes.take k).reverse := by
  rw [← List.reverse_append, List.take_append_drop]

theorem bufferPack_eq_nest {k : ℕ} (hk : contiguity Axis.dst bytes axes = some k) (hpos : 0 < k) :
    putCoarrayBufferPack E orgAddr loc bytes axes baseAddr rhs b =
      nest (fun _ src b => putStream E orgAddr loc bytes (axes.take k).reverse baseAddr src b)
        ((axes.drop k).reverse.map Axis.freeze) baseAddr rhs b := by
  have hlen : (axes.take k).reverse.length = k := by
    rw [List.length_reverse, List.length_take, Nat.min_eq_left (contiguity_le hk)]
  have hne : (axes.take k).reverse ≠ [] := by
    intro hnil
    rw [hnil, List.length_nil] at hlen
    omega
  have hwalk := @bufferPack_eq β E orgAddr loc bytes baseAddr _ hne (axes.drop k).reverse rhs b
  rw [hlen, ← reverse_eq_drop_take] at hwalk
  rw [putCoarrayBufferPack, hk, Option.bind_some, hwalk]
  exact nest_freeze
    (fun src b => putStream E orgAddr loc bytes (axes.take k).reverse baseAddr src b)
    _ 0 baseAddr rhs b

theorem bufferPack_spec {k : ℕ} (hk : contiguity Axis.dst bytes axes = some k) (hpos : 0 < k)
    (hle : (bytes * 2 : ℕ) ≤ E.bufSize) (hfit : bytes < 2 ^ 31)
    (hfits : elements (axes.drop k) = 0 ∨ E.Fits bytes (elements (axes.take k))) :
    ∃ b', putCoarrayBufferPack E orgAddr loc bytes axes baseAddr rhs b = some b' ∧
      b'.remote = transfers bytes loc b.remote
        (visited ((axes.drop k).reverse.map Axis.freeze ++ (axes.take k).reverse)
          (baseAddr - orgAddr) rhs) := by
  rw [bufferPack_eq_nest hk hpos]
  have hdense : Dense Axis.dst bytes (axes.take k).reverse := by
    have hnil : Dense Axis.dst bytes [] := trivial
    have hall := dense_of_contiguity hk (by simp) hnil
    rwa [List.append_nil] at hall
  have hbody : ∀ p ∈ visited ((axes.drop k).reverse.map Axis.freeze) baseAddr rhs,
      ∀ t : LocalBuf β, ∃ t',
        putStream E orgAddr loc bytes (axes.take k).reverse baseAddr p.2 t = some t' ∧
        t'.remote = transfers bytes loc t.remote
          (visited (axes.take k).reverse (p.1 + -orgAddr) (p.2 + 0)) := by
    intro p hp t
    rw [fst_of_mem_visited_freeze hp, add_zero, ← sub_eq_add_neg]
    apply putStream_spec hle hfit hdense
    obtain h0 | hfits := hfits
    · rw [← elements_reverse, ← elements_freeze, ← visited_eq_nil (d := baseAddr) (s := rhs)] at h0
      rw [h0] at hp
      cases hp
    · rwa [elements_reverse]
  have := nest_transfers LocalBuf.remote
    (fun _ src b => putStream E orgAddr loc bytes (axes.take k).reverse baseAddr src b) hbody b
  rwa [add_zero, ← sub_eq_add_neg] at this

theorem fits_of_bufferPack {k : ℕ} (hk : contiguity Axis.dst bytes axes = some k) (hpos : 0 < k)
    (hle : (bytes * 2 : ℕ) ≤ E.bufSize) {b' : LocalBuf β}
    (h : putCoarrayBufferPack E orgAddr loc bytes axes baseAddr rhs b = some b') :
    elements (axes.drop k) = 0 ∨ E.Fits bytes (elements (axes.take k)) := by
  rw [bufferPack_eq_nest hk hpos, nest_eq_foldlM] at h
  cases hv : visited ((axes.drop k).reverse.map Axis.freeze) baseAddr rhs with
  | nil =>
    have h0 := visited_eq_nil.mp hv
    rw [elements_freeze, elements_reverse] at h0
    exact Or.inl h0
  | cons p ps =>
    rw [hv, List.foldlM_cons] at h
    obtain ⟨c, hc, -⟩ := Option.bind_eq_some_iff.mp h
    have := fits_of_putStream hle hc
    rw [elements_reverse] at this
    exact Or.inr this

theorem transfers_packed {k : ℕ}
    (h : bytes * elements axes = 0 ∨ elements (axes.drop k) = 1) (mem : ℤ → β) (d s : ℤ) :
    transfers bytes loc mem
        (visited ((axes.drop k).reverse.map Axis.freeze ++ (axes.take k).reverse) d s) =
      transfers bytes loc mem (visited axes.reverse d s) := by
  rw [reverse_eq_drop_take axes k]
  obtain h0 | hone := h
  · obtain hb | he := Nat.mul_eq_zero.mp h0
    · rw [hb, transfers_zero, transfers_zero]
    · rw [← elements_reverse, reverse_eq_drop_take axes k, elements_append] at he
      have hleft : visited ((axes.drop k).reverse.map Axis.freeze ++ (axes.take k).reverse) d
        s = [] := by
        rw [visited_eq_nil, elements_append, elements_freeze, he]
      have hright : visited ((axes.drop k).reverse ++ (axes.take k).reverse) d s = [] := by
        rw [visited_eq_nil, elements_append, he]
      rw [hleft, hright]
  · rw [visited_append, visited_append, visited_freeze_of_elements_eq_one]
    rwa [elements_reverse]

theorem coarrayBuffer_spec {element : ℕ} {rest : List Axis}
    (hc : collapse element axes = some (bytes, rest)) (h : E.BufferOk bytes rest)
    (hfit : bytes < 2 ^ 31) :
    ∃ b', putCoarrayBuffer E orgAddr loc element axes baseAddr rhs b = some b' ∧
      b'.remote = transfers bytes loc b.remote (visited rest.reverse (baseAddr - orgAddr) rhs) := by
  rw [putCoarrayBuffer, hc, Option.bind_some]
  cases rest with
  | nil => exact putVectorBuffer_spec h hfit baseAddr rhs b
  | cons a rest =>
    dsimp only
    rw [PutEnv.BufferOk] at h
    by_cases ha : (bytes : ℤ) ≠ a.dst
    · rw [if_pos ha] at h ⊢
      exact vectorIterBuffer_spec h hfit
    · rw [if_neg ha] at h ⊢
      rw [cnat_of_lt h.1, Option.bind_some]
      by_cases hlarge : E.bufSize < (bytes * 2 : ℕ)
      · rw [if_pos hlarge] at h ⊢
        exact vectorIterBuffer_spec h.2 hfit
      · rw [if_neg hlarge] at h ⊢
        obtain ⟨-, k, hk, hfits, hone⟩ := h
        obtain ⟨b', hb', hremote⟩ := bufferPack_spec hk (contiguity_pos (not_not.mp ha) hk)
          (not_lt.mp hlarge) hfit hfits (b := b)
        refine ⟨b', hb', ?_⟩
        rw [hremote, transfers_packed hone]

theorem packOk_of_bufferPack (hle : (bytes * 2 : ℕ) ≤ E.bufSize) (hfit : bytes < 2 ^ 31)
    (hpos : ∀ k, contiguity Axis.dst bytes axes = some k → 0 < k)
    (hd : 0 < bytes * elements axes → SectionDisjoint bytes axes) {x y : β} (hxy : x ≠ y)
    {b' : LocalBuf β}
    (h : putCoarrayBufferPack E orgAddr (fun _ => x) bytes axes baseAddr rhs b = some b')
    (hb : b.remote = fun _ => y)
    (hremote : b'.remote = transfers bytes (fun _ => x) (fun _ => y)
      (visited axes.reverse (baseAddr - orgAddr) rhs)) : E.PackOk bytes axes := by
  obtain ⟨k, hk, -⟩ := Option.bind_eq_some_iff.mp h
  have hfits := fits_of_bufferPack hk (hpos k hk) hle h
  refine ⟨k, hk, hfits, ?_⟩
  -- With more streams than one, the others are missing.
  by_contra hno
  rw [not_or] at hno
  obtain ⟨hn, he⟩ := Nat.mul_ne_zero_iff.mp hno.1
  obtain ⟨c, hput, hsent⟩ := bufferPack_spec hk (hpos k hk) hle hfit hfits
    (b := b)
  rw [h] at hput
  obtain rfl := Option.some.inj hput
  have hsplit := List.take_append_drop k axes
  have hparts : elements (axes.take k ++ axes.drop k) ≠ 0 := by rwa [hsplit]
  have hdrop : elements (axes.drop k) ≠ 0 := by
    rw [elements_append] at hparts
    exact right_ne_zero_of_mul hparts
  have hdis : SectionDisjoint bytes (axes.take k ++ axes.drop k) := by
    rw [hsplit]
    exact hd (Nat.pos_of_ne_zero hno.1)
  have hmany : 1 < elements (axes.drop k) := by
    have := hno.2
    omega
  apply transfers_freeze_ne (Nat.pos_of_ne_zero hn) hdis hparts hmany hxy
    (d := baseAddr - orgAddr) (s := rhs)
  rw [hsplit, ← hremote, hsent, hb]

/-- What the buffer scheme needs in order to put the section whatever its contents are. -/
theorem bufferOk_of_coarrayBuffer {element : ℕ} {rest : List Axis}
    (hc : collapse element axes = some (bytes, rest)) (hfit : bytes < 2 ^ 31)
    (hd : 0 < bytes * elements rest → SectionDisjoint bytes rest) {x y : β} (hxy : x ≠ y)
    {b' : LocalBuf β}
    (h : putCoarrayBuffer E orgAddr (fun _ => x) element axes baseAddr rhs b = some b')
    (hb : b.remote = fun _ => y)
    (hremote : b'.remote = transfers bytes (fun _ => x) (fun _ => y)
      (visited rest.reverse (baseAddr - orgAddr) rhs)) : E.BufferOk bytes rest := by
  rw [putCoarrayBuffer, hc, Option.bind_some] at h
  cases rest with
  | nil =>
    by_contra hno
    dsimp only at h
    rw [putVectorBuffer_none hno] at h
    cases h
  | cons a rest =>
    dsimp only at h
    rw [PutEnv.BufferOk]
    have hvectors : putVectorIterBuffer E orgAddr (fun _ => x) bytes (a :: rest) baseAddr rhs b =
        some b' → E.VectorsOk bytes (a :: rest) := by
      intro hput
      by_contra hno
      rw [vectorIterBuffer_none hno] at hput
      cases hput
    by_cases ha : (bytes : ℤ) ≠ a.dst
    · rw [if_pos ha] at h ⊢
      exact hvectors h
    · rw [if_neg ha] at h ⊢
      have hfirst := fun k hk => @contiguity_pos bytes rest Axis.dst a k (not_not.mp ha) hk
      by_cases hlarge : E.bufSize < (bytes * 2 : ℕ)
      · obtain ⟨twice, htwice, h⟩ := Option.bind_eq_some_iff.mp h
        obtain ⟨hlt, htwo⟩ := cnat_eq_some.mp htwice
        rw [← htwo, if_pos hlarge] at h
        rw [if_pos hlarge]
        exact ⟨hlt, hvectors h⟩
      · obtain ⟨twice, htwice, h⟩ := Option.bind_eq_some_iff.mp h
        obtain ⟨hlt, htwo⟩ := cnat_eq_some.mp htwice
        rw [← htwo, if_neg hlarge] at h
        rw [if_neg hlarge]
        exact ⟨hlt, packOk_of_bufferPack (not_lt.mp hlarge) hfit hfirst hd hxy h hb hremote⟩

theorem collapse_lt {element : ℕ} {rest : List Axis}
    (h : collapse element axes = some (bytes, rest))
    (hlt : element < 2 ^ 31) : bytes < 2 ^ 31 := by
  induction axes generalizing element with
  | nil =>
    cases h
    exact hlt
  | cons a axes ih =>
    rw [collapse] at h
    split_ifs at h with hab
    · obtain ⟨x, hx, hrest⟩ := Option.bind_eq_some_iff.mp h
      exact ih hrest (cnat_eq_some.mp hx |>.2 ▸ (cnat_eq_some.mp hx).1)
    · cases h
      exact hlt

theorem coarrayDMA_spec {element : ℕ} {rest : List Axis}
    (hc : collapse element axes = some (bytes, rest)) (dma remote : ℤ → β) (offsetDMA : ℤ) :
    putCoarrayDMA orgAddr element axes baseAddr dma offsetDMA remote =
      some (transfers bytes dma remote (visited rest.reverse (baseAddr - orgAddr) offsetDMA)) := by
  rw [putCoarrayDMA, hc, Option.bind_some]
  cases rest with
  | nil => rfl
  | cons a rest =>
    have hbody : ∀ p ∈ visited (a :: rest).reverse baseAddr offsetDMA, ∀ t : ℤ → β, ∃ t',
        some (putVectorDMA orgAddr p.1 bytes dma p.2 t) = some t' ∧
        t' = transfers bytes dma t (visited [] (p.1 + -orgAddr) (p.2 + 0)) := by
      intro p _ t
      refine ⟨_, rfl, ?_⟩
      rw [visited, transfers_cons, transfers_nil, add_zero, ← sub_eq_add_neg]
      rfl
    obtain ⟨t', ht', hsent⟩ := nest_transfers (fun t => t)
      (fun dst offset t => some (putVectorDMA orgAddr dst bytes dma offset t)) hbody remote
    rw [List.append_nil, add_zero, ← sub_eq_add_neg] at hsent
    rw [← hsent]
    exact ht'

/-- A put assigns the section, whatever the memories hold, if and only if its collapsed section can
be put without a packing walk over several streams. -/
theorem putArray_assigned_iff (E : PutEnv) (orgAddr : ℤ) (chunkDMA : Option ℤ) (element : ℕ)
    (axes : List Axis) (baseAddr rhs : ℤ) (helement : element < 2 ^ 31)
    (hd : SectionDisjoint element axes) :
    (∀ loc buf remote : ℤ → UInt8, ∃ remote',
      putArray E orgAddr loc chunkDMA element axes baseAddr rhs buf remote = some remote' ∧
      SectionAssigned element axes (baseAddr - orgAddr) rhs loc remote remote') ↔
    E.PutOk chunkDMA element axes := by
  constructor
  · intro h
    obtain ⟨remote', hput, hassign⟩ := h (fun _ => 0) (fun _ => 0) (fun _ => 1)
    have hunit : element % E.commUnit = 0 := by
      by_contra hne
      unfold putArray at hput
      rw [if_pos hne] at hput
      cases hput
    unfold putArray at hput
    rw [if_neg (not_not.mpr hunit)] at hput
    refine ⟨hunit, ?_⟩
    have hcollapse : ∃ p, collapse element axes = some p := by
      rw [← Option.isSome_iff_exists, ← Option.ne_none_iff_isSome]
      intro hnone
      cases chunkDMA with
      | some orgAddrDMA =>
        dsimp only at hput
        rw [putCoarrayDMA, hnone] at hput
        cases hput
      | none =>
        dsimp only at hput
        rw [putCoarrayBuffer, hnone] at hput
        cases hput
    obtain ⟨⟨bytes, rest⟩, hc⟩ := hcollapse
    refine ⟨bytes, rest, hc, ?_⟩
    intro hscheme
    subst hscheme
    obtain ⟨b', hb', hremote⟩ := Option.map_eq_some_iff.mp hput
    have hdis : 0 < bytes * elements rest → SectionDisjoint bytes rest := by
      intro hpos
      apply sectionDisjoint_collapse hc _ hd
      rwa [elements_collapse hc]
    apply bufferOk_of_coarrayBuffer hc (collapse_lt hc helement) hdis (x := 0) (y := 1)
      (by decide) hb' rfl
    rw [hremote, (sectionAssigned_iff_eq hd).mp hassign, transfers_collapse hc]
  · intro ⟨hunit, bytes, rest, hc, hok⟩ loc buf remote
    unfold putArray
    rw [if_neg (not_not.mpr hunit)]
    cases chunkDMA with
    | some orgAddrDMA =>
      refine ⟨_, coarrayDMA_spec hc _ _ _, ?_⟩
      rw [← SectionAssigned.shift_iff orgAddrDMA, ← transfers_collapse hc]
      exact sectionAssigned_transfers hd _ _ _ _
    | none =>
      obtain ⟨b', hb', hremote⟩ := coarrayBuffer_spec hc (hok rfl) (collapse_lt hc helement)
        (b := { contents := buf, used := 0, target := baseAddr, remote := remote })
      refine ⟨b'.remote, ?_, ?_⟩
      · dsimp only
        rw [hb', Option.map_some]
      · rw [hremote, sectionAssigned_iff_eq hd, transfers_collapse hc]

theorem putArray_row : ∃ remote', putArray ⟨4, 400000, false⟩ 0 (fun a => UInt8.ofInt a) none 4
      [⟨3, 4, 8⟩] 16 0 (fun _ => 0) (fun _ => 0) = some remote' ∧
    SectionAssigned 4 [⟨3, 4, 8⟩] (16 - 0) 0 (fun a => UInt8.ofInt a) (fun _ => 0) remote' := by
  have hd : SectionDisjoint 4 [⟨3, 4, 8⟩] := sectionDisjoint_iff.mpr (by decide)
  have hok : PutEnv.PutOk ⟨4, 400000, false⟩ none 4 [⟨3, 4, 8⟩] := by
    refine ⟨by decide, 4, [⟨3, 4, 8⟩], rfl, fun _ => ?_⟩
    refine ⟨by decide, 1, by decide +kernel, Or.inr ?_, Or.inr rfl⟩
    intro k hk _
    have hk3 : k < 3 := hk
    omega
  exact (putArray_assigned_iff ⟨4, 400000, false⟩ 0 none 4 [⟨3, 4, 8⟩] 16 0 (by decide) hd).mpr hok
    _ _ _

/-- Two rows of a coarray with a gap between them, put from every other element: both rows are
sent to the place of the first. -/
theorem putArray_rows_lost : SectionDisjoint 4 [⟨2, 4, 8⟩, ⟨2, 16, 16⟩] ∧
    ¬ ∃ remote', putArray ⟨4, 400000, false⟩ 0 (fun _ => (1 : UInt8)) none 4
        [⟨2, 4, 8⟩, ⟨2, 16, 16⟩] 0 0 (fun _ => 0) (fun _ => 0) = some remote' ∧
      SectionAssigned 4 [⟨2, 4, 8⟩, ⟨2, 16, 16⟩] (0 - 0) 0 (fun _ => 1) (fun _ => 0) remote' := by
  refine ⟨sectionDisjoint_iff.mpr (by decide), ?_⟩
  intro ⟨remote', hput, hassign⟩
  have hsent : (putArray ⟨4, 400000, false⟩ 0 (fun _ => (1 : UInt8)) none 4
      [⟨2, 4, 8⟩, ⟨2, 16, 16⟩] 0 0 (fun _ => 0) (fun _ => 0)).map (fun m => m 16) = some 0 := by
    decide +kernel
  rw [hput, Option.map_some] at hsent
  have hmoved := hassign.moved [0, 1] (mem_indices.mp (by decide)) 0 (by decide)
  exact absurd (hmoved.symm.trans (Option.some.inj hsent)) (by decide)

end OmniCompiler.Xmpf
