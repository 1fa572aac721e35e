import OmniCompiler.Arithmetic.MachineInt

/-!
# Allocation of coarrays (`xmpf_coarray_alloc.c`)

Every coarray is given a descriptor with its address and size and linked to the memory
chunk it lies in. Sizes of coarrays are of type `size_t`, the size of a chunk passes
through `unsigned`. Small static coarrays have shares of one pool, whose size has been
counted before.
-/
namespace OmniCompiler.Xmpf

/-- Conversion to `unsigned`. -/
def toUnsigned (x : ℕ) : ℕ := x % 2 ^ 32

/-- Conversion to `size_t`. -/
def toSizeT (x : ℕ) : ℕ := x % 2 ^ 64

/-- `MALLOC_UNIT`, `XMPF_get_poolThreshold()` and `XMPF_get_localBufSize()`. -/
structure AllocEnv where
  mallocUnit : ℕ
  poolThreshold : ℕ
  localBufSize : ℕ
  mallocUnit_eq : mallocUnit = 4 ∨ mallocUnit = 8

/-- Number of elements and element size, two `int`s. -/
structure CoarrayShape where
  count : ℕ
  element : ℕ
  count_lt : count < 2 ^ 31
  element_lt : element < 2 ^ 31

/-- Size of a coarray, which fits in `size_t`. -/
def CoarrayShape.bytes (s : CoarrayShape) : ℕ := s.count * s.element

/-- `orgAddr` and `nbytes`. -/
structure MemoryChunk where
  orgAddr : ℕ
  nbytes : ℕ

/-- `baseAddr`, `size` and `parent`. -/
structure CoarrayInfo where
  baseAddr : ℕ
  size : ℕ
  parent : MemoryChunk

def AllocEnv.roundUpMalloc (E : AllocEnv) (n : ℕ) : ℕ :=
  if 0 < n then ((n - 1) / E.mallocUnit + 1) * E.mallocUnit else E.mallocUnit

section Code

variable (E : AllocEnv)

/-- `_constructMemoryChunk`; the low-level library has the memory at `orgAddr`. -/
def constructMemoryChunk (orgAddr nbytes : ℕ) : MemoryChunk := ⟨orgAddr, toUnsigned nbytes⟩

def mallocMemoryChunk (count element orgAddr : ℕ) : MemoryChunk :=
  let nbytes := toUnsigned (count * element)
  let nbytesRU := toUnsigned (E.roundUpMalloc nbytes)
  constructMemoryChunk orgAddr nbytesRU

def coarrayMalloc (s : CoarrayShape) (orgAddr : ℕ) : CoarrayInfo :=
  let chunk := mallocMemoryChunk E s.count s.element orgAddr
  ⟨chunk.orgAddr, s.count * s.element, chunk⟩

def coarrayRegmem (s : CoarrayShape) (var : ℕ) : CoarrayInfo :=
  let chunk := constructMemoryChunk var s.count
  ⟨chunk.orgAddr, s.count * s.element, chunk⟩

/-- `xmpf_coarray_regmem_static_` and `_regmemStaticCoarray`; `none` is the fatal error for a base
address off the boundary. -/
def coarrayRegmemStatic (s : CoarrayShape) (baseAddr : ℕ) : Option CoarrayInfo :=
  if baseAddr % E.mallocUnit ≠ 0 then none
  else
    let nbytes := s.count * s.element
    let chunk := constructMemoryChunk baseAddr nbytes
    some ⟨chunk.orgAddr, nbytes, chunk⟩

def allocLargeStaticCoarray (nbytesRU orgAddr : ℕ) : CoarrayInfo :=
  let chunk := constructMemoryChunk orgAddr nbytesRU
  ⟨chunk.orgAddr, nbytesRU, chunk⟩

/-- `pool_totalSize`, `pool_chunk->orgAddr`, `pool_currentAddr` and the coarrays of the pool. -/
structure Pool where
  totalSize : ℕ
  orgAddr : ℕ
  currentAddr : ℕ
  coarrays : List CoarrayInfo

def Pool.chunk (p : Pool) : MemoryChunk := mallocMemoryChunk E 1 p.totalSize p.orgAddr

/-- `_getShareOfStaticCoarray`; `none` is the fatal error for an insufficient pool. -/
def getShareOfStaticCoarray (p : Pool) (nbytesRU : ℕ) : Option (CoarrayInfo × Pool) :=
  let cinfo : CoarrayInfo := ⟨p.currentAddr, nbytesRU, p.chunk E⟩
  if p.orgAddr + p.totalSize < p.currentAddr + nbytesRU then none
  else some (cinfo,
    { p with currentAddr := p.currentAddr + nbytesRU, coarrays := p.coarrays ++ [cinfo] })

/-- `xmpf_coarray_alloc_static_`; the low-level library has a large coarray at `orgAddr`. -/
def coarrayAllocStatic (p : Pool) (s : CoarrayShape) (orgAddr : ℕ) : Option (CoarrayInfo × Pool) :=
  let nbytes := s.count * s.element
  if E.poolThreshold < nbytes then some (allocLargeStaticCoarray nbytes orgAddr, p)
  else getShareOfStaticCoarray E p (E.roundUpMalloc nbytes)

def coarrayCountSize (totalSize : ℕ) (s : CoarrayShape) : ℕ :=
  let thisSize := s.count * s.element
  let mallocSize := E.roundUpMalloc thisSize
  if E.poolThreshold < mallocSize then totalSize else toSizeT (totalSize + mallocSize)

/-- `xmpf_coarray_malloc_pool_`; the control data are eight `int`s. -/
def coarrayMallocPool (totalSize orgAddr : ℕ) : Option Pool :=
  let ctrlDataSize := 4 * 8
  let totalSize := toSizeT (totalSize + (E.localBufSize + ctrlDataSize))
  let pool : Pool := { totalSize, orgAddr, currentAddr := orgAddr, coarrays := [] }
  (getShareOfStaticCoarray E pool E.localBufSize).bind fun (_, pool) =>
    (getShareOfStaticCoarray E pool ctrlDataSize).map Prod.snd

/-- Counting, allocation of the pool, and allocation of the coarrays. -/
def staticRun (counted : List CoarrayShape) (orgAddr : ℕ) (allocated : List (CoarrayShape × ℕ)) :
    Option Pool :=
  (coarrayMallocPool E (counted.foldl (coarrayCountSize E) 0) orgAddr).bind fun p =>
    allocated.foldlM (fun p a => (coarrayAllocStatic E p a.1 a.2).map Prod.snd) p

end Code

/-! ## Rounding -/

variable {E : AllocEnv}

namespace AllocEnv

theorem mallocUnit_pos (E : AllocEnv) : 0 < E.mallocUnit := by
  have := E.mallocUnit_eq
  omega

theorem mallocUnit_dvd (E : AllocEnv) : E.mallocUnit ∣ 2 ^ 32 := by
  obtain h | h := E.mallocUnit_eq
  · rw [h]
    decide
  · rw [h]
    decide

theorem le_roundUpMalloc (n : ℕ) : n ≤ E.roundUpMalloc n := by
  have hU := E.mallocUnit_pos
  unfold roundUpMalloc
  split_ifs with h
  · have hdiv := Nat.div_add_mod (n - 1) E.mallocUnit
    have hmod := Nat.mod_lt (n - 1) hU
    rw [Nat.succ_mul, mul_comm]
    omega
  · omega

theorem roundUpMalloc_pos (n : ℕ) : 0 < E.roundUpMalloc n := by
  have hU := E.mallocUnit_pos
  unfold roundUpMalloc
  split_ifs with h
  · exact Nat.mul_pos (Nat.succ_pos _) hU
  · exact hU

theorem roundUpMalloc_le {n m : ℕ} (hn : n ≤ m) (hm : 0 < m) (hdvd : E.mallocUnit ∣ m) :
    E.roundUpMalloc n ≤ m := by
  have hU := E.mallocUnit_pos
  obtain ⟨q, rfl⟩ := hdvd
  unfold roundUpMalloc
  split_ifs with h
  · have hlt : (n - 1) / E.mallocUnit < q := by
      rw [Nat.div_lt_iff_lt_mul hU, mul_comm]
      omega
    rw [mul_comm]
    exact Nat.mul_le_mul_left _ hlt
  · exact Nat.le_mul_of_pos_right _ (Nat.pos_of_mul_pos_left hm)

end AllocEnv

/-- A chunk made for a size is at least as long if and only if the rounded size fits in
`unsigned`. -/
theorem le_mallocMemoryChunk_iff {count element orgAddr : ℕ} :
    count * element ≤ (mallocMemoryChunk E count element orgAddr).nbytes ↔
      E.roundUpMalloc (count * element) < 2 ^ 32 := by
  have hle := E.le_roundUpMalloc (count * element)
  have hpos := E.roundUpMalloc_pos (count * element)
  unfold mallocMemoryChunk constructMemoryChunk toUnsigned
  dsimp only
  generalize count * element = n at *
  constructor
  · intro h
    have hn : n < 2 ^ 32 := by omega
    rw [Nat.mod_eq_of_lt hn] at h
    have hmax := E.roundUpMalloc_le hn.le (by decide) E.mallocUnit_dvd
    by_contra hge
    have heq : E.roundUpMalloc n = 2 ^ 32 := by omega
    have hn0 : n ≤ E.mallocUnit := by
      rw [heq, Nat.mod_self, Nat.zero_mod] at h
      omega
    have hunit := E.roundUpMalloc_le hn0 E.mallocUnit_pos dvd_rfl
    have := E.mallocUnit_eq
    omega
  · intro h
    have hn : n < 2 ^ 32 := by omega
    rw [Nat.mod_eq_of_lt hn, Nat.mod_mod, Nat.mod_eq_of_lt h]
    exact hle

/-- The coarray lies in the chunk. -/
def MemoryChunk.Contains (chunk : MemoryChunk) (c : CoarrayInfo) : Prop :=
  chunk.orgAddr ≤ c.baseAddr ∧ c.baseAddr + c.size ≤ chunk.orgAddr + chunk.nbytes

/-! ## Shares of the pool -/

/-- The shares follow each other from the origin of the pool to the current address. -/
structure Pool.Packed (E : AllocEnv) (p : Pool) : Prop where
  ordered : p.coarrays.Pairwise fun a b => a.baseAddr + a.size ≤ b.baseAddr
  within : ∀ c ∈ p.coarrays, p.orgAddr ≤ c.baseAddr ∧ c.baseAddr + c.size ≤ p.currentAddr
  last : p.coarrays ≠ [] → ∃ c ∈ p.coarrays, c.baseAddr + c.size = p.currentAddr
  le : p.orgAddr ≤ p.currentAddr

theorem share_packed {p p' : Pool} {n : ℕ} {c : CoarrayInfo} (hp : p.Packed E)
    (h : getShareOfStaticCoarray E p n = some (c, p')) :
    p'.Packed E ∧ p'.orgAddr = p.orgAddr ∧ p'.totalSize = p.totalSize ∧ p'.coarrays ≠ [] ∧
      p'.currentAddr = p.currentAddr + n ∧ p'.currentAddr ≤ p.orgAddr + p.totalSize := by
  unfold getShareOfStaticCoarray at h
  dsimp only at h
  split_ifs at h with hfew
  cases h
  refine ⟨⟨?_, ?_, ?_, ?_⟩, rfl, rfl, by simp, rfl, Nat.le_of_not_lt hfew⟩
  · rw [List.pairwise_append]
    refine ⟨hp.ordered, List.pairwise_singleton _ _, ?_⟩
    intro a ha b hb
    obtain rfl := List.mem_singleton.mp hb
    exact (hp.within a ha).2
  · intro a ha
    obtain ha | ha := List.mem_append.mp ha
    · obtain ⟨hlo, hhi⟩ := hp.within a ha
      exact ⟨hlo, Nat.le_add_right_of_le hhi⟩
    · obtain rfl := List.mem_singleton.mp ha
      exact ⟨hp.le, le_rfl⟩
  · intro _
    exact ⟨_, List.mem_append_right _ (List.mem_singleton_self _), rfl⟩
  · exact Nat.le_add_right_of_le hp.le

theorem share_eq_some {p : Pool} {n : ℕ} (h : p.currentAddr + n ≤ p.orgAddr + p.totalSize) :
    ∃ c p', getShareOfStaticCoarray E p n = some (c, p') :=
  ⟨_, _, if_neg (Nat.not_lt.mpr h)⟩

def AllocEnv.shares (E : AllocEnv) (shapes : List CoarrayShape) : List ℕ :=
  (shapes.filter fun s => s.bytes ≤ E.poolThreshold).map fun s => E.roundUpMalloc s.bytes

def AllocEnv.countedSizes (E : AllocEnv) (shapes : List CoarrayShape) : List ℕ :=
  (shapes.map fun s => E.roundUpMalloc s.bytes).filter fun n => n ≤ E.poolThreshold

def AllocEnv.poolSize (E : AllocEnv) (shapes : List CoarrayShape) : ℕ :=
  E.localBufSize + 32 + (E.countedSizes shapes).sum

theorem shares_cons (s : CoarrayShape) (shapes : List CoarrayShape) : E.shares (s :: shapes) =
    if s.bytes ≤ E.poolThreshold then E.roundUpMalloc s.bytes :: E.shares shapes
    else E.shares shapes := by
  unfold AllocEnv.shares
  split_ifs with h
  · simp [h]
  · simp [h]

theorem countedSizes_cons (s : CoarrayShape) (shapes : List CoarrayShape) :
    E.countedSizes (s :: shapes) = if E.roundUpMalloc s.bytes ≤ E.poolThreshold then
      E.roundUpMalloc s.bytes :: E.countedSizes shapes else E.countedSizes shapes := by
  unfold AllocEnv.countedSizes
  split_ifs with h
  · simp [h]
  · simp [h]

theorem countSize_foldl (shapes : List CoarrayShape) (total : ℕ) :
    toSizeT (shapes.foldl (coarrayCountSize E) total) =
      toSizeT (total + (E.countedSizes shapes).sum) := by
  induction shapes generalizing total with
  | nil => rfl
  | cons s shapes ih =>
    rw [List.foldl_cons, ih, countedSizes_cons, coarrayCountSize, ← CoarrayShape.bytes]
    by_cases h : E.roundUpMalloc s.bytes ≤ E.poolThreshold
    · rw [if_pos h, if_neg (Nat.not_lt.mpr h), List.sum_cons, toSizeT, toSizeT, toSizeT,
        Nat.mod_add_mod, add_assoc]
    · rw [if_neg h, if_pos (Nat.lt_of_not_le h)]

/-- A coarray is counted only if it has a share, and all of them are only if none that has a share
is rounded up beyond the threshold. -/
theorem countedSizes_le_shares (shapes : List CoarrayShape) :
    (E.countedSizes shapes).sum ≤ (E.shares shapes).sum ∧
      ((E.countedSizes shapes).sum = (E.shares shapes).sum ↔
        ∀ s ∈ shapes, ¬ (s.bytes ≤ E.poolThreshold ∧
          E.poolThreshold < E.roundUpMalloc s.bytes)) := by
  induction shapes with
  | nil => simp [AllocEnv.countedSizes, AllocEnv.shares]
  | cons s shapes ih =>
    have hle := E.le_roundUpMalloc s.bytes
    have hpos := E.roundUpMalloc_pos s.bytes
    rw [countedSizes_cons, shares_cons, List.forall_mem_cons, ← ih.2]
    have hsum := ih.1
    by_cases hcounted : E.roundUpMalloc s.bytes ≤ E.poolThreshold
    · rw [if_pos hcounted, if_pos (hle.trans hcounted), List.sum_cons, List.sum_cons]
      omega
    · rw [if_neg hcounted]
      by_cases hshare : s.bytes ≤ E.poolThreshold
      · rw [if_pos hshare, List.sum_cons]
        omega
      · rw [if_neg hshare]
        omega

/-- `xmpf_coarray_alloc_static_` for one coarray after the other. -/
def allocStatics (E : AllocEnv) (allocated : List (CoarrayShape × ℕ)) (p : Pool) : Option Pool :=
  allocated.foldlM (fun p a => (coarrayAllocStatic E p a.1 a.2).map Prod.snd) p

theorem allocStatics_cons (a : CoarrayShape × ℕ) (allocated : List (CoarrayShape × ℕ)) (p : Pool) :
    allocStatics E (a :: allocated) p =
      if a.1.bytes ≤ E.poolThreshold then
        (getShareOfStaticCoarray E p (E.roundUpMalloc a.1.bytes)).bind fun c =>
          allocStatics E allocated c.2
      else allocStatics E allocated p := by
  rw [allocStatics, List.foldlM_cons, coarrayAllocStatic, ← CoarrayShape.bytes]
  split_ifs with hlarge hle hle
  · exact absurd hle (Nat.not_le.mpr hlarge)
  · rfl
  · cases getShareOfStaticCoarray E p (E.roundUpMalloc a.1.bytes)
    · rfl
    · rfl
  · exact absurd (Nat.le_of_not_lt hlarge) hle

theorem allocStatics_spec {p : Pool} (hp : p.Packed E) (hne : p.coarrays ≠ [])
    (allocated : List (CoarrayShape × ℕ))
    (hroom : p.currentAddr + (E.shares (allocated.map Prod.fst)).sum ≤ p.orgAddr + p.totalSize) :
    ∃ p', allocStatics E allocated p = some p' ∧ p'.Packed E ∧ p'.orgAddr = p.orgAddr ∧
      p'.totalSize = p.totalSize ∧ p'.coarrays ≠ [] ∧
      p'.currentAddr = p.currentAddr + (E.shares (allocated.map Prod.fst)).sum := by
  induction allocated generalizing p with
  | nil => exact ⟨p, rfl, hp, rfl, rfl, hne, rfl⟩
  | cons a allocated ih =>
    rw [List.map_cons, shares_cons] at hroom ⊢
    rw [allocStatics_cons]
    by_cases hshare : a.1.bytes ≤ E.poolThreshold
    · rw [if_pos hshare, List.sum_cons] at hroom
      rw [if_pos hshare, if_pos hshare, List.sum_cons]
      obtain ⟨c, q, hq⟩ :=
        share_eq_some (E := E) (p := p) (n := E.roundUpMalloc a.1.bytes) (by omega)
      obtain ⟨hpacked, horg, htotal, hcoarrays, hcur, -⟩ := share_packed hp hq
      obtain ⟨p', hrun, hp', horg', htotal', hne', hcur'⟩ := ih hpacked hcoarrays (by omega)
      refine ⟨p', ?_, hp', by rw [horg', horg], by rw [htotal', htotal], hne', by omega⟩
      rw [hq]
      exact hrun
    · rw [if_neg hshare] at hroom
      rw [if_neg hshare, if_neg hshare]
      exact ih hp hne hroom

theorem allocStatics_none {p : Pool} (hp : p.Packed E)
    (hfit : p.currentAddr ≤ p.orgAddr + p.totalSize)
    (allocated : List (CoarrayShape × ℕ)) (hroom :
      ¬ p.currentAddr + (E.shares (allocated.map Prod.fst)).sum ≤ p.orgAddr + p.totalSize) :
    allocStatics E allocated p = none := by
  induction allocated generalizing p with
  | nil => exact absurd hfit hroom
  | cons a allocated ih =>
    rw [List.map_cons, shares_cons] at hroom
    rw [allocStatics_cons]
    by_cases hshare : a.1.bytes ≤ E.poolThreshold
    · rw [if_pos hshare, List.sum_cons] at hroom
      rw [if_pos hshare]
      cases hq : getShareOfStaticCoarray E p (E.roundUpMalloc a.1.bytes) with
      | none => rfl
      | some c =>
        obtain ⟨hpacked, horg, htotal, -, hcur, hle⟩ := share_packed hp hq
        exact ih hpacked (by omega) (by omega)
    · rw [if_neg hshare] at hroom ⊢
      exact ih hp hfit hroom

theorem mallocPool_spec {total size : ℕ} (orgAddr : ℕ)
    (hsize : toSizeT (total + (E.localBufSize + 32)) = size) (hroom : E.localBufSize + 32 ≤ size) :
    ∃ p, coarrayMallocPool E total orgAddr = some p ∧ p.Packed E ∧ p.orgAddr = orgAddr ∧
      p.totalSize = size ∧ p.coarrays ≠ [] ∧ p.currentAddr = orgAddr + (E.localBufSize + 32) := by
  have hempty : Pool.Packed E ⟨size, orgAddr, orgAddr, []⟩ :=
    ⟨List.Pairwise.nil, by simp, by simp, le_rfl⟩
  obtain ⟨c, p, hp⟩ := share_eq_some (E := E) (p := ⟨size, orgAddr, orgAddr, []⟩)
    (n := E.localBufSize) (by dsimp only; omega)
  obtain ⟨hpacked, horg, htotal, -, hcur, -⟩ := share_packed hempty hp
  dsimp only at horg htotal hcur
  obtain ⟨c', p', hp'⟩ := share_eq_some (E := E) (p := p) (n := 32) (by omega)
  obtain ⟨hpacked', horg', htotal', hne', hcur', -⟩ := share_packed hpacked hp'
  refine ⟨p', ?_, hpacked', by omega, by omega, hne', by omega⟩
  rw [coarrayMallocPool]
  dsimp only
  rw [hsize, hp, Option.bind_some, hp']
  rfl

theorem mallocPool_none {total orgAddr size : ℕ}
    (hsize : toSizeT (total + (E.localBufSize + 32)) = size)
    (hroom : ¬ E.localBufSize + 32 ≤ size) :
    coarrayMallocPool E total orgAddr = none := by
  have hempty : Pool.Packed E ⟨size, orgAddr, orgAddr, []⟩ :=
    ⟨List.Pairwise.nil, by simp, by simp, le_rfl⟩
  rw [coarrayMallocPool]
  dsimp only
  rw [hsize]
  cases hp : getShareOfStaticCoarray E ⟨size, orgAddr, orgAddr, []⟩ E.localBufSize with
  | none => rfl
  | some c =>
    obtain ⟨hpacked, horg, htotal, -, hcur, -⟩ := share_packed hempty hp
    dsimp only at horg htotal hcur
    rw [Option.bind_some]
    cases hp' : getShareOfStaticCoarray E c.2 32 with
    | none => rfl
    | some c' =>
      obtain ⟨-, -, -, -, hcur', hle⟩ := share_packed hpacked hp'
      omega

variable {counted : List CoarrayShape} {allocated : List (CoarrayShape × ℕ)} {orgAddr size : ℕ}

theorem staticRun_spec (orgAddr : ℕ) (allocated : List (CoarrayShape × ℕ))
    (hsize : toSizeT (counted.foldl (coarrayCountSize E) 0 + (E.localBufSize + 32)) = size)
    (hroom : E.localBufSize + 32 + (E.shares (allocated.map Prod.fst)).sum ≤ size) :
    ∃ p, staticRun E counted orgAddr allocated = some p ∧ p.Packed E ∧ p.orgAddr = orgAddr ∧
      p.totalSize = size ∧ p.coarrays ≠ [] ∧ p.currentAddr = orgAddr +
        (E.localBufSize + 32 + (E.shares (allocated.map Prod.fst)).sum) := by
  obtain ⟨q, hq, hpacked, horg, htotal, hne, hcur⟩ := mallocPool_spec orgAddr hsize (by omega)
  obtain ⟨p, hp, hp', horg', htotal', hne', hcur'⟩ := allocStatics_spec hpacked hne allocated
    (by omega)
  refine ⟨p, ?_, hp', by omega, by omega, hne', by omega⟩
  rw [staticRun, hq, Option.bind_some]
  exact hp

theorem staticRun_none
    (hsize : toSizeT (counted.foldl (coarrayCountSize E) 0 + (E.localBufSize + 32)) = size)
    (hroom : ¬ E.localBufSize + 32 + (E.shares (allocated.map Prod.fst)).sum ≤ size) :
    staticRun E counted orgAddr allocated = none := by
  rw [staticRun]
  by_cases hlib : E.localBufSize + 32 ≤ size
  · obtain ⟨q, hq, hpacked, horg, htotal, -, hcur⟩ := mallocPool_spec orgAddr hsize hlib
    rw [hq, Option.bind_some]
    exact allocStatics_none hpacked (by omega) allocated (by omega)
  · rw [mallocPool_none hsize hlib]
    rfl

/-- `pool_totalSize` is the size that the pool should have, in the range of `size_t`. -/
theorem totalSize_eq (E : AllocEnv) (counted : List CoarrayShape) :
    toSizeT (counted.foldl (coarrayCountSize E) 0 + (E.localBufSize + 32)) =
      toSizeT (E.poolSize counted) := by
  have hcount := countSize_foldl (E := E) counted 0
  unfold toSizeT at hcount ⊢
  rw [zero_add] at hcount
  rw [← Nat.mod_add_mod, hcount, Nat.mod_add_mod, AllocEnv.poolSize, add_comm]

theorem le_chunk_iff (p : Pool) :
    p.totalSize ≤ (p.chunk E).nbytes ↔ E.roundUpMalloc p.totalSize < 2 ^ 32 := by
  have := @le_mallocMemoryChunk_iff E 1 p.totalSize p.orgAddr
  rwa [Nat.one_mul] at this

/-- Two shares have no byte in common. -/
def CoarrayInfo.Disjoint (a b : CoarrayInfo) : Prop :=
  a.baseAddr + a.size ≤ b.baseAddr ∨ b.baseAddr + b.size ≤ a.baseAddr

/-- No coarray has a share without being counted, and the pool, rounded up, fits in `unsigned`. -/
def AllocEnv.PoolSuffices (E : AllocEnv) (shapes : List CoarrayShape) : Prop :=
  (∀ s ∈ shapes, ¬ (s.bytes ≤ E.poolThreshold ∧ E.poolThreshold < E.roundUpMalloc s.bytes)) ∧
    E.roundUpMalloc (E.poolSize shapes) < 2 ^ 32

/-- The pool suffices, and holds disjoint shares within its chunk, if and only if no coarray is
rounded up beyond the threshold and the size of the pool is not truncated. -/
theorem staticRun_suffices_iff (E : AllocEnv) (counted : List CoarrayShape) (orgAddr : ℕ)
    (allocated : List (CoarrayShape × ℕ)) (hperm : (allocated.map Prod.fst).Perm counted) :
    (∃ p, staticRun E counted orgAddr allocated = some p ∧
      p.coarrays.Pairwise CoarrayInfo.Disjoint ∧ ∀ c ∈ p.coarrays, (p.chunk E).Contains c) ↔
    E.PoolSuffices counted := by
  have hshares : (E.shares (allocated.map Prod.fst)).sum = (E.shares counted).sum :=
    ((hperm.filter _).map _).sum_eq
  obtain ⟨hle, heq⟩ := countedSizes_le_shares (E := E) counted
  have hpool : E.poolSize counted = E.localBufSize + 32 + (E.countedSizes counted).sum := rfl
  have htotal := totalSize_eq E counted
  have hmod : toSizeT (E.poolSize counted) ≤ E.poolSize counted := Nat.mod_le _ _
  rw [AllocEnv.PoolSuffices, ← heq]
  constructor
  · intro ⟨p, hrun, _, hcontains⟩
    have hroom : E.localBufSize + 32 + (E.shares (allocated.map Prod.fst)).sum ≤
        toSizeT (E.poolSize counted) := by
      by_contra hno
      rw [staticRun_none htotal hno] at hrun
      cases hrun
    obtain ⟨p', hp', hpacked, horg, hsize, hne, hcur⟩ :=
      staticRun_spec orgAddr allocated htotal hroom
    rw [hrun] at hp'
    obtain rfl := Option.some.inj hp'
    have hall : (E.countedSizes counted).sum = (E.shares counted).sum := by omega
    have hexact : p.totalSize = E.poolSize counted := by omega
    refine ⟨hall, ?_⟩
    rw [← hexact, ← le_chunk_iff]
    -- The last share ends at the current address, which is the end of the pool.
    obtain ⟨c, hc, hend⟩ := hpacked.last hne
    have hlast := (hcontains c hc).2
    have hchunk : (p.chunk E).orgAddr = p.orgAddr := rfl
    omega
  · intro ⟨hall, hfits⟩
    have hexact : toSizeT (E.poolSize counted) = E.poolSize counted := by
      have := E.le_roundUpMalloc (E.poolSize counted)
      unfold toSizeT
      omega
    obtain ⟨p, hp, hpacked, horg, hsize, -, hcur⟩ := staticRun_spec orgAddr allocated
      htotal (by omega)
    refine ⟨p, hp, hpacked.ordered.imp Or.inl, ?_⟩
    intro c hc
    obtain ⟨hlo, hhi⟩ := hpacked.within c hc
    rw [← hexact, ← hsize, ← le_chunk_iff] at hfits
    have hchunk : (p.chunk E).orgAddr = p.orgAddr := rfl
    exact ⟨by omega, by omega⟩

theorem staticRun_suffices_two : ∃ p,
    staticRun ⟨4, 100, 16, Or.inl rfl⟩ [⟨5, 1, by decide, by decide⟩, ⟨30, 4, by decide, by decide⟩]
      4096 [(⟨30, 4, by decide, by decide⟩, 8192), (⟨5, 1, by decide, by decide⟩, 0)] = some p ∧
    p.coarrays.Pairwise CoarrayInfo.Disjoint ∧
      ∀ c ∈ p.coarrays, (p.chunk ⟨4, 100, 16, Or.inl rfl⟩).Contains c := by
  apply (staticRun_suffices_iff ⟨4, 100, 16, Or.inl rfl⟩ _ 4096
    [(⟨30, 4, by decide, by decide⟩, 8192), (⟨5, 1, by decide, by decide⟩, 0)]
    (List.Perm.swap _ _ _)).mpr
  refine ⟨?_, by decide⟩
  intro s hs
  simp only [List.map_nil, List.mem_cons, List.not_mem_nil, or_false] at hs
  obtain rfl | rfl := hs
  · decide
  · decide

/-- With a threshold of five bytes, a coarray of five bytes is not counted, but has a share. -/
theorem staticRun_insufficient :
    staticRun ⟨4, 5, 16, Or.inl rfl⟩ [⟨5, 1, by decide, by decide⟩] 4096
      [(⟨5, 1, by decide, by decide⟩, 0)] = none := by
  decide

end OmniCompiler.Xmpf
