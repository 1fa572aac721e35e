import OmniCompiler.Xmpf.ChunkTable
import OmniCompiler.Xmpf.CoarrayAlloc

/-!
# Coarrays in their chunks (`xmpf_coarray_alloc.c`)

The four entries that allocate a coarray, on the pool and on the table of chunks. The
size of a new chunk passes through `unsigned`, and so does the size of the pool, in
which the static coarrays have their shares one after the other.
-/
namespace OmniCompiler.Xmpf

/-- `_XMPF_isAddrInCoarrayChunk`; an address before the chunk has a huge offset. -/
def CoarrayInfo.isAddrInCoarrayChunk (c : CoarrayInfo) (addr : ℕ) : Prop :=
  c.parent.orgAddr ≤ addr ∧ addr - c.parent.orgAddr < c.parent.nbytes

/-- A chunk as the table has it; `ptr` is the structure. -/
def MemoryChunk.booked (chunk : MemoryChunk) (ptr : ℕ) : Chunk := ⟨ptr, chunk.orgAddr, chunk.nbytes⟩

/-- The pool, the structure `pool_chunk` and `_sortedChunkTable`. -/
structure ChunkState where
  pool : Pool
  poolPtr : ℕ
  table : SortedChunkTable

/-- One of the four entries that allocate a coarray, with the address that the memory has. -/
inductive AllocEntry
  | malloc (orgAddr : ℕ)
  | regmem (var : ℕ)
  | allocStatic (orgAddr : ℕ)
  | regmemStatic (baseAddr : ℕ)

namespace AllocEntry

variable (E : AllocEnv) (s : CoarrayShape)

/-- The descriptor that the entry produces, unless it ends the program, and the pool. -/
def cinfo (p : Pool) : AllocEntry → Option (CoarrayInfo × Pool)
  | malloc orgAddr => some (coarrayMalloc E s orgAddr, p)
  | regmem var => some (coarrayRegmem s var, p)
  | allocStatic orgAddr => coarrayAllocStatic E p s orgAddr
  | regmemStatic baseAddr => (coarrayRegmemStatic E s baseAddr).map fun c => (c, p)

/-- `_getShareOfStaticCoarray` is called, and not `_constructMemoryChunk`. -/
def Shares : AllocEntry → Prop
  | allocStatic _ => s.bytes ≤ E.poolThreshold
  | _ => False

instance : DecidablePred (Shares E s)
  | malloc _ => inferInstanceAs (Decidable False)
  | regmem _ => inferInstanceAs (Decidable False)
  | allocStatic _ => inferInstanceAs (Decidable (_ ≤ _))
  | regmemStatic _ => inferInstanceAs (Decidable False)

/-- The entry, where `ptr` is the structure that a new chunk gets: the coarray, the chunk it lies in
and the state after. A new chunk is booked; `none` is a fatal error. -/
def run (ptr : ℕ) (st : ChunkState) (entry : AllocEntry) :
    Option (CoarrayInfo × Chunk × ChunkState) :=
  (entry.cinfo E s st.pool).bind fun (c, pool) =>
    if entry.Shares E s then
      some (c, c.parent.booked st.poolPtr, { st with pool := pool })
    else
      (st.table.add (c.parent.booked ptr)).map fun table =>
        (c, c.parent.booked ptr, { st with pool := pool, table := table })

/-- The memory for a new chunk is not in use. -/
def Placed (ptr : ℕ) (p : Pool) (live : List Chunk) (entry : AllocEntry) : Prop :=
  ¬ entry.Shares E s → ∀ c p', entry.cinfo E s p = some (c, p') → c.parent.nbytes ≠ 0 →
    (TableCall.add (c.parent.booked ptr)).Legal live

def statics (before : List CoarrayShape) : AllocEntry → List CoarrayShape
  | allocStatic _ => before ++ [s]
  | _ => before

end AllocEntry

/-- The live chunks after `chunk` has been booked; an empty one is not. -/
def Chunk.addTo (live : List Chunk) (chunk : Chunk) : List Chunk :=
  if chunk.nbytes = 0 ∨ chunk ∈ live then live else chunk :: live

/-- What a program that has counted `counted` can have allocated: `before` are the static coarrays
from `xmpf_coarray_malloc_pool_` on, and `live` are the chunks that have not been freed. -/
inductive Reached (E : AllocEnv) (counted : List CoarrayShape) :
    List CoarrayShape → ChunkState → List Chunk → Prop
  | pool {fresh : ℕ → SortedChunkEntry} {orgAddr ptr : ℕ} {p : Pool} {T : SortedChunkTable}
      (hpool : coarrayMallocPool E (counted.foldl (coarrayCountSize E) 0) orgAddr = some p)
      (hplaced : (p.chunk E).nbytes ≠ 0 → ((p.chunk E).booked ptr).Proper)
      (hadd : (SortedChunkTable.init fresh).add ((p.chunk E).booked ptr) = some T) :
      Reached E counted [] ⟨p, ptr, T⟩ (((p.chunk E).booked ptr).addTo [])
  | alloc {before : List CoarrayShape} {st st' : ChunkState} {live : List Chunk} {s : CoarrayShape}
      {ptr : ℕ} {c : CoarrayInfo} {k : Chunk} (entry : AllocEntry)
      (h : Reached E counted before st live) (hplaced : entry.Placed E s ptr st.pool live)
      (hrun : entry.run E s ptr st = some (c, k, st')) :
      Reached E counted (entry.statics s before) st' (k.addTo live)
  | free {before : List CoarrayShape} {st : ChunkState} {live : List Chunk} {k : Chunk}
      {T : SortedChunkTable} (h : Reached E counted before st live) (hk : k ∈ live)
      (hpool : k ≠ (st.pool.chunk E).booked st.poolPtr) (hdel : st.table.del k = some T) :
      Reached E counted before { st with table := T } (live.erase k)

/-- The bytes of the pool that are shared after the static coarrays `before`. -/
def AllocEnv.sharedBytes (E : AllocEnv) (before : List CoarrayShape) : ℕ :=
  E.localBufSize + 32 + (E.shares before).sum

/-- The size of the chunk does not lose anything on its way through `unsigned`; a registered coarray
has elements of one byte. A share of the pool is refused, or ends within what is left of the size of
the pool, as every share does where nothing of that size is lost. -/
def AllocEntry.Fits (E : AllocEnv) (counted before : List CoarrayShape) (s : CoarrayShape) :
    AllocEntry → Prop
  | malloc _ => E.roundUpMalloc s.bytes < 2 ^ 32
  | regmem _ => s.count = 0 ∨ s.element ≤ 1
  | allocStatic _ =>
    if E.poolThreshold < s.bytes then s.bytes < 2 ^ 32
    else
      E.roundUpMalloc (toSizeT (E.poolSize counted)) < 2 ^ 32 ∨
      toSizeT (E.poolSize counted) < E.sharedBytes (before ++ [s]) ∨
      E.sharedBytes (before ++ [s]) ≤
        toUnsigned (E.roundUpMalloc (toUnsigned (toSizeT (E.poolSize counted))))
  | regmemStatic baseAddr => baseAddr % E.mallocUnit ≠ 0 ∨ s.bytes < 2 ^ 32

variable {E : AllocEnv} {s : CoarrayShape} {counted before : List CoarrayShape}

/-! ## Reached states -/

/-- The table has the live chunks, among them the one of the pool, whose shares follow each
other. -/
structure Reached.Inv (E : AllocEnv) (counted before : List CoarrayShape) (st : ChunkState)
    (live : List Chunk) : Prop where
  holds : st.table.Holds live
  chunks : LiveChunks live
  pool : (st.pool.chunk E).nbytes ≠ 0 → (st.pool.chunk E).booked st.poolPtr ∈ live
  current : st.pool.currentAddr = st.pool.orgAddr + E.sharedBytes before
  total : st.pool.totalSize = toSizeT (E.poolSize counted)

theorem sharedBytes_append (before : List CoarrayShape) (s : CoarrayShape) :
    E.sharedBytes (before ++ [s]) =
      E.sharedBytes before + if s.bytes ≤ E.poolThreshold then E.roundUpMalloc s.bytes else 0 := by
  unfold AllocEnv.sharedBytes AllocEnv.shares
  split_ifs with h
  · simp [h, add_assoc]
  · simp [h]

theorem coarrayAllocStatic_large (h : ¬ s.bytes ≤ E.poolThreshold) (p : Pool) (orgAddr : ℕ) :
    coarrayAllocStatic E p s orgAddr = some (allocLargeStaticCoarray s.bytes orgAddr, p) :=
  if_pos (Nat.lt_of_not_le h)

theorem coarrayAllocStatic_small (h : s.bytes ≤ E.poolThreshold) (p : Pool) (orgAddr : ℕ) :
    coarrayAllocStatic E p s orgAddr = getShareOfStaticCoarray E p (E.roundUpMalloc s.bytes) :=
  if_neg (Nat.not_lt.mpr h)

theorem getShare_eq_some {p p' : Pool} {n : ℕ} {c : CoarrayInfo}
    (h : getShareOfStaticCoarray E p n = some (c, p')) :
    c = ⟨p.currentAddr, n, p.chunk E⟩ ∧ p.currentAddr + n ≤ p.orgAddr + p.totalSize ∧
      p' = { p with currentAddr := p.currentAddr + n, coarrays := p.coarrays ++ [c] } := by
  unfold getShareOfStaticCoarray at h
  dsimp only at h
  split_ifs at h with hfew
  cases h
  exact ⟨rfl, Nat.le_of_not_lt hfew, rfl⟩

theorem cinfo_pool {entry : AllocEntry} {p p' : Pool} {c : CoarrayInfo} (before : List CoarrayShape)
    (h : entry.cinfo E s p = some (c, p')) :
    p'.orgAddr = p.orgAddr ∧ p'.totalSize = p.totalSize ∧
      p'.currentAddr + E.sharedBytes before =
        p.currentAddr + E.sharedBytes (entry.statics s before) ∧
      (entry.Shares E s → c.parent = p.chunk E) := by
  cases entry with
  | malloc orgAddr =>
    cases h
    exact ⟨rfl, rfl, rfl, False.elim⟩
  | regmem var =>
    cases h
    exact ⟨rfl, rfl, rfl, False.elim⟩
  | allocStatic orgAddr =>
    rw [AllocEntry.statics, sharedBytes_append]
    rw [AllocEntry.cinfo] at h
    by_cases hsmall : s.bytes ≤ E.poolThreshold
    · rw [coarrayAllocStatic_small hsmall] at h
      obtain ⟨rfl, -, rfl⟩ := getShare_eq_some h
      rw [if_pos hsmall]
      exact ⟨rfl, rfl, by dsimp only; omega, fun _ => rfl⟩
    · rw [coarrayAllocStatic_large hsmall] at h
      cases h
      rw [if_neg hsmall]
      exact ⟨rfl, rfl, rfl, fun hshares => absurd hshares hsmall⟩
  | regmemStatic baseAddr =>
    obtain ⟨c', -, heq⟩ := Option.map_eq_some_iff.mp h
    cases heq
    exact ⟨rfl, rfl, rfl, False.elim⟩

theorem chunk_congr {p p' : Pool} (horg : p'.orgAddr = p.orgAddr)
    (htotal : p'.totalSize = p.totalSize) : p'.chunk E = p.chunk E := by
  rw [Pool.chunk, Pool.chunk, horg, htotal]

theorem add_addTo {T : SortedChunkTable} {live : List Chunk} {k : Chunk} (hT : T.Holds live)
    (hl : LiveChunks live) (hk : k.nbytes ≠ 0 → (TableCall.add k).Legal live) :
    ∃ T', T.add k = some T' ∧ T'.Holds (k.addTo live) ∧ LiveChunks (k.addTo live) ∧
      (k.nbytes ≠ 0 → k ∈ k.addTo live) ∧ ∀ c ∈ live, c ∈ k.addTo live := by
  unfold Chunk.addTo
  by_cases hempty : k.nbytes = 0
  · rw [if_pos (Or.inl hempty)]
    exact ⟨T, if_pos hempty, hT, hl, fun hne => absurd hempty hne, fun c hc => hc⟩
  · obtain ⟨hproper, happ⟩ := hk hempty
    have hnew : k ∉ live := by
      intro hmem
      have hself := happ k hmem
      have hpos := hproper.1
      unfold Chunk.Apart at hself
      omega
    obtain ⟨T', hadd, hT'⟩ := add_holds hT hl hproper happ
    rw [if_neg (not_or.mpr ⟨hempty, hnew⟩)]
    exact ⟨T', hadd, hT', hl.cons hproper happ, fun _ => List.mem_cons_self,
      fun c hc => List.mem_cons_of_mem _ hc⟩

/-- An entry that produces a descriptor ends, and the table has the chunk of the coarray. -/
theorem run_spec {entry : AllocEntry} {ptr : ℕ} {st : ChunkState} {live : List Chunk}
    {c : CoarrayInfo} {p : Pool} (hinv : Reached.Inv E counted before st live)
    (hplaced : entry.Placed E s ptr st.pool live) (hc : entry.cinfo E s st.pool = some (c, p)) :
    ∃ k st', entry.run E s ptr st = some (c, k, st') ∧ k.orgAddr = c.parent.orgAddr ∧
      k.nbytes = c.parent.nbytes ∧ (k.nbytes ≠ 0 → k ∈ k.addTo live) ∧
      Reached.Inv E counted (entry.statics s before) st' (k.addTo live) := by
  obtain ⟨horg, htotal, hcur, hparent⟩ := cinfo_pool before hc
  have hchunk := chunk_congr (E := E) horg htotal
  have hcurrent := hinv.current
  unfold AllocEntry.run
  rw [hc, Option.bind_some]
  dsimp only
  by_cases hshares : entry.Shares E s
  · rw [if_pos hshares]
    have hmem : (c.parent.booked st.poolPtr).nbytes ≠ 0 → c.parent.booked st.poolPtr ∈ live := by
      rw [hparent hshares]
      exact hinv.pool
    have hsame : (c.parent.booked st.poolPtr).addTo live = live := by
      rw [Chunk.addTo, if_pos (or_iff_not_imp_left.mpr hmem)]
    refine ⟨_, _, rfl, rfl, rfl, ?_, ?_⟩
    · rw [hsame]
      exact hmem
    · rw [hsame]
      refine ⟨hinv.holds, hinv.chunks, ?_, by dsimp only; omega, htotal.trans hinv.total⟩
      rw [hchunk]
      exact hinv.pool
  · rw [if_neg hshares]
    obtain ⟨T', hadd, hT', hl', hnew, hkeep⟩ := add_addTo (k := c.parent.booked ptr) hinv.holds
      hinv.chunks (hplaced hshares c p hc)
    rw [hadd, Option.map_some]
    refine ⟨_, _, rfl, rfl, rfl, hnew, hT', hl', ?_, by dsimp only; omega,
      htotal.trans hinv.total⟩
    rw [hchunk]
    exact fun hne => hkeep _ (hinv.pool hne)

theorem Reached.inv {st : ChunkState} {live : List Chunk} (h : Reached E counted before st live) :
    Reached.Inv E counted before st live := by
  induction h with
  | @pool fresh orgAddr ptr p T hpool hplaced hadd =>
    have htotal := totalSize_eq E counted
    have hroom : E.localBufSize + 32 ≤ toSizeT (E.poolSize counted) := by
      by_contra hno
      rw [mallocPool_none htotal hno] at hpool
      cases hpool
    obtain ⟨q, hq, -, horg, hsize, -, hcur⟩ := mallocPool_spec orgAddr htotal hroom
    rw [hpool] at hq
    obtain rfl := Option.some.inj hq
    obtain ⟨T', hT', hholds, hlive, hnew, -⟩ := add_addTo (k := (p.chunk E).booked ptr)
      (holds_init fresh) ⟨by simp, List.Pairwise.nil⟩ (fun hne => ⟨hplaced hne, by simp⟩)
    rw [hadd] at hT'
    obtain rfl := Option.some.inj hT'
    refine ⟨hholds, hlive, hnew, ?_, hsize⟩
    dsimp only
    rw [hcur, horg]
    rfl
  | @alloc before st st' live s ptr c k entry _ hplaced hrun ih =>
    have hsome := hrun
    unfold AllocEntry.run at hsome
    obtain ⟨⟨c', p⟩, hc, -⟩ := Option.bind_eq_some_iff.mp hsome
    obtain ⟨k', st'', hrun', -, -, -, hinv⟩ := run_spec ih hplaced hc
    rw [hrun] at hrun'
    cases hrun'
    exact hinv
  | @free before st live k T _ hk hpool hdel ih =>
    obtain ⟨T', hT', hholds⟩ := del_holds ih.holds ih.chunks hk
    rw [hdel] at hT'
    obtain rfl := Option.some.inj hT'
    refine ⟨hholds, ih.chunks.erase k, ?_, ih.current, ih.total⟩
    exact fun hne => (List.mem_erase_of_ne hpool.symm).mpr (ih.pool hne)

/-! ## Coarrays in their chunks -/

theorem le_toUnsigned_iff {n : ℕ} : n ≤ toUnsigned n ↔ n < 2 ^ 32 := by
  unfold toUnsigned
  omega

theorem contains_coarrayMalloc_iff (s : CoarrayShape) (orgAddr : ℕ) :
    (coarrayMalloc E s orgAddr).parent.Contains (coarrayMalloc E s orgAddr) ↔
      E.roundUpMalloc s.bytes < 2 ^ 32 := by
  have hle := @le_mallocMemoryChunk_iff E s.count s.element orgAddr
  rw [CoarrayShape.bytes, ← hle]
  unfold MemoryChunk.Contains coarrayMalloc
  dsimp only
  omega

theorem contains_coarrayRegmem_iff (s : CoarrayShape) (var : ℕ) :
    (coarrayRegmem s var).parent.Contains (coarrayRegmem s var) ↔ s.count = 0 ∨ s.element ≤ 1 := by
  have hcount : toUnsigned s.count = s.count := by
    have := s.count_lt
    unfold toUnsigned
    omega
  unfold MemoryChunk.Contains coarrayRegmem constructMemoryChunk
  dsimp only
  rw [hcount]
  constructor
  · intro ⟨_, h⟩
    by_contra hno
    rw [not_or, not_le] at hno
    have := Nat.mul_lt_mul_of_pos_left hno.2 (Nat.pos_of_ne_zero hno.1)
    omega
  · intro h
    refine ⟨le_rfl, ?_⟩
    obtain h0 | hle := h
    · rw [h0, Nat.zero_mul]
    · have := Nat.mul_le_mul_left s.count hle
      omega

theorem contains_constructed_iff (n orgAddr : ℕ) :
    (constructMemoryChunk orgAddr n).Contains ⟨orgAddr, n, constructMemoryChunk orgAddr n⟩ ↔
      n < 2 ^ 32 := by
  rw [← le_toUnsigned_iff]
  unfold MemoryChunk.Contains constructMemoryChunk
  dsimp only
  omega

theorem contains_share_iff {p : Pool} {used n : ℕ} (hcur : p.currentAddr = p.orgAddr + used) :
    (p.chunk E).Contains ⟨p.currentAddr, n, p.chunk E⟩ ↔
      used + n ≤ toUnsigned (E.roundUpMalloc (toUnsigned p.totalSize)) := by
  unfold MemoryChunk.Contains Pool.chunk mallocMemoryChunk constructMemoryChunk
  dsimp only
  rw [Nat.one_mul, toUnsigned, toUnsigned, toUnsigned, Nat.mod_mod]
  omega

/-- Where the size of the pool loses nothing, the chunk is as long as the pool. -/
theorem le_toUnsigned_roundUp {n : ℕ} (h : E.roundUpMalloc n < 2 ^ 32) :
    n ≤ toUnsigned (E.roundUpMalloc (toUnsigned n)) := by
  have hle := E.le_roundUpMalloc n
  have hn : toUnsigned n = n := Nat.mod_eq_of_lt (by omega)
  rw [hn, toUnsigned, Nat.mod_eq_of_lt h]
  exact hle

/-- The descriptor of an entry lies in its chunk if and only if the entry fits. -/
theorem cinfo_contains_iff {st : ChunkState} {live : List Chunk}
    (hinv : Reached.Inv E counted before st live) (entry : AllocEntry) :
    (∀ c p, entry.cinfo E s st.pool = some (c, p) → c.parent.Contains c) ↔
      entry.Fits E counted before s := by
  cases entry with
  | malloc orgAddr =>
    rw [AllocEntry.Fits, ← contains_coarrayMalloc_iff s orgAddr]
    simp [AllocEntry.cinfo]
  | regmem var =>
    rw [AllocEntry.Fits, ← contains_coarrayRegmem_iff s var]
    simp [AllocEntry.cinfo]
  | allocStatic orgAddr =>
    rw [AllocEntry.Fits, AllocEntry.cinfo, sharedBytes_append]
    by_cases hsmall : s.bytes ≤ E.poolThreshold
    · rw [if_neg (Nat.not_lt.mpr hsmall), if_pos hsmall, coarrayAllocStatic_small hsmall]
      have hcur := hinv.current
      have hshare := contains_share_iff (E := E) (n := E.roundUpMalloc s.bytes) hcur
      rw [hinv.total] at hshare
      have hwhole := @le_toUnsigned_roundUp E (toSizeT (E.poolSize counted))
      have htotal := hinv.total
      constructor
      · intro h
        by_cases hfew : st.pool.orgAddr + st.pool.totalSize <
            st.pool.currentAddr + E.roundUpMalloc s.bytes
        · exact Or.inr (Or.inl (by omega))
        · exact Or.inr (Or.inr (hshare.mp (h _ _ (if_neg hfew))))
      · intro h c p hc
        obtain ⟨rfl, hroom, -⟩ := getShare_eq_some hc
        refine hshare.mpr ?_
        obtain hsize | hrefused | hends := h
        · have := hwhole hsize
          omega
        · omega
        · exact hends
    · rw [if_pos (Nat.lt_of_not_le hsmall), coarrayAllocStatic_large hsmall,
        ← contains_constructed_iff _ orgAddr]
      simp [allocLargeStaticCoarray, constructMemoryChunk]
  | regmemStatic baseAddr =>
    rw [AllocEntry.Fits, AllocEntry.cinfo, coarrayRegmemStatic, CoarrayShape.bytes]
    split_ifs with hoff
    · simp [hoff]
    · have hiff := contains_constructed_iff (s.count * s.element) baseAddr
      rw [← hiff]
      simp [hoff, constructMemoryChunk]

/-- In every reached state, the coarray of an entry lies in its chunk, and each of its bytes is
accepted and found there, if and only if no size is truncated on the way. -/
theorem cinfo_contained_iff {st : ChunkState} {live : List Chunk} (ptr : ℕ) (entry : AllocEntry)
    (hreached : Reached E counted before st live)
    (hplaced : entry.Placed E s ptr st.pool live) :
    (∀ c k st', entry.run E s ptr st = some (c, k, st') → c.parent.Contains c ∧
      ∀ addr, c.baseAddr ≤ addr → addr < c.baseAddr + c.size →
        st'.table.find addr = some k ∧ c.isAddrInCoarrayChunk addr) ↔
    entry.Fits E counted before s := by
  have hinv := hreached.inv
  rw [← cinfo_contains_iff hinv entry]
  constructor
  · intro h c p hc
    obtain ⟨k, st', hrun, -⟩ := run_spec hinv hplaced hc
    exact (h c k st' hrun).1
  · intro h c k st' hrun
    have hsome := hrun
    unfold AllocEntry.run at hsome
    obtain ⟨⟨c', p⟩, hc, -⟩ := Option.bind_eq_some_iff.mp hsome
    obtain ⟨k', st'', hrun', horg, hnbytes, hmem, hinv'⟩ := run_spec hinv hplaced hc
    rw [hrun] at hrun'
    cases hrun'
    obtain ⟨hlow, hhigh⟩ := h c p hc
    refine ⟨⟨hlow, hhigh⟩, ?_⟩
    intro addr hlo hhi
    have hcovers : k.Covers addr := ⟨by omega, by omega⟩
    have hne : k.nbytes ≠ 0 := by
      obtain ⟨h1, h2⟩ := hcovers
      omega
    exact ⟨(find_eq_some_iff hinv'.holds hinv'.chunks addr k).mpr ⟨hmem hne, hcovers⟩,
      by omega, by omega⟩

/-- A threshold of 100 bytes and a local buffer of 16. -/
def poolEnv : AllocEnv := ⟨4, 100, 16, Or.inl rfl⟩

theorem five_lt_int : 5 < 2 ^ 31 := by norm_num

theorem four_lt_int : 4 < 2 ^ 31 := by norm_num

def fiveInts : CoarrayShape := ⟨5, 4, five_lt_int, four_lt_int⟩

theorem reached_pool : ∃ p T,
    Reached poolEnv [fiveInts] [] ⟨p, 1, T⟩ [⟨1, 4096, 68⟩] := by
  have hpool : coarrayMallocPool poolEnv ([fiveInts].foldl (coarrayCountSize poolEnv) 0) 4096 =
      some ⟨68, 4096, 4144, [⟨4096, 16, ⟨4096, 68⟩⟩, ⟨4112, 32, ⟨4096, 68⟩⟩]⟩ := rfl
  have hproper : Chunk.Proper ⟨1, 4096, 68⟩ := ⟨by decide, by decide, by decide⟩
  obtain ⟨T, hadd, -⟩ := add_addTo (k := ⟨1, 4096, 68⟩) (holds_init fun _ => ⟨0, none⟩)
    ⟨by simp, List.Pairwise.nil⟩ fun _ => ⟨hproper, by simp⟩
  exact ⟨_, T, .pool hpool (fun _ => hproper) hadd⟩

/-- The share of a coarray, after another one of ten elements of four bytes has been allocated. -/
theorem cinfo_contained_share : ∃ st live,
    Reached poolEnv [fiveInts] [] st
      (⟨2, 8192, 40⟩ :: live) ∧
    ∀ c k st', (AllocEntry.allocStatic 0).run poolEnv fiveInts
      3 st = some (c, k, st') → c.parent.Contains c ∧
      ∀ addr, c.baseAddr ≤ addr → addr < c.baseAddr + c.size →
        st'.table.find addr = some k ∧ c.isAddrInCoarrayChunk addr := by
  obtain ⟨p, T, hpool⟩ := reached_pool
  have hplaced : (AllocEntry.malloc 8192).Placed poolEnv
      ⟨10, 4, by decide, by decide⟩ 2 p [⟨1, 4096, 68⟩] := by
    rintro - c p' hc -
    cases hc
    refine ⟨⟨by decide, by decide, by decide⟩, ?_⟩
    intro c hc
    obtain rfl := List.mem_singleton.mp hc
    exact Or.inr (by decide)
  obtain ⟨k, st, hrun, horg, hnbytes, -⟩ := run_spec hpool.inv hplaced rfl
  have hreached := Reached.alloc (.malloc 8192) hpool hplaced hrun
  have hk : k = ⟨2, 8192, 40⟩ := by
    unfold AllocEntry.run at hrun
    obtain ⟨q, hq, hrest⟩ := Option.bind_eq_some_iff.mp hrun
    cases hq
    obtain ⟨T', -, heq⟩ := Option.map_eq_some_iff.mp hrest
    cases heq
    rfl
  rw [hk] at hreached
  have hshare : (AllocEntry.allocStatic 0).Placed poolEnv
      fiveInts 3 st.pool [⟨2, 8192, 40⟩, ⟨1, 4096, 68⟩] :=
    fun hno => absurd (by decide) hno
  refine ⟨st, _, hreached, (cinfo_contained_iff 3 (.allocStatic 0) hreached hshare).mpr ?_⟩
  rw [AllocEntry.Fits, if_neg (by decide)]
  exact Or.inl (by decide)

/-- 200 registered elements of four bytes have a chunk of 200 bytes. -/
theorem regmem_not_contained : ∃ st live,
    Reached poolEnv [fiveInts] [] st live ∧
    ∃ c k st', (AllocEntry.regmem 8192).run poolEnv
      ⟨200, 4, by decide, by decide⟩ 2 st = some (c, k, st') ∧ ¬ c.parent.Contains c := by
  obtain ⟨p, T, hpool⟩ := reached_pool
  have hplaced : (AllocEntry.regmem 8192).Placed poolEnv
      ⟨200, 4, by decide, by decide⟩ 2 p [⟨1, 4096, 68⟩] := by
    rintro - c p' hc -
    cases hc
    refine ⟨⟨by decide, by decide, by decide⟩, ?_⟩
    intro c hc
    obtain rfl := List.mem_singleton.mp hc
    exact Or.inr (by decide)
  obtain ⟨k, st, hrun, -⟩ := run_spec hpool.inv hplaced rfl
  refine ⟨_, _, hpool, _, k, st, hrun, ?_⟩
  intro h
  exact absurd h.2 (by decide)

end OmniCompiler.Xmpf
