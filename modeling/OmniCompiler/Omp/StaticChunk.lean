import OmniCompiler.Omp.StaticBlock

/-!
# Static chunked schedule of a work-sharing loop (`ompc_runtime.c`)

A thread takes every `n`-th chunk, starting with its own number, until its next chunk starts
past the end of the loop. Starts and ends of chunks are compared with the loop end as pointers,
that is as unsigned numbers.
-/
namespace OmniCompiler.Omp

open MachineInt ForLoop Chunking

/-- A chunk size that is not positive is fatal. -/
def staticSchedInitTid (tp : OmpThread) (lb up ubofs step chunkSize : ℤ) : Option OmpThread :=
  if getNumThreads tp = 1 then
    some { tp with loopSchedIndex := lb, loopEnd := up + ubofs }
  else if chunkSize ≤ 0 then none
  else do
    let chunkSize ← cint (chunkSize * step)
    let ofs ← cint (chunkSize * tp.num)
    let stride ← cint (chunkSize * getNumThreads tp)
    some { tp with
      loopSchedIndex := lb + ofs
      loopChunkSize := chunkSize
      loopStride := stride
      loopEnd := up + ubofs
      isLast := false }

/-- The bounds of the next chunk, or `none` when the function returns `FALSE`. -/
def staticSchedNextTid (tp : OmpThread) (ubofs : ℤ) : OmpThread × Option (ℤ × ℤ) :=
  let b := tp.loopSchedIndex
  if getNumThreads tp = 1 then
    let e := tp.loopEnd
    if toULL b = toULL e then (tp, none)
    else ({ tp with loopSchedIndex := e }, some (toLL b, toLL (e - ubofs)))
  else
    let next := { tp with loopSchedIndex := b + tp.loopStride }
    let e := b + tp.loopChunkSize
    if 0 < tp.loopChunkSize then
      if toULL b ≥ toULL tp.loopEnd then (next, none)
      else if toULL e ≥ toULL tp.loopEnd then
        ({ next with isLast := true }, some (toLL b, toLL (tp.loopEnd - ubofs)))
      else (next, some (toLL b, toLL (e - ubofs)))
    else
      if toULL b ≤ toULL tp.loopEnd then (next, none)
      else if toULL e ≤ toULL tp.loopEnd then
        ({ next with isLast := true }, some (toLL b, toLL (tp.loopEnd - ubofs)))
      else (next, some (toLL b, toLL (e - ubofs)))

/-- The branch of `_ompc_runtime_sched_init` for `SCHED_STATIC` and `SCHED_NONE`.
`runtimeChunkSize` is `ompc_runtime_chunk_size`, not positive where `OMP_SCHEDULE` gives no
chunk size. -/
def runtimeSchedInit (tp : OmpThread) (runtimeChunkSize lb up ubofs step : ℤ) : Option OmpThread :=
  if runtimeChunkSize ≤ 0 then do
    let total ← cint (step * getNumThreads tp)
    let dist := toLL (up + ubofs - lb)
    let chunkSize := toInt (dist.tdiv total + if dist.tmod total = 0 then 0 else 1)
    staticSchedInitTid tp lb up ubofs step (if chunkSize ≤ 0 then 1 else chunkSize)
  else staticSchedInitTid tp lb up ubofs step runtimeChunkSize

/-- The calls a translated loop makes: chunks until the first `FALSE`. -/
def runChunks (ubofs : ℤ) : ℕ → OmpThread → Option (OmpThread × List (ℤ × ℤ))
  | 0, _ => none
  | fuel + 1, tp =>
    match staticSchedNextTid tp ubofs with
    | (tp', none) => some (tp', [])
    | (tp', some chunk) => (runChunks ubofs fuel tp').map fun r => (r.1, chunk :: r.2)

def chunkIters (ubofs step : ℤ) (chunks : List (ℤ × ℤ)) : List ℤ :=
  chunks.flatMap fun chunk => serialLoop ubofs chunk.1 chunk.2 step

/-- Every thread comes to an end, the team runs every iteration of the serial loop once and
no other, and `is_last` ends up set where the last iteration runs. -/
def ChunkScheduled (n : ℕ) (init : ℕ → Option OmpThread) (lb up ubofs step : ℤ) : Prop :=
  ∃ out : ℕ → OmpThread × List (ℤ × ℤ),
    (∀ id < n, ∃ tp fuel, init id = some tp ∧ runChunks ubofs fuel tp = some (out id)) ∧
    ((List.range n).flatMap fun id => chunkIters ubofs step (out id).2).Perm
      (serialLoop ubofs lb up step) ∧
    ∀ id < n, (out id).1.isLast = true ↔ ∃ x, (serialLoop ubofs lb up step).getLast? = some x ∧
      x ∈ chunkIters ubofs step (out id).2

/-! ## The chunks of one thread -/

/-- The comparison of an index with the loop end in the direction of the chunks. -/
def Past (chunk loopEnd x : ℤ) : Prop :=
  if 0 < chunk then toULL loopEnd ≤ toULL x else toULL x ≤ toULL loopEnd

instance (chunk loopEnd x : ℤ) : Decidable (Past chunk loopEnd x) :=
  inferInstanceAs (Decidable (ite _ _ _))

/-- The chunk that starts at `b`. -/
def chunkAt (ubofs chunk loopEnd b : ℤ) : ℤ × ℤ :=
  (toLL b, toLL ((if Past chunk loopEnd (b + chunk) then loopEnd else b + chunk) - ubofs))

theorem staticSchedNextTid_eq {tp : OmpThread} (hn : getNumThreads tp ≠ 1) (ubofs : ℤ) :
    staticSchedNextTid tp ubofs =
      if Past tp.loopChunkSize tp.loopEnd tp.loopSchedIndex then
        ({ tp with loopSchedIndex := tp.loopSchedIndex + tp.loopStride }, none)
      else
        ({ tp with
            loopSchedIndex := tp.loopSchedIndex + tp.loopStride
            isLast := tp.isLast ||
              decide (Past tp.loopChunkSize tp.loopEnd (tp.loopSchedIndex + tp.loopChunkSize)) },
          some (chunkAt ubofs tp.loopChunkSize tp.loopEnd tp.loopSchedIndex)) := by
  simp only [staticSchedNextTid, hn, if_false, Past, chunkAt, ge_iff_le]
  split_ifs <;> simp_all

/-- The index of the thread at its `j`-th call. -/
def OmpThread.indexAt (tp : OmpThread) (j : ℕ) : ℤ := tp.loopSchedIndex + tp.loopStride * j

/-- The thread takes `J` chunks. -/
def Stops (tp : OmpThread) (J : ℕ) : Prop :=
  (∀ j < J, ¬ Past tp.loopChunkSize tp.loopEnd (tp.indexAt j)) ∧
    Past tp.loopChunkSize tp.loopEnd (tp.indexAt J)

def afterChunks (tp : OmpThread) (J : ℕ) : OmpThread :=
  { tp with
    loopSchedIndex := tp.indexAt (J + 1)
    isLast := tp.isLast || (List.range J).any fun j =>
      Past tp.loopChunkSize tp.loopEnd (tp.indexAt j + tp.loopChunkSize) }

def chunksOf (ubofs : ℤ) (tp : OmpThread) (J : ℕ) : List (ℤ × ℤ) :=
  (List.range J).map fun j => chunkAt ubofs tp.loopChunkSize tp.loopEnd (tp.indexAt j)

def afterChunk (tp : OmpThread) : OmpThread :=
  { tp with
    loopSchedIndex := tp.loopSchedIndex + tp.loopStride
    isLast := tp.isLast ||
      decide (Past tp.loopChunkSize tp.loopEnd (tp.loopSchedIndex + tp.loopChunkSize)) }

theorem afterChunk_indexAt (tp : OmpThread) (j : ℕ) :
    (afterChunk tp).indexAt j = tp.indexAt (j + 1) := by
  unfold OmpThread.indexAt afterChunk
  push_cast
  ring

theorem indexAt_zero (tp : OmpThread) : tp.indexAt 0 = tp.loopSchedIndex := by
  simp [OmpThread.indexAt]

theorem stops_succ_iff (tp : OmpThread) (J : ℕ) :
    Stops tp (J + 1) ↔
      ¬ Past tp.loopChunkSize tp.loopEnd tp.loopSchedIndex ∧ Stops (afterChunk tp) J := by
  unfold Stops
  simp only [afterChunk_indexAt, Nat.forall_lt_succ_left, indexAt_zero, and_assoc]
  rfl

theorem afterChunks_succ (tp : OmpThread) (J : ℕ) :
    afterChunks tp (J + 1) = afterChunks (afterChunk tp) J := by
  unfold afterChunks
  rw [List.range_succ_eq_map, List.any_cons, List.any_map]
  simp only [afterChunk_indexAt, indexAt_zero, Function.comp_def, ← Bool.or_assoc]
  rfl

theorem chunksOf_succ (ubofs : ℤ) (tp : OmpThread) (J : ℕ) :
    chunksOf ubofs tp (J + 1) =
      chunkAt ubofs tp.loopChunkSize tp.loopEnd tp.loopSchedIndex ::
        chunksOf ubofs (afterChunk tp) J := by
  simp only [chunksOf, List.range_succ_eq_map, List.map_cons, List.map_map, afterChunk_indexAt,
    indexAt_zero]
  rfl

theorem runChunks_of_stops {tp : OmpThread} (hn : getNumThreads tp ≠ 1) (ubofs : ℤ) {J : ℕ}
    (h : Stops tp J) :
    runChunks ubofs (J + 1) tp = some (afterChunks tp J, chunksOf ubofs tp J) := by
  induction J generalizing tp with
  | zero =>
    have h0 := h.2
    rw [indexAt_zero] at h0
    rw [runChunks, staticSchedNextTid_eq hn, if_pos h0]
    simp [afterChunks, chunksOf, OmpThread.indexAt]
  | succ J ih =>
    obtain ⟨h0, hJ⟩ := (stops_succ_iff tp J).mp h
    have hrun := @ih (afterChunk tp) hn hJ
    rw [runChunks, staticSchedNextTid_eq hn, if_neg h0]
    change (runChunks ubofs (J + 1) (afterChunk tp)).map _ = _
    rw [hrun, Option.map_some, afterChunks_succ, chunksOf_succ]

theorem stops_of_runChunks {tp : OmpThread} (hn : getNumThreads tp ≠ 1) {ubofs : ℤ} {fuel : ℕ}
    {out : OmpThread × List (ℤ × ℤ)} (h : runChunks ubofs fuel tp = some out) :
    ∃ J, Stops tp J ∧ out = (afterChunks tp J, chunksOf ubofs tp J) := by
  induction fuel generalizing tp out with
  | zero => cases h
  | succ fuel ih =>
    rw [runChunks, staticSchedNextTid_eq hn] at h
    split_ifs at h with h0
    · cases h
      refine ⟨0, ⟨by simp, by rwa [indexAt_zero]⟩, ?_⟩
      simp [afterChunks, chunksOf, OmpThread.indexAt]
    · change (runChunks ubofs fuel (afterChunk tp)).map _ = _ at h
      obtain ⟨r, hr, rfl⟩ := Option.map_eq_some_iff.mp h
      obtain ⟨J, hJ, rfl⟩ := @ih (afterChunk tp) hn r hr
      refine ⟨J + 1, (stops_succ_iff tp J).mpr ⟨h0, hJ⟩, ?_⟩
      rw [afterChunks_succ, chunksOf_succ]

/-! ## The chunks of the team -/

variable {lb up ubofs step chunk loopEnd : ℤ} {n : ℕ} {team : ℕ → OmpThread}

/-- Iterations of the `m`-th chunk. -/
def itersOf (ubofs step chunk loopEnd lb : ℤ) (m : ℕ) : List ℤ :=
  serialLoop ubofs (chunkAt ubofs chunk loopEnd (lb + chunk * m)).1
    (chunkAt ubofs chunk loopEnd (lb + chunk * m)).2 step

/-- The `m`-th chunk starts past the end. -/
def pastAt (chunk loopEnd lb : ℤ) (m : ℕ) : Prop := Past chunk loopEnd (lb + chunk * m)

instance (chunk loopEnd lb : ℤ) : DecidablePred (pastAt chunk loopEnd lb) :=
  fun m => inferInstanceAs (Decidable (Past chunk loopEnd (lb + chunk * m)))

/-- The schedule in terms of the chunks: the threads take turns, together run the serial loop,
and a thread that reaches the end in one of its chunks runs the last iteration. -/
def TeamCovers (n : ℕ) (lb up ubofs step chunk loopEnd : ℤ) : Prop :=
  ∃ J, Turns n (pastAt chunk loopEnd lb) J ∧
    ((List.range n).flatMap (taken n (itersOf ubofs step chunk loopEnd lb) J)).Perm
      (serialLoop ubofs lb up step) ∧
    ∀ id < n, (∃ j < J id, pastAt chunk loopEnd lb (id + n * j + 1)) ↔
      ∃ x, (serialLoop ubofs lb up step).getLast? = some x ∧
        x ∈ taken n (itersOf ubofs step chunk loopEnd lb) J id

/-- Thread `id` as the initialisation leaves it. -/
def initThread (tp : OmpThread) (lb up ubofs chunk : ℤ) (n id : ℕ) : OmpThread :=
  { tp with
    loopSchedIndex := lb + chunk * id
    loopChunkSize := chunk
    loopStride := chunk * n
    loopEnd := up + ubofs
    isLast := false }

theorem staticSchedInitTid_eq_some_iff (hteam : IsTeam n team) (hn : 2 ≤ n) {id : ℕ} (hid : id < n)
    {chunkSize : ℤ} (hchunk : 1 ≤ chunkSize) (tp : OmpThread) :
    staticSchedInitTid (team id) lb up ubofs step chunkSize = some tp ↔
      InInt (chunkSize * step * n) ∧
        tp = initThread (team id) lb up ubofs (chunkSize * step) n id := by
  obtain ⟨hnum, hpar⟩ := hteam id hid
  have hn1 : ¬ n = 1 := by omega
  have hpos : ¬ chunkSize ≤ 0 := by omega
  simp only [staticSchedInitTid, getNumThreads, hpar, Option.getD_some, hn1, if_false, hpos, hnum,
    Option.bind_eq_bind, Option.bind_eq_some_iff, cint_eq_some]
  constructor
  · rintro ⟨_, ⟨-, rfl⟩, _, ⟨-, rfl⟩, _, ⟨hfit, rfl⟩, htp⟩
    refine ⟨hfit, (Option.some_inj.mp htp).symm.trans ?_⟩
    simp [initThread, hnum, hpar]
  · rintro ⟨hfit, rfl⟩
    have h1 := inInt_mul_of_le (show 1 ≤ n by omega) hfit
    rw [Nat.cast_one, mul_one] at h1
    have h2 := inInt_mul_of_le hid.le hfit
    refine ⟨_, ⟨h1, rfl⟩, _, ⟨h2, rfl⟩, _, ⟨hfit, rfl⟩, ?_⟩
    simp [initThread, hnum, hpar]

theorem initThread_indexAt (tp : OmpThread) (lb up ubofs chunk : ℤ) (n id j : ℕ) :
    (initThread tp lb up ubofs chunk n id).indexAt j = lb + chunk * (id + n * j : ℕ) := by
  simp only [OmpThread.indexAt, initThread]
  push_cast
  ring

theorem chunkIters_chunksOf (tp : OmpThread) (J : ℕ → ℕ) (id : ℕ) :
    chunkIters ubofs step (chunksOf ubofs (initThread tp lb up ubofs chunk n id) (J id)) =
      taken n (itersOf ubofs step chunk (up + ubofs) lb) J id := by
  simp only [chunkIters, chunksOf, taken, List.flatMap_map, initThread_indexAt, itersOf]
  rfl

theorem stops_initThread_iff (tp : OmpThread) (id J : ℕ) :
    Stops (initThread tp lb up ubofs chunk n id) J ↔
      (∀ j < J, ¬ pastAt chunk (up + ubofs) lb (id + n * j)) ∧
        pastAt chunk (up + ubofs) lb (id + n * J) := by
  simp only [Stops, initThread_indexAt, pastAt]
  rfl

theorem afterChunks_initThread_isLast (tp : OmpThread) (id J : ℕ) :
    (afterChunks (initThread tp lb up ubofs chunk n id) J).isLast = true ↔
      ∃ j < J, pastAt chunk (up + ubofs) lb (id + n * j + 1) := by
  have hnext : ∀ j : ℕ, lb + chunk * (id + n * j : ℕ) + chunk =
      lb + chunk * (id + n * j + 1 : ℕ) := by
    intro j
    push_cast
    ring
  simp only [afterChunks, initThread_indexAt]
  simp only [initThread, Bool.false_or, List.any_eq_true, List.mem_range, decide_eq_true_eq, hnext]
  rfl

theorem chunkScheduled_iff_teamCovers (hteam : IsTeam n team) (hn : 2 ≤ n) {chunkSize : ℤ}
    (hchunk : 1 ≤ chunkSize) :
    ChunkScheduled n (fun id => staticSchedInitTid (team id) lb up ubofs step chunkSize) lb up ubofs
        step ↔
      InInt (chunkSize * step * n) ∧
        TeamCovers n lb up ubofs step (chunkSize * step) (up + ubofs) := by
  have hthreads : ∀ id < n, ∀ chunk,
      getNumThreads (initThread (team id) lb up ubofs chunk n id) ≠ 1 := by
    intro id hid chunk
    have := (hteam id hid).2
    simp only [getNumThreads, initThread, this, Option.getD_some]
    omega
  constructor
  · rintro ⟨out, hout, hperm, hlast⟩
    have hrun : ∀ id, ∃ J, id < n → InInt (chunkSize * step * n) ∧
        Stops (initThread (team id) lb up ubofs (chunkSize * step) n id) J ∧
        out id = (afterChunks (initThread (team id) lb up ubofs (chunkSize * step) n id) J,
          chunksOf ubofs (initThread (team id) lb up ubofs (chunkSize * step) n id) J) := by
      intro id
      by_cases hid : id < n
      · obtain ⟨tp, fuel, hinit, hrun⟩ := hout id hid
        obtain ⟨hfit, rfl⟩ := (staticSchedInitTid_eq_some_iff hteam hn hid hchunk tp).mp hinit
        obtain ⟨J, hJ, heq⟩ := stops_of_runChunks (hthreads id hid _) hrun
        exact ⟨J, fun _ => ⟨hfit, hJ, heq⟩⟩
      · exact ⟨0, fun h => absurd h hid⟩
    choose J hJ using hrun
    refine ⟨(hJ 0 (by omega)).1, J, fun id hid => ?_, ?_, fun id hid => ?_⟩
    · exact (stops_initThread_iff (team id) id (J id)).mp (hJ id hid).2.1
    · refine List.Perm.trans (List.Perm.of_eq ?_) hperm
      apply List.flatMap_congr
      intro id hid
      rw [(hJ id (List.mem_range.mp hid)).2.2, ← chunkIters_chunksOf]
    · have := hlast id hid
      rwa [(hJ id hid).2.2, afterChunks_initThread_isLast, chunkIters_chunksOf] at this
  · rintro ⟨hfit, J, hturns, hperm, hlast⟩
    refine ⟨fun id =>
      (afterChunks (initThread (team id) lb up ubofs (chunkSize * step) n id) (J id),
      chunksOf ubofs (initThread (team id) lb up ubofs (chunkSize * step) n id) (J id)),
      fun id hid => ?_, ?_, fun id hid => ?_⟩
    · refine ⟨_, J id + 1,
        (staticSchedInitTid_eq_some_iff hteam hn hid hchunk _).mpr ⟨hfit, rfl⟩, ?_⟩
      exact runChunks_of_stops (hthreads id hid _) ubofs
        ((stops_initThread_iff (team id) id (J id)).mpr (hturns id hid))
    · simp only [chunkIters_chunksOf]
      exact hperm
    · simp only [chunkIters_chunksOf, afterChunks_initThread_isLast]
      exact hlast id hid

/-! ## Which chunks the comparisons let through -/

/-- The loop bounds and every index that a thread tests lie on the same side of zero. There
are `loopCount lb loopEnd chunk` chunks, and the threads test the starts of the `n` chunks that
would follow. A decreasing loop from the least to the greatest index passes as well. -/
def NoCross (lb loopEnd chunk : ℤ) (n : ℕ) : Prop :=
  if 0 < chunk then
    0 ≤ lb ∧ 0 ≤ loopEnd ∨
      loopEnd < 0 ∧ lb + chunk * (loopCount lb loopEnd chunk + n - 1 : ℕ) < 0
  else
    lb < 0 ∧ loopEnd < 0 ∨
      0 ≤ loopEnd ∧ 0 ≤ lb + chunk * (loopCount lb loopEnd chunk + n - 1 : ℕ) ∨
      lb = -2 ^ 63 ∧ loopEnd = 2 ^ 63

/-- The first `M` starts of chunks are before the end and the `n` that follow are past it. -/
def TestsSplit (n : ℕ) (lb loopEnd chunk : ℤ) (M : ℕ) : Prop :=
  ∀ m < M + n, pastAt chunk loopEnd lb m ↔ M ≤ m

/-- Comparisons that agree with those of a loop from `v` to `w` without wrapping around split
the chunks as that loop does. -/
theorem testsSplit_of_congr {v w : ℤ} (hc : chunk ≠ 0) (hw : toULL loopEnd = w)
    (hv : ∀ m < loopCount v w chunk + n, toULL (lb + chunk * m) = v + chunk * m) :
    TestsSplit n lb loopEnd chunk (loopCount v w chunk) := by
  intro m hm
  rw [← not_lt, lt_loopCount_iff hc, not_lt]
  unfold pastAt Past reach
  rw [hw, hv m hm]
  split_ifs with hpos
  · rw [Int.natAbs_of_nonneg hpos.le, mul_comm chunk]
    omega
  · rw [Int.ofNat_natAbs_of_nonpos (by omega), mul_comm chunk, mul_neg]
    omega

theorem loopCount_mul_lt {init cond s : ℤ} (hs : s ≠ 0) :
    loopCount init cond s * (s.natAbs : ℤ) < max 0 (reach init cond s) + s.natAbs := by
  rcases Nat.eq_zero_or_pos (loopCount init cond s) with h | h
  · rw [h]
    have : (0 : ℤ) < s.natAbs := by omega
    have := le_max_left 0 (reach init cond s)
    omega
  · have hlt := (@lt_loopCount_iff init cond s hs (loopCount init cond s - 1)).mp (by omega)
    have := le_max_right 0 (reach init cond s)
    rw [Nat.cast_sub h, Nat.cast_one, sub_mul, one_mul] at hlt
    omega

theorem loopCount_add (init cond s k : ℤ) :
    loopCount (init + k) (cond + k) s = loopCount init cond s := by
  unfold loopCount reach
  simp only [add_sub_add_right_eq_sub]

theorem index_bounds_of_pos (hc : 0 < chunk) {m : ℕ} (hm : m < loopCount lb loopEnd chunk + n) :
    lb ≤ lb + chunk * m ∧ lb + chunk * m ≤ lb + chunk * (loopCount lb loopEnd chunk + n - 1 : ℕ) ∧
      lb + chunk * m < max lb loopEnd + chunk * n := by
  have hlt := @loopCount_mul_lt lb loopEnd chunk hc.ne'
  rw [Int.natAbs_of_nonneg hc.le, reach, if_pos hc] at hlt
  have hm0 : 0 ≤ chunk * m := by positivity
  have hm1 : chunk * m ≤ chunk * (loopCount lb loopEnd chunk + n - 1 : ℕ) := by
    apply mul_le_mul_of_nonneg_left _ hc.le
    exact_mod_cast (by omega : m ≤ loopCount lb loopEnd chunk + n - 1)
  have hM : chunk * (loopCount lb loopEnd chunk + n - 1 : ℕ) =
      loopCount lb loopEnd chunk * chunk + chunk * n - chunk := by
    rw [Nat.cast_sub (by omega)]
    push_cast
    ring
  have hmax : max 0 (loopEnd - lb) = max lb loopEnd - lb := by
    rw [max_sub_sub_right lb loopEnd lb |>.symm, sub_self]
  refine ⟨by omega, by omega, ?_⟩
  omega

theorem index_bounds_of_neg (hc : chunk < 0) {m : ℕ} (hm : m < loopCount lb loopEnd chunk + n) :
    lb + chunk * m ≤ lb ∧ lb + chunk * (loopCount lb loopEnd chunk + n - 1 : ℕ) ≤ lb + chunk * m ∧
      min lb loopEnd + chunk * n < lb + chunk * m := by
  have hlt := @loopCount_mul_lt lb loopEnd chunk hc.ne
  rw [Int.ofNat_natAbs_of_nonpos hc.le, reach, if_neg (by omega), mul_neg] at hlt
  have hm0 : chunk * m ≤ 0 := mul_nonpos_of_nonpos_of_nonneg hc.le (by positivity)
  have hm1 : chunk * (loopCount lb loopEnd chunk + n - 1 : ℕ) ≤ chunk * m := by
    apply mul_le_mul_of_nonpos_left _ hc.le
    exact_mod_cast (by omega : m ≤ loopCount lb loopEnd chunk + n - 1)
  have hM : chunk * (loopCount lb loopEnd chunk + n - 1 : ℕ) =
      loopCount lb loopEnd chunk * chunk + chunk * n - chunk := by
    rw [Nat.cast_sub (by omega)]
    push_cast
    ring
  have hmin : max 0 (lb - loopEnd) = lb - min lb loopEnd := by
    omega
  refine ⟨by omega, by omega, ?_⟩
  omega

theorem toULL_of_neg {x : ℤ} (h0 : -2 ^ 64 ≤ x) (h1 : x < 0) : toULL x = x + 2 ^ 64 := by
  unfold toULL
  omega

section

variable (hlb : InLL lb) (hend : -2 ^ 63 ≤ loopEnd ∧ loopEnd ≤ 2 ^ 63) (hc : chunk ≠ 0)
  (hfit : InInt (chunk * n))

include hlb hend hc hfit

theorem testsSplit_of_noCross (h : NoCross lb loopEnd chunk n) :
    TestsSplit n lb loopEnd chunk (loopCount lb loopEnd chunk) := by
  obtain ⟨hl0, hl1⟩ := hlb
  obtain ⟨he0, he1⟩ := hend
  obtain ⟨hf0, hf1⟩ := hfit
  unfold NoCross at h
  split_ifs at h with hpos
  · rcases h with ⟨h0, h1⟩ | ⟨h0, h1⟩
    · apply testsSplit_of_congr hc (toULL_of_nonneg h1 (by omega))
      intro m hm
      obtain ⟨hx0, -, hx1⟩ := index_bounds_of_pos hpos hm
      exact toULL_of_nonneg (by omega) (by omega)
    · rw [← loopCount_add lb loopEnd chunk (2 ^ 64)]
      apply testsSplit_of_congr hc (toULL_of_neg (by omega) h0)
      intro m hm
      rw [loopCount_add] at hm
      obtain ⟨hx0, hx1, -⟩ := index_bounds_of_pos hpos hm
      rw [toULL_of_neg (by omega) (by omega)]
      ring
  · have hneg : chunk < 0 := by omega
    rcases h with ⟨h0, h1⟩ | ⟨h0, h1⟩ | ⟨rfl, rfl⟩
    · rw [← loopCount_add lb loopEnd chunk (2 ^ 64)]
      apply testsSplit_of_congr hc (toULL_of_neg (by omega) h1)
      intro m hm
      rw [loopCount_add] at hm
      obtain ⟨hx0, -, hx1⟩ := index_bounds_of_neg hneg hm
      rw [toULL_of_neg (by omega) (by omega)]
      ring
    · apply testsSplit_of_congr hc (toULL_of_nonneg h0 (by omega))
      intro m hm
      obtain ⟨hx0, hx1, -⟩ := index_bounds_of_neg hneg hm
      exact toULL_of_nonneg (by omega) (by omega)
    · intro m hm
      obtain ⟨hx0, -, hx1⟩ := index_bounds_of_neg hneg hm
      have hM : loopCount (-2 ^ 63) (2 ^ 63) chunk = 0 := by
        by_contra hM
        have := (lt_loopCount_iff hc 0).mp (Nat.pos_of_ne_zero hM)
        rw [reach, if_neg hpos] at this
        norm_num at this
      rw [hM]
      simp only [pastAt, Past, if_neg hpos, zero_le, iff_true]
      rw [toULL_of_neg (by omega) (by omega), toULL_of_nonneg (by norm_num) (by norm_num)]
      omega

end

/-! ## Schedules that cover the loop -/

theorem mem_taken {J : ℕ → ℕ} {id : ℕ} {items : ℕ → List ℤ} {x : ℤ} :
    x ∈ taken n items J id ↔ ∃ j < J id, x ∈ items (id + n * j) := by
  simp [taken]

theorem teamCovers_of_split {M : ℕ} (hn : 0 < n) (hsplit : TestsSplit n lb loopEnd chunk M)
    (hcover : (List.range M).flatMap (itersOf ubofs step chunk loopEnd lb) =
      serialLoop ubofs lb up step)
    (hlast : ∀ m < M, (∃ x, (serialLoop ubofs lb up step).getLast? = some x ∧
      x ∈ itersOf ubofs step chunk loopEnd lb m) ↔ m + 1 = M) :
    TeamCovers n lb up ubofs step chunk loopEnd := by
  obtain ⟨J, hJ⟩ := exists_turns hn hsplit
  refine ⟨J, hJ, (hJ.perm hsplit hn).trans (List.Perm.of_eq hcover), fun id hid => ?_⟩
  have hlt := hJ.lt_iff hsplit hid
  constructor
  · rintro ⟨j, hj, hpast⟩
    have hm := (hlt j).mp hj
    have hM := (hsplit (id + n * j + 1) (by omega)).mp hpast
    obtain ⟨x, hx, hmem⟩ := (hlast _ hm).mpr (by omega)
    exact ⟨x, hx, mem_taken.mpr ⟨j, hj, hmem⟩⟩
  · rintro ⟨x, hx, hmem⟩
    obtain ⟨j, hj, hmem⟩ := mem_taken.mp hmem
    have hm := (hlt j).mp hj
    have hM := (hlast _ hm).mp ⟨x, hx, hmem⟩
    exact ⟨j, hj, (hsplit (id + n * j + 1) (by omega)).mpr hM.ge⟩

section

variable (hlb : InLL lb) (hup : InLL up) (hub : ubofs = 0 ∨ ubofs = 1) (hs : step ≠ 0) {C : ℕ}
  (hC : 1 ≤ C)

include hlb hup hub hs hC

/-- The bounds of a chunk that the comparisons let through, as the thread sees them. -/
theorem chunkAt_of_split {n : ℕ} (hn : 0 < n)
    (hsplit : TestsSplit n lb (up + ubofs) (C * step) (loopCount lb (up + ubofs) (C * step)))
    {m : ℕ} (hm : m < loopCount lb (up + ubofs) (C * step)) :
    chunkAt ubofs (C * step) (up + ubofs) (lb + C * step * m) =
      (lb + C * step * m, (if loopCount lb (up + ubofs) (C * step) ≤ m + 1 then up + ubofs
        else lb + C * step * (m + 1 : ℕ)) - ubofs) := by
  have hc : (C : ℤ) * step ≠ 0 := mul_ne_zero (by omega) hs
  have hnext : lb + C * step * m + C * step = lb + C * step * (m + 1 : ℕ) := by
    push_cast
    ring
  have hpast := hsplit (m + 1) (by omega)
  have hlt := (lt_loopCount_iff hc m).mp hm
  obtain ⟨hl0, hl1⟩ := hlb
  obtain ⟨hu0, hu1⟩ := hup
  have hm0 : (0 : ℤ) ≤ m := by positivity
  have hstart : InLL (lb + C * step * m) := by
    rcases lt_or_gt_of_ne hc with h | h
    · rw [Int.ofNat_natAbs_of_nonpos h.le, reach, if_neg (by omega), mul_comm, neg_mul] at hlt
      have := mul_nonpos_of_nonpos_of_nonneg h.le hm0
      constructor <;> omega
    · rw [Int.natAbs_of_nonneg h.le, reach, if_pos h, mul_comm] at hlt
      have := mul_nonneg h.le hm0
      constructor <;> omega
  unfold chunkAt
  rw [toLL_of_inLL hstart, hnext]
  unfold pastAt at hpast
  simp only [hpast]
  congr 1
  split_ifs with hM
  · rw [add_sub_cancel_right, toLL_of_inLL ⟨hu0, hu1⟩]
  · apply toLL_of_inLL
    have hlt' := (lt_loopCount_iff hc (m + 1)).mp (not_le.mp hM)
    rcases lt_or_gt_of_ne hc with h | h
    · rw [Int.ofNat_natAbs_of_nonpos h.le, reach, if_neg (by omega), mul_comm, neg_mul] at hlt'
      have := mul_nonpos_of_nonpos_of_nonneg h.le (by positivity : (0 : ℤ) ≤ (m + 1 : ℕ))
      constructor <;> omega
    · rw [Int.natAbs_of_nonneg h.le, reach, if_pos h, mul_comm] at hlt'
      have := mul_pos h (by positivity : (0 : ℤ) < (m + 1 : ℕ))
      constructor <;> omega

/-- Where the end of the loop is `up + ubofs`, the `m`-th chunk is the `m`-th block. -/
theorem itersOf_of_split {n : ℕ} (hn : 0 < n) (hbound : loopBound ubofs up step = up + ubofs)
    (hsplit : TestsSplit n lb (up + ubofs) (C * step) (loopCount lb (up + ubofs) (C * step)))
    {m : ℕ} (hm : m < loopCount lb (up + ubofs) (C * step)) :
    itersOf ubofs step (C * step) (up + ubofs) lb m =
      ((serialLoop ubofs lb up step).drop (m * C)).take C := by
  have hback : ∀ e : ℤ, loopBound ubofs (e - ubofs) step = e := by
    intro e
    unfold loopBound at hbound ⊢
    split_ifs at hbound ⊢ <;> omega
  have hlt := @lt_loopCount_mul_iff lb (up + ubofs) step hs C hC (m + 1)
  have hle : loopCount lb (up + ubofs) (C * step) ≤ m + 1 ↔
      reach lb (up + ubofs) step ≤ (m * C + C : ℕ) * (step.natAbs : ℤ) := by
    rw [← not_lt, hlt, lt_loopCount_iff hs, not_lt, Nat.succ_mul]
  rw [itersOf, chunkAt_of_split hlb hup hub hs hC hn hsplit hm, serialLoop, serialLoop, hback,
    hbound, ← loopValues_block hs, blockEnd]
  simp only [hle]
  congr 1
  · push_cast
    ring
  · split_ifs
    · rfl
    · push_cast
      ring

theorem teamCovers_of_bound {n : ℕ} (hn : 0 < n) (hbound : loopBound ubofs up step = up + ubofs)
    (hsplit : TestsSplit n lb (up + ubofs) (C * step) (loopCount lb (up + ubofs) (C * step))) :
    TeamCovers n lb up ubofs step (C * step) (up + ubofs) := by
  have hlt := @lt_loopCount_mul_iff lb (up + ubofs) step hs C hC
  have hnodup : (serialLoop ubofs lb up step).Nodup := loopValues_nodup hs
  have hlen : (serialLoop ubofs lb up step).length = loopCount lb (up + ubofs) step := by
    rw [serialLoop, hbound, loopValues_length hs]
  set M := loopCount lb (up + ubofs) (C * step) with hM
  apply teamCovers_of_split hn hsplit
  · calc (List.range M).flatMap (itersOf ubofs step (C * step) (up + ubofs) lb)
        = (List.range M).flatMap fun m => ((serialLoop ubofs lb up step).drop (m * C)).take C := by
          apply List.flatMap_congr
          intro m hm
          exact itersOf_of_split hlb hup hub hs hC hn hbound hsplit (List.mem_range.mp hm)
      _ = (serialLoop ubofs lb up step).take (M * C) := flatMap_blocks _ _ _
      _ = serialLoop ubofs lb up step := by
          rw [List.take_of_length_le]
          rw [hlen, ← not_lt, ← hlt]
          exact lt_irrefl M
  · intro m hm
    rw [itersOf_of_split hlb hup hub hs hC hn hbound hsplit hm,
      getLast_mem_block hnodup, hlen, ← hlt, ← Nat.succ_mul, ← not_lt, ← hlt]
    omega

end

/-! ## Schedules that fail -/

/-- A chunk runs only iterations of the loop when no chunk of the same thread up to it is past
the end. -/
theorem mem_serialLoop_of_mem_itersOf {J : ℕ → ℕ} (hn : 0 < n)
    (hJ : Turns n (pastAt chunk loopEnd lb) J)
    (hperm : ((List.range n).flatMap (taken n (itersOf ubofs step chunk loopEnd lb) J)).Perm
      (serialLoop ubofs lb up step)) {m : ℕ}
    (hm : ∀ m' ≤ m, m' % n = m % n → ¬ pastAt chunk loopEnd lb m') {x : ℤ}
    (hx : x ∈ itersOf ubofs step chunk loopEnd lb m) : x ∈ serialLoop ubofs lb up step := by
  rw [← hperm.mem_iff, List.mem_flatMap]
  refine ⟨m % n, List.mem_range.mpr (Nat.mod_lt m hn), mem_taken.mpr ⟨m / n, ?_, ?_⟩⟩
  · exact hJ.taken_of hn hm
  · rwa [Nat.mod_add_div]

/-- Every iteration of the loop is in a chunk that does not start past the end. -/
theorem exists_chunk_of_mem_serialLoop {J : ℕ → ℕ} (hJ : Turns n (pastAt chunk loopEnd lb) J)
    (hperm : ((List.range n).flatMap (taken n (itersOf ubofs step chunk loopEnd lb) J)).Perm
      (serialLoop ubofs lb up step)) {x : ℤ} (hx : x ∈ serialLoop ubofs lb up step) :
    ∃ m, ¬ pastAt chunk loopEnd lb m ∧ x ∈ itersOf ubofs step chunk loopEnd lb m := by
  rw [← hperm.mem_iff, List.mem_flatMap] at hx
  obtain ⟨id, hid, hx⟩ := hx
  obtain ⟨j, hj, hx⟩ := mem_taken.mp hx
  exact ⟨_, (hJ id (List.mem_range.mp hid)).1 j hj, hx⟩

theorem mem_serialLoop_of_pos (hs : 0 < step) {x : ℤ} :
    x ∈ serialLoop ubofs lb up step ↔ lb ≤ x ∧ x < up + ubofs ∧ step ∣ x - lb := by
  rw [serialLoop, mem_loopValues_of_pos hs, loopBound, if_pos hs]

theorem mem_serialLoop_of_neg (hs : step < 0) {x : ℤ} :
    x ∈ serialLoop ubofs lb up step ↔ up - ubofs < x ∧ x ≤ lb ∧ step ∣ x - lb := by
  rw [serialLoop, mem_loopValues_of_neg hs, loopBound, if_neg (by omega)]

/-- A loop that starts below zero and ends at or above it loses its first iteration: no
chunk that is let through starts below zero. -/
theorem not_teamCovers_of_pos_cross (hs : 0 < step) (hc : 0 < chunk) (hlb : lb < 0)
    (hend0 : 0 ≤ up + ubofs) (hend1 : up + ubofs ≤ 2 ^ 63) :
    ¬ TeamCovers n lb up ubofs step chunk (up + ubofs) := by
  rintro ⟨J, hJ, hperm, -⟩
  have hmem : lb ∈ serialLoop ubofs lb up step :=
    (mem_serialLoop_of_pos hs).mpr ⟨le_rfl, by omega, by simp⟩
  obtain ⟨m, hpast, hx⟩ := exists_chunk_of_mem_serialLoop hJ hperm hmem
  have hstart := ((mem_serialLoop_of_pos hs).mp hx).1
  simp only [pastAt, Past, if_pos hc, toULL_of_nonneg hend0 (show up + ubofs < 2 ^ 64 by omega),
    not_le] at hpast
  simp only [chunkAt] at hstart
  unfold toLL at hstart
  unfold toULL at hpast
  omega

theorem not_teamCovers_of_neg_cross (hs : step < 0) (hc : chunk < 0) (hlb : 0 ≤ lb)
    (hub : 0 ≤ ubofs) (hend0 : -2 ^ 63 ≤ up + ubofs) (hend1 : up + ubofs < 0) :
    ¬ TeamCovers n lb up ubofs step chunk (up + ubofs) := by
  rintro ⟨J, hJ, hperm, -⟩
  have hmem : lb ∈ serialLoop ubofs lb up step :=
    (mem_serialLoop_of_neg hs).mpr ⟨by omega, le_rfl, by simp⟩
  obtain ⟨m, hpast, hx⟩ := exists_chunk_of_mem_serialLoop hJ hperm hmem
  have hstart := ((mem_serialLoop_of_neg hs).mp hx).2.1
  simp only [pastAt, Past, if_neg (show ¬ 0 < chunk by omega),
    toULL_of_neg (show -2 ^ 64 ≤ up + ubofs by omega) hend1, not_le] at hpast
  simp only [chunkAt] at hstart
  unfold toLL at hstart
  unfold toULL at hpast
  omega

/-- A thread that reaches the end sets `is_last`, so the loop has an iteration. -/
theorem exists_mem_of_split {M : ℕ} (hn : 0 < n) (hsplit : TestsSplit n lb loopEnd chunk M)
    (hM : 0 < M) (h : TeamCovers n lb up ubofs step chunk loopEnd) :
    ∃ x, x ∈ serialLoop ubofs lb up step := by
  obtain ⟨J, hJ, -, hlast⟩ := h
  have hid := Nat.mod_lt (M - 1) hn
  have hdiv := Nat.mod_add_div (M - 1) n
  obtain ⟨x, hx, -⟩ := (hlast _ hid).mp ⟨(M - 1) / n, (hJ.lt_iff hsplit hid _).mpr (by omega),
    (hsplit _ (by omega)).mpr (by omega)⟩
  exact ⟨x, List.mem_of_getLast? hx⟩

theorem le_sub_of_mod_eq {m m' : ℕ} (h : m' < m) (hmod : m' % n = m % n) : m' + n ≤ m := by
  obtain ⟨k, hk⟩ := (Nat.modEq_iff_dvd' h.le).mp hmod
  have hk0 : 0 < k := by
    rcases Nat.eq_zero_or_pos k with rfl | h'
    · omega
    · exact h'
  have := Nat.le_mul_of_pos_right n hk0
  omega

/-- A loop that ends below zero whose tested indices, read as unsigned numbers, wrap around: the
first index past zero is let through. -/
theorem not_teamCovers_of_pos_wrap (hn : 2 ≤ n) (hs : 0 < step) (hc : 0 < chunk)
    (hfit : chunk * n < 2 ^ 31) (hub : ubofs = 0 ∨ ubofs = 1) (hend0 : -2 ^ 63 ≤ up + ubofs)
    (hend1 : up + ubofs < 0)
    (hwrap : 2 ^ 64 ≤ toULL lb +
      chunk * (loopCount (toULL lb) (up + ubofs + 2 ^ 64) chunk + n - 1 : ℕ)) :
    ¬ TeamCovers n lb up ubofs step chunk (up + ubofs) := by
  rintro ⟨J, hJ, hperm, -⟩
  set M := loopCount (toULL lb) (up + ubofs + 2 ^ 64) chunk with hM
  have hv0 : 0 ≤ toULL lb := Int.emod_nonneg _ (by norm_num)
  have hv1 : toULL lb < 2 ^ 64 := Int.emod_lt_of_pos _ (by norm_num)
  have hchunk : chunk < 2 ^ 31 := by nlinarith
  have hex : ∃ m : ℕ, 2 ^ 64 ≤ toULL lb + chunk * m := ⟨_, hwrap⟩
  obtain ⟨m, hm, hmin⟩ : ∃ m : ℕ, 2 ^ 64 ≤ toULL lb + chunk * m ∧
      ∀ k < m, toULL lb + chunk * k < 2 ^ 64 :=
    ⟨Nat.find hex, Nat.find_spec hex, fun k hk => not_le.mp (Nat.find_min hex hk)⟩
  have hm0 : m ≠ 0 := by
    rintro rfl
    simp at hm
    omega
  have hmM : m ≤ M + n - 1 := by
    by_contra hc
    have := hmin (M + n - 1) (by omega)
    omega
  have hprev := hmin (m - 1) (by omega)
  rw [Nat.cast_sub (by omega), Nat.cast_one, mul_sub, mul_one] at hprev
  have hend : toULL (up + ubofs) = up + ubofs + 2 ^ 64 := toULL_of_neg (by omega) hend1
  have hstart : toULL (lb + chunk * m) = toULL lb + chunk * m - 2 ^ 64 := by
    unfold toULL at *
    omega
  have hnotpast : ∀ m' ≤ m, m' % n = m % n → ¬ pastAt chunk (up + ubofs) lb m' := by
    intro m' hle hmod
    rw [pastAt, Past, if_pos hc, hend, not_le]
    rcases hle.eq_or_lt with rfl | hlt
    · omega
    · have := le_sub_of_mod_eq hlt hmod
      have hlt' :=
        (@lt_loopCount_iff (toULL lb) (up + ubofs + 2 ^ 64) chunk hc.ne' m').mp (by omega)
      rw [reach, if_pos hc, Int.natAbs_of_nonneg hc.le, mul_comm] at hlt'
      have h0 : 0 ≤ chunk * (m' : ℤ) := by positivity
      unfold toULL at *
      omega
  have hnext : ¬ Past chunk (up + ubofs) (lb + chunk * m + chunk) := by
    rw [Past, if_pos hc, hend, not_le]
    unfold toULL at *
    omega
  have hiter : toULL (lb + chunk * m) ∈ itersOf ubofs step chunk (up + ubofs) lb m := by
    have hl : toLL (lb + chunk * m) = toULL (lb + chunk * m) := by
      unfold toULL toLL at *
      omega
    have hu : toLL (lb + chunk * m + chunk - ubofs) = toULL (lb + chunk * m) + chunk - ubofs := by
      unfold toULL toLL at *
      omega
    rw [itersOf, chunkAt, if_neg hnext, hl, hu, mem_serialLoop_of_pos hs]
    exact ⟨le_rfl, by omega, by simp⟩
  have := (mem_serialLoop_of_pos hs).mp
    (mem_serialLoop_of_mem_itersOf (by omega) hJ hperm hnotpast hiter)
  omega

/-- A decreasing loop that ends at or above zero whose tested indices go below zero: the first
of them is let through. With an inclusive bound the chunk also runs the start of the next. -/
theorem not_teamCovers_of_neg_wrap (hn : 2 ≤ n) (hs : step < 0) (hdvd : step ∣ chunk)
    (hc : chunk < 0) (hfit : -2 ^ 31 ≤ chunk * n) (hub : ubofs = 0 ∨ ubofs = 1)
    (hend0 : 0 ≤ up + ubofs) (hend1 : up + ubofs ≤ 2 ^ 63)
    (hwrap : toULL lb + chunk * (loopCount (toULL lb) (up + ubofs) chunk + n - 1 : ℕ) < 0) :
    ¬ TeamCovers n lb up ubofs step chunk (up + ubofs) := by
  rintro ⟨J, hJ, hperm, -⟩
  set M := loopCount (toULL lb) (up + ubofs) chunk with hM
  have hpos : ¬ 0 < chunk := by omega
  have hv0 : 0 ≤ toULL lb := Int.emod_nonneg _ (by norm_num)
  have hv1 : toULL lb < 2 ^ 64 := Int.emod_lt_of_pos _ (by norm_num)
  have hchunk : -2 ^ 31 ≤ chunk := by nlinarith
  have hex : ∃ m : ℕ, toULL lb + chunk * m < 0 := ⟨_, hwrap⟩
  obtain ⟨m, hm, hmin⟩ : ∃ m : ℕ, toULL lb + chunk * m < 0 ∧
      ∀ k < m, 0 ≤ toULL lb + chunk * k :=
    ⟨Nat.find hex, Nat.find_spec hex, fun k hk => not_lt.mp (Nat.find_min hex hk)⟩
  have hm0 : m ≠ 0 := by
    rintro rfl
    simp at hm
    omega
  have hmM : m ≤ M + n - 1 := by
    by_contra hc
    have := hmin (M + n - 1) (by omega)
    omega
  have hprev := hmin (m - 1) (by omega)
  rw [Nat.cast_sub (by omega), Nat.cast_one, mul_sub, mul_one] at hprev
  have hend : toULL (up + ubofs) = up + ubofs := toULL_of_nonneg hend0 (by omega)
  set l := toULL lb + chunk * m with hl
  have hstart : toULL (lb + chunk * m) = l + 2 ^ 64 := by
    unfold toULL at *
    omega
  have hnotpast : ∀ m' ≤ m, m' % n = m % n → ¬ pastAt chunk (up + ubofs) lb m' := by
    intro m' hle hmod
    rw [pastAt, Past, if_neg hpos, hend, not_le]
    rcases hle.eq_or_lt with rfl | hlt
    · omega
    · have := le_sub_of_mod_eq hlt hmod
      have hlt' := (@lt_loopCount_iff (toULL lb) (up + ubofs) chunk hc.ne m').mp (by omega)
      rw [reach, if_neg hpos, Int.ofNat_natAbs_of_nonpos hc.le, mul_comm, neg_mul] at hlt'
      have h0 : chunk * (m' : ℤ) ≤ 0 := mul_nonpos_of_nonpos_of_nonneg hc.le (by positivity)
      unfold toULL at *
      omega
  have hnext : ¬ Past chunk (up + ubofs) (lb + chunk * m + chunk) := by
    rw [Past, if_neg hpos, hend, not_le]
    unfold toULL at *
    omega
  have hiter : l + ubofs * chunk ∈ itersOf ubofs step chunk (up + ubofs) lb m := by
    have hlow : toLL (lb + chunk * m) = l := by
      unfold toULL toLL at *
      omega
    have hu : toLL (lb + chunk * m + chunk - ubofs) = l + chunk - ubofs := by
      unfold toULL toLL at *
      omega
    rw [itersOf, chunkAt, if_neg hnext, hlow, hu, mem_serialLoop_of_neg hs, add_sub_cancel_left]
    refine ⟨?_, ?_, hdvd.mul_left _⟩ <;> rcases hub with rfl | rfl <;> omega
  have := (mem_serialLoop_of_neg hs).mp
    (mem_serialLoop_of_mem_itersOf (by omega) hJ hperm hnotpast hiter)
  rcases hub with rfl | rfl <;> omega

theorem not_teamCovers_minus_one (hn : 2 ≤ n) (hs : step < 0) (hdvd : step ∣ chunk)
    (hc : chunk < 0) (hfit : -2 ^ 31 ≤ chunk * n) :
    ¬ TeamCovers n (-1) (-1) 1 step chunk (-1 + 1) := by
  rintro ⟨J, hJ, hperm, -⟩
  have hpos : ¬ 0 < chunk := by omega
  have hchunk : -2 ^ 31 ≤ chunk := by nlinarith
  have hnotpast : ∀ m' ≤ 0, m' % n = 0 % n → ¬ pastAt chunk (-1 + 1) (-1) m' := by
    intro m' hm _
    obtain rfl : m' = 0 := by omega
    rw [pastAt, Past, if_neg hpos, Nat.cast_zero, mul_zero]
    decide
  have hnext : ¬ Past chunk (-1 + 1) (-1 + chunk * (0 : ℕ) + chunk) := by
    rw [Past, if_neg hpos, Nat.cast_zero, mul_zero, not_le]
    unfold toULL
    omega
  have hiter : -1 + chunk ∈ itersOf 1 step chunk (-1 + 1) (-1) 0 := by
    have hu : toLL (-1 + chunk * (0 : ℕ) + chunk - 1) = -1 + chunk - 1 := by
      rw [Nat.cast_zero, mul_zero]
      unfold toLL
      omega
    have hlow : toLL (-1 + chunk * (0 : ℕ)) = -1 := by
      rw [Nat.cast_zero, mul_zero]
      decide
    rw [itersOf, chunkAt, if_neg hnext, hlow, hu, mem_serialLoop_of_neg hs, add_sub_cancel_left]
    exact ⟨by omega, by omega, hdvd⟩
  have := (mem_serialLoop_of_neg hs).mp
    (mem_serialLoop_of_mem_itersOf (by omega) hJ hperm hnotpast hiter)
  omega

section

variable (hn : 2 ≤ n) (hlb : InLL lb) (hup : InLL up) (hub : ubofs = 0 ∨ ubofs = 1)
  (hdvd : step ∣ chunk) (hfit : InInt (chunk * n))
  (h : TeamCovers n lb up ubofs step chunk (up + ubofs))

include hn hlb hup hub hfit h

theorem noCross_of_teamCovers_pos (hs : 0 < step) (hc : 0 < chunk) :
    NoCross lb (up + ubofs) chunk n := by
  obtain ⟨hl0, hl1⟩ := hlb
  obtain ⟨hu0, hu1⟩ := hup
  have hend0 : -2 ^ 63 ≤ up + ubofs := by omega
  rw [NoCross, if_pos hc]
  rcases lt_or_ge (up + ubofs) 0 with hend | hend
  · refine Or.inr ⟨hend, ?_⟩
    by_contra htop
    have hwrap :=
      @not_teamCovers_of_pos_wrap lb up ubofs step chunk n hn hs hc hfit.2 hub hend0 hend
    rcases lt_or_ge lb 0 with hneg | hpos
    · rw [toULL_of_neg (by omega) hneg, loopCount_add] at hwrap
      exact hwrap (by omega) h
    · rw [toULL_of_nonneg hpos (by omega)] at hwrap
      have hnowrap := not_le.mp fun hle => hwrap hle h
      have hsplit : TestsSplit n lb (up + ubofs) chunk
          (loopCount lb (up + ubofs + 2 ^ 64) chunk) := by
        apply testsSplit_of_congr hc.ne' (toULL_of_neg (by omega) hend)
        intro m hm
        obtain ⟨hx0, hx1, -⟩ := index_bounds_of_pos hc hm
        exact toULL_of_nonneg (by omega) (by omega)
      have hM : 0 < loopCount lb (up + ubofs + 2 ^ 64) chunk := by
        rw [lt_loopCount_iff hc.ne', reach, if_pos hc]
        push_cast
        omega
      obtain ⟨x, hx⟩ := exists_mem_of_split (by omega) hsplit hM h
      have := (mem_serialLoop_of_pos hs).mp hx
      omega
  · refine Or.inl ⟨?_, hend⟩
    by_contra hneg
    exact not_teamCovers_of_pos_cross hs hc (not_le.mp hneg) hend (by omega) h

include hdvd

theorem noCross_of_teamCovers_neg (hs : step < 0) (hc : chunk < 0) :
    NoCross lb (up + ubofs) chunk n := by
  obtain ⟨hl0, hl1⟩ := hlb
  obtain ⟨hu0, hu1⟩ := hup
  have hend0 : -2 ^ 63 ≤ up + ubofs := by omega
  have hend1 : up + ubofs ≤ 2 ^ 63 := by omega
  have hpos : ¬ 0 < chunk := by omega
  rw [NoCross, if_neg hpos]
  rcases lt_or_ge (up + ubofs) 0 with hend | hend
  · refine Or.inl ⟨?_, hend⟩
    by_contra hneg
    exact not_teamCovers_of_neg_cross hs hc (not_lt.mp hneg) (by omega) hend0 hend h
  · right
    by_cases hcorner : lb = -2 ^ 63 ∧ up + ubofs = 2 ^ 63
    · exact Or.inr hcorner
    refine Or.inl ⟨hend, ?_⟩
    by_contra htop
    have hwrap :=
      @not_teamCovers_of_neg_wrap lb up ubofs step chunk n hn hs hdvd hc hfit.1 hub hend hend1
    rcases le_or_gt 0 lb with hnonneg | hneg
    · rw [toULL_of_nonneg hnonneg (by omega)] at hwrap
      exact hwrap (by omega) h
    · rw [toULL_of_neg (by omega) hneg] at hwrap
      have hnowrap := not_lt.mp fun hlt => hwrap hlt h
      have hsplit : TestsSplit n lb (up + ubofs) chunk
          (loopCount (lb + 2 ^ 64) (up + ubofs) chunk) := by
        apply testsSplit_of_congr hc.ne (toULL_of_nonneg hend (by omega))
        intro m hm
        obtain ⟨hx0, hx1, -⟩ := index_bounds_of_neg hc hm
        unfold toULL
        omega
      have hM : 0 < loopCount (lb + 2 ^ 64) (up + ubofs) chunk := by
        rw [lt_loopCount_iff hc.ne, reach, if_neg hpos]
        push_cast
        omega
      obtain ⟨x, hx⟩ := exists_mem_of_split (by omega) hsplit hM h
      have hx := (mem_serialLoop_of_neg hs).mp hx
      rcases hub with rfl | rfl
      · omega
      · obtain rfl : up = -1 := by omega
        obtain rfl : lb = -1 := by omega
        exact not_teamCovers_minus_one hn hs hdvd hc hfit.1 h

end

/-! ## Decreasing loops with an inclusive bound -/

section

variable (hn : 2 ≤ n) (hlb : InLL lb) (hup : InLL up) (hs : step < 0) {C : ℕ} (hC : 1 ≤ C)
  (hsplit : TestsSplit n lb (up + 1) (C * step) (loopCount lb (up + 1) (C * step)))

include hn hlb hup hs hC hsplit

/-- The loop end lies two below the bound it would have to be, so a chunk that does not reach
the end runs the first iteration of the next one as well. -/
theorem single_chunk_of_teamCovers (h : TeamCovers n lb up 1 step (C * step) (up + 1)) :
    lb < up ∨ up + 2 ≤ lb ∧ lb + C * step ≤ up + 1 := by
  have hc : (C : ℤ) * step < 0 := mul_neg_of_pos_of_neg (by omega) hs
  have hpos : ¬ 0 < (C : ℤ) * step := by omega
  have hchunk := @chunkAt_of_split lb up 1 step hlb hup (Or.inr rfl) hs.ne C hC n (by omega) hsplit
  obtain ⟨J, hJ, hperm, -⟩ := h
  have hperm := (hJ.perm hsplit (by omega)).symm.trans hperm
  rcases lt_or_ge lb up with hlt | hle
  · exact Or.inl hlt
  right
  have hcount := @lt_loopCount_iff lb (up + 1) (C * step) hc.ne
  simp only [reach, if_neg hpos, Int.ofNat_natAbs_of_nonpos hc.le] at hcount
  have hM : 0 < loopCount lb (up + 1) (C * step) := by
    by_contra hM
    have hmem : lb ∈ serialLoop 1 lb up step :=
      (mem_serialLoop_of_neg hs).mpr ⟨by omega, le_rfl, by simp⟩
    rw [← hperm.mem_iff, Nat.eq_zero_of_not_pos hM] at hmem
    simp at hmem
  have h0 := (hcount 0).mp hM
  refine ⟨by push_cast at h0; omega, ?_⟩
  by_contra hnext
  have h1 : 1 < loopCount lb (up + 1) (C * step) := by
    rw [hcount]
    push_cast
    omega
  have hnodup : ((List.range (loopCount lb (up + 1) (C * step))).flatMap
      (itersOf 1 step (C * step) (up + 1) lb)).Nodup :=
    hperm.nodup_iff.mpr (loopValues_nodup hs.ne)
  have hdisj := (List.nodup_flatMap.mp hnodup).2
  have hd :=
    List.pairwise_iff_getElem.mp hdisj 0 1 (by simpa using hM) (by simpa using h1) (by omega)
  simp only [List.getElem_range, Function.onFun] at hd
  have hmem0 : lb + C * step ∈ itersOf 1 step (C * step) (up + 1) lb 0 := by
    rw [itersOf, hchunk hM, if_neg (by omega), mem_serialLoop_of_neg hs]
    push_cast
    refine ⟨by omega, by omega, ?_⟩
    simp
  have hmem1 : lb + C * step ∈ itersOf 1 step (C * step) (up + 1) lb 1 := by
    rw [itersOf, hchunk h1, mem_serialLoop_of_neg hs]
    push_cast
    refine ⟨?_, by omega, by simp⟩
    split_ifs <;> omega
  exact hd hmem0 hmem1

theorem teamCovers_of_single_chunk (h : lb < up ∨ up + 2 ≤ lb ∧ lb + C * step ≤ up + 1) :
    TeamCovers n lb up 1 step (C * step) (up + 1) := by
  have hc : (C : ℤ) * step < 0 := mul_neg_of_pos_of_neg (by omega) hs
  have hpos : ¬ 0 < (C : ℤ) * step := by omega
  have hchunk := @chunkAt_of_split lb up 1 step hlb hup (Or.inr rfl) hs.ne C hC n (by omega) hsplit
  have hcount := @lt_loopCount_iff lb (up + 1) (C * step) hc.ne
  simp only [reach, if_neg hpos, Int.ofNat_natAbs_of_nonpos hc.le] at hcount
  rcases h with h | ⟨h1, h2⟩
  · have hM : loopCount lb (up + 1) (C * step) = 0 := by
      by_contra hM
      have := (hcount 0).mp (Nat.pos_of_ne_zero hM)
      push_cast at this
      omega
    rw [hM] at hsplit
    apply teamCovers_of_split (by omega) hsplit
    · rw [serialLoop, loopValues_eq_nil hs.ne]
      · rfl
      · rw [reach, if_neg (by omega), loopBound, if_neg (by omega)]
        omega
    · intro m hm
      omega
  · have hM : loopCount lb (up + 1) (C * step) = 1 := by
      have h0 := (hcount 0).mpr (by push_cast; omega)
      have h1 := (hcount 1).not.mpr (by push_cast; omega)
      omega
    rw [hM] at hsplit hchunk
    have hiters : itersOf 1 step (C * step) (up + 1) lb 0 = serialLoop 1 lb up step := by
      rw [itersOf, hchunk Nat.zero_lt_one, if_pos le_rfl]
      simp
    apply teamCovers_of_split (by omega) hsplit
    · simp [hiters]
    · intro m hm
      obtain rfl : m = 0 := by omega
      rw [hiters]
      have hmem : lb ∈ serialLoop 1 lb up step :=
        (mem_serialLoop_of_neg hs).mpr ⟨by omega, le_rfl, by simp⟩
      obtain ⟨x, hx⟩ := Option.isSome_iff_exists.mp
        (List.getLast?_isSome.mpr (List.ne_nil_of_mem hmem))
      exact iff_of_true ⟨x, hx, List.mem_of_getLast? hx⟩ rfl

end

/-! ## The schedule of a team -/

/-- When the chunks of `chunkSize` iterations cover the loop: no `int` product overflows, the
comparisons are between indices of the same sign, and a decreasing loop with an inclusive bound
is empty or fits in one chunk and has its first index at least two above the bound. -/
def ChunksFit (lb up ubofs step chunkSize : ℤ) (n : ℕ) : Prop :=
  InInt (chunkSize * step * n) ∧ NoCross lb (up + ubofs) (chunkSize * step) n ∧
    (step < 0 → ubofs = 1 → lb < up ∨ up + 2 ≤ lb ∧ lb + chunkSize * step ≤ up + 1)

theorem chunkScheduled_iff_chunksFit (hteam : IsTeam n team) (hn : 2 ≤ n) (hlb : InLL lb)
    (hup : InLL up) (hub : ubofs = 0 ∨ ubofs = 1) (hs : step ≠ 0) {chunkSize : ℤ}
    (hchunk : 1 ≤ chunkSize) :
    ChunkScheduled n (fun id => staticSchedInitTid (team id) lb up ubofs step chunkSize) lb up ubofs
      step ↔ ChunksFit lb up ubofs step chunkSize n := by
  rw [chunkScheduled_iff_teamCovers hteam hn hchunk, ChunksFit]
  apply and_congr_right
  intro hfit
  obtain ⟨C, rfl⟩ := Int.eq_ofNat_of_zero_le (show 0 ≤ chunkSize by omega)
  have hC : 1 ≤ C := by omega
  have hc : (C : ℤ) * step ≠ 0 := mul_ne_zero (by omega) hs
  have hend : -2 ^ 63 ≤ up + ubofs ∧ up + ubofs ≤ 2 ^ 63 := by
    obtain ⟨h0, h1⟩ := hup
    omega
  constructor
  · intro h
    have hcross : NoCross lb (up + ubofs) (C * step) n := by
      rcases lt_or_gt_of_ne hs with hneg | hpos
      · exact noCross_of_teamCovers_neg hn hlb hup hub (Dvd.intro_left _ rfl) hfit h hneg
          (mul_neg_of_pos_of_neg (by omega) hneg)
      · exact noCross_of_teamCovers_pos hn hlb hup hub hfit h hpos (mul_pos (by omega) hpos)
    refine ⟨hcross, ?_⟩
    rintro hneg rfl
    exact single_chunk_of_teamCovers hn hlb hup hneg hC
      (testsSplit_of_noCross hlb hend hc hfit hcross) h
  · rintro ⟨hcross, hsingle⟩
    have hsplit := testsSplit_of_noCross hlb hend hc hfit hcross
    by_cases hdown : step < 0 ∧ ubofs = 1
    · obtain ⟨hneg, rfl⟩ := hdown
      exact teamCovers_of_single_chunk hn hlb hup hneg hC hsplit (hsingle hneg rfl)
    · apply teamCovers_of_bound hlb hup hub hs hC (by omega) _ hsplit
      unfold loopBound
      split_ifs <;> omega

/-- The chunk size taken where none is given: the iterations per thread, rounded up and stored in an
`int`. -/
def derivedChunk (dist step : ℤ) (n : ℕ) : ℤ :=
  toInt (dist.tdiv (step * n) + if dist.tmod (step * n) = 0 then 0 else 1)

theorem runtimeSchedInit_eq (hteam : IsTeam n team) {id : ℕ} (hid : id < n) {size : ℤ}
    (hsize : size ≤ 0) :
    runtimeSchedInit (team id) size lb up ubofs step =
      if InInt (step * n) then
        staticSchedInitTid (team id) lb up ubofs step
          (max 1 (derivedChunk (toLL (up + ubofs - lb)) step n))
      else none := by
  have hmax : ∀ x : ℤ, (if x ≤ 0 then 1 else x) = max 1 x := by
    intro x
    split_ifs <;> omega
  simp only [runtimeSchedInit, if_pos hsize, getNumThreads, (hteam id hid).2, Option.getD_some,
    hmax]
  split_ifs with h
  · rw [cint_of_inInt h, Option.bind_eq_bind, Option.bind_some, ← derivedChunk]
  · rw [cint_of_not_inInt h]
    rfl

theorem runtime_chunkScheduled_iff (hteam : IsTeam n team) (hn : 2 ≤ n) {size : ℤ}
    (hsize : size ≤ 0) :
    ChunkScheduled n (fun id => runtimeSchedInit (team id) size lb up ubofs step) lb up ubofs step ↔
      InInt (step * n) ∧
        ChunkScheduled n (fun id => staticSchedInitTid (team id) lb up ubofs step
          (max 1 (derivedChunk (toLL (up + ubofs - lb)) step n))) lb up ubofs step := by
  have heq := fun id hid => @runtimeSchedInit_eq lb up ubofs step n team hteam id hid size hsize
  by_cases h : InInt (step * n)
  · simp only [if_pos h] at heq
    simp only [h, true_and, ChunkScheduled]
    apply exists_congr
    intro out
    apply and_congr_left
    intro _
    apply forall₂_congr
    intro id hid
    rw [heq id hid]
  · simp only [if_neg h] at heq
    simp only [h, false_and, iff_false]
    rintro ⟨out, hout, -⟩
    obtain ⟨tp, fuel, hinit, -⟩ := hout 0 (by omega)
    exact absurd ((heq 0 (by omega)).symm.trans hinit) (by simp)

/-- The chunks given in the program and those derived at run time cover the loop exactly when
they fit. -/
theorem chunkScheduled_iff (hteam : IsTeam n team) (hn : 2 ≤ n) (hlb : InLL lb) (hup : InLL up)
    (hub : ubofs = 0 ∨ ubofs = 1) (hs : step ≠ 0) :
    (∀ chunkSize : ℤ, 1 ≤ chunkSize →
      (ChunkScheduled n (fun id => staticSchedInitTid (team id) lb up ubofs step chunkSize) lb up
        ubofs step ↔ ChunksFit lb up ubofs step chunkSize n)) ∧
    ∀ size : ℤ, size ≤ 0 →
      (ChunkScheduled n (fun id => runtimeSchedInit (team id) size lb up ubofs step) lb up ubofs
        step ↔ InInt (step * n) ∧
          ChunksFit lb up ubofs step (max 1 (derivedChunk (toLL (up + ubofs - lb)) step n)) n) := by
  constructor
  · intro chunkSize hchunk
    exact chunkScheduled_iff_chunksFit hteam hn hlb hup hub hs hchunk
  · intro size hsize
    rw [runtime_chunkScheduled_iff hteam hn hsize,
      chunkScheduled_iff_chunksFit hteam hn hlb hup hub hs (le_max_left _ _)]

/-- `for (i = 29; i > 20; i -= 2)` on two threads, in chunks of two and in those derived at run
time. -/
theorem chunkScheduled_above_zero :
    ChunkScheduled 2 (fun id => staticSchedInitTid (freshTeam 2 id) 29 20 0 (-2) 2) 29 20 0 (-2) ∧
      ChunkScheduled 2 (fun id => runtimeSchedInit (freshTeam 2 id) 0 29 20 0 (-2)) 29 20
        0 (-2) := by
  have h := @chunkScheduled_iff 29 20 0 (-2) 2 (freshTeam 2) (isTeam_freshTeam 2) (by decide)
    (by decide) (by decide) (Or.inl rfl) (by decide)
  refine ⟨(h.1 2 (by decide)).mpr ⟨by decide, ?_, by decide⟩,
    (h.2 0 le_rfl).mpr ⟨by decide, by decide, ?_, by decide⟩⟩
  · exact Or.inr (Or.inl (by decide))
  · exact Or.inr (Or.inl (by decide))

/-- `for (i = -3; i < 3; i++)` in chunks of one on two threads: both find their first index past
the end and the loop is not run at all. -/
theorem chunkSchedule_lost_loop :
    ¬ ChunkScheduled 2 (fun id => staticSchedInitTid (freshTeam 2 id) (-3) 3 0 1 1) (-3) 3 0 1 := by
  intro h
  have hteam := ((chunkScheduled_iff_teamCovers (isTeam_freshTeam 2) le_rfl le_rfl).mp h).2
  exact not_teamCovers_of_pos_cross one_pos one_pos (by decide) (by decide) (by decide) hteam

end OmniCompiler.Omp
