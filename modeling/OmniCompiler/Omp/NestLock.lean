import OmniCompiler.Arithmetic.SmallFin
import OmniCompiler.Concurrency.Interleaving

/-!
# Nestable locks (`ompc_lock.c`, without `USE_SPIN_LOCK`)

A nestable lock has two mutexes. `lock` protects the record; `wait` is held by
the owner, and is what other threads queue on. Count and owner are first read
without any mutex, and the last unlock gives the mutexes back one after the
other. Every access to the shared record is a step of its own; the count is
only changed under `lock`.
-/
namespace OmniCompiler.Omp.NestLock

open Interleaving SmallFin

/-- Which acquisition a thread is in; `nest wl` is `ompc_nest_lock` with its variable `wl`. -/
inductive Mode
  | nest (wl : Bool)
  | test
  deriving DecidableEq

/-- The next access of a thread, in the order of the source; `readCount` and `readId` are the
reads at the label `retry`, or those of `ompc_test_nest_lock` if the flag is set. -/
inductive Pc
  | idle
  | readCount (test : Bool)
  | readId (test : Bool)
  | takeWait
  | tryLock
  | giveWait
  | takeLock
  | testLock
  | check (m : Mode)
  | checkId (m : Mode)
  | backOff (m : Mode)
  | backOffWait
  | lateWait (m : Mode)
  | setId (m : Mode)
  | setCount (m : Mode)
  | release (m : Mode)
  | readResult
  | unlockTakeLock
  | decrement
  | giveLockLast
  | giveWaitLast
  | giveLock
  deriving DecidableEq

inductive Call
  | lock
  | test
  | unlock

/-- A finished `ompc_test_nest_lock`: what it returned, and how often the caller held the lock
before and after. -/
structure TestResult where
  value : ℤ
  before : ℕ
  after : ℕ

variable {ι : Type*} [DecidableEq ι]

/-- The record, the threads and how often each of them holds the lock: its acquisitions less
its releases. -/
structure State (ι : Type*) where
  lock : Option ι
  wait : Option ι
  count : ℤ
  id : ι
  pc : ι → Pc
  depth : ι → ℕ
  depthAtCall : ι → ℕ
  results : List TestResult

/-- `ompc_init_nest_lock`; `id` is not set. -/
def Start (s : State ι) : Prop :=
  s.lock = none ∧ s.wait = none ∧ s.count = 0 ∧ (∀ t, s.pc t = .idle) ∧ (∀ t, s.depth t = 0) ∧
    s.results = []

def State.goto (s : State ι) (t : ι) (pc : Pc) : State ι :=
  { s with pc := Function.update s.pc t pc }

def State.ret (s : State ι) (t : ι) (value : ℤ) : State ι :=
  { s with
    pc := Function.update s.pc t .idle
    results := ⟨value, s.depthAtCall t, s.depth t⟩ :: s.results }

/-- One access of thread `t`. A thread outside the functions may make any call, an unlock only
as the owner. -/
def step (l : ι × Call) (s : State ι) : Option (State ι) :=
  let t := l.1
  match s.pc t with
  | .idle =>
    match l.2 with
    | .lock => some (s.goto t (.readCount false))
    | .test =>
      some ({ s with depthAtCall := Function.update s.depthAtCall t (s.depth t) }.goto t
        (.readCount true))
    | .unlock => if 0 < s.depth t then some (s.goto t .unlockTakeLock) else none
  | .readCount test =>
    some (s.goto t (if s.count ≠ 0 then .readId test else if test then .testLock else .takeLock))
  | .readId test =>
    if s.id ≠ t then
      if test then some (s.ret t 0) else some (s.goto t .takeWait)
    else some (s.goto t (if test then .testLock else .takeLock))
  | .takeWait => if s.wait = none then some ({ s with wait := some t }.goto t .tryLock) else none
  | .tryLock =>
    if s.lock = none then some ({ s with lock := some t }.goto t (.check (.nest true)))
    else some (s.goto t .giveWait)
  | .giveWait => some ({ s with wait := none }.goto t (.readCount false))
  | .takeLock =>
    if s.lock = none then some ({ s with lock := some t }.goto t (.check (.nest false))) else none
  | .testLock =>
    if s.lock = none then some ({ s with lock := some t }.goto t (.check .test))
    else some (s.ret t 0)
  | .check m =>
    some (s.goto t (if s.count ≠ 0 then .checkId m
      else if m = .nest true then .setId m else .lateWait m))
  | .checkId m =>
    if s.id = t then
      some ({ s with
        count := s.count + 1
        depth := Function.update s.depth t (s.depth t + 1) }.goto t (.release m))
    else some (s.goto t (.backOff m))
  | .backOff m =>
    match m with
    | .nest true => some ({ s with lock := none }.goto t .backOffWait)
    | .nest false => some ({ s with lock := none }.goto t (.readCount false))
    | .test => some ({ s with lock := none }.ret t 0)
  | .backOffWait => some ({ s with wait := none }.goto t (.readCount false))
  | .lateWait m =>
    if s.wait = none then some ({ s with wait := some t }.goto t (.setId m)) else none
  | .setId m => some ({ s with id := t }.goto t (.setCount m))
  | .setCount m =>
    some ({ s with
      count := 1
      depth := Function.update s.depth t (s.depth t + 1) }.goto t (.release m))
  | .release m =>
    some ({ s with lock := none }.goto t (if m = Mode.test then .readResult else .idle))
  | .readResult => some (s.ret t s.count)
  | .unlockTakeLock =>
    if s.lock = none then some ({ s with lock := some t }.goto t .decrement) else none
  | .decrement =>
    some ({ s with
      count := s.count - 1
      depth := Function.update s.depth t (s.depth t - 1) }.goto t
        (if s.count - 1 = 0 then .giveLockLast else .giveLock))
  | .giveLockLast => some ({ s with lock := none }.goto t .giveWaitLast)
  | .giveWaitLast => some ({ s with wait := none }.goto t .idle)
  | .giveLock => some ({ s with lock := none }.goto t .idle)

/-! ## What a position implies -/

/-- The thread is between taking and giving back `lp->lock`. -/
@[simp] def Pc.holdsLock : Pc → Bool
  | .check _ | .checkId _ | .backOff _ | .lateWait _ | .setId _ | .setCount _ | .release _
  | .decrement | .giveLockLast | .giveLock => true
  | _ => false

/-- The thread has taken `lp->wait` and is not yet, or no longer, the owner. -/
@[simp] def Pc.holdsWait : Pc → Bool
  | .tryLock | .giveWait | .backOffWait | .setId _ | .setCount _ | .giveLockLast
  | .giveWaitLast => true
  | .check m | .checkId m | .backOff m => m = .nest true
  | _ => false

@[simp] def Pc.notOwner : Pc → Bool
  | .takeWait | .tryLock | .giveWait | .backOff _ | .backOffWait | .lateWait _ | .setId _
  | .setCount _ | .giveLockLast | .giveWaitLast => true
  | .check m | .checkId m => m = .nest true
  | _ => false

/-- Positions reached only by the owner. -/
@[simp] def Pc.isOwner : Pc → Bool
  | .release _ | .readResult | .unlockTakeLock | .decrement | .giveLock => true
  | _ => false

/-- Inside `ompc_test_nest_lock`, before the caller has got the lock. -/
@[simp] def Pc.testing : Pc → Bool
  | .readCount test | .readId test => test
  | .testLock => true
  | .check m | .checkId m | .backOff m | .lateWait m | .setId m | .setCount m => m = .test
  | _ => false

/-- Inside `ompc_test_nest_lock`, with the lock. -/
@[simp] def Pc.tested : Pc → Bool
  | .release m => m = .test
  | .readResult => true
  | _ => false

@[simp] def Knows (s : State ι) (t : ι) : Pc → Prop
  | .checkId _ => s.count ≠ 0
  | .lateWait _ | .setId _ => s.count = 0
  | .setCount _ => s.count = 0 ∧ s.id = t
  | _ => True

structure InvAt (s : State ι) (t : ι) : Prop where
  lock_iff : s.lock = some t ↔ (s.pc t).holdsLock = true
  wait_iff : s.wait = some t ↔ (s.pc t).holdsWait = true ∨ 0 < s.depth t
  notOwner : (s.pc t).notOwner = true → s.depth t = 0
  isOwner : (s.pc t).isOwner = true → 0 < s.depth t
  owner : 0 < s.depth t → s.count = s.depth t ∧ s.id = t
  knows : Knows s t (s.pc t)
  testing : (s.pc t).testing = true → s.depth t = s.depthAtCall t
  tested : (s.pc t).tested = true → s.depth t = s.depthAtCall t + 1

structure Inv (s : State ι) : Prop where
  thread : ∀ t, InvAt s t
  free : (∀ t, s.depth t = 0) → s.count = 0
  results : ∀ p ∈ s.results, (p.value ≠ 0 ∧ p.after = p.before + 1) ∨
    (p.value = 0 ∧ p.after = p.before)

omit [DecidableEq ι] in
theorem inv_start {s : State ι} (h : Start s) : Inv s := by
  obtain ⟨h1, h2, h3, h4, h5, h6⟩ := h
  refine ⟨fun t => ?_, fun _ => h3, by simp [h6]⟩
  constructor <;> simp [h1, h2, h4, h5]

/-- What a step of thread `t` may change: its own position and depth, a mutex that is free or its
own, and, holding `lock`, the record, if nobody else owns it. -/
structure Moves (t : ι) (s s' : State ι) : Prop where
  pc : ∀ u, u ≠ t → s'.pc u = s.pc u
  depth : ∀ u, u ≠ t → s'.depth u = s.depth u
  depthAtCall : ∀ u, u ≠ t → s'.depthAtCall u = s.depthAtCall u
  lock : s'.lock = s.lock ∨ (s.lock = none ∧ s'.lock = some t) ∨ (s.lock = some t ∧ s'.lock = none)
  wait : s'.wait = s.wait ∨ (s.wait = none ∧ s'.wait = some t) ∨ (s.wait = some t ∧ s'.wait = none)
  record : (s'.count = s.count ∧ s'.id = s.id) ∨ (s.lock = some t ∧ ∀ u, u ≠ t → s.depth u = 0)

variable {s s' : State ι} {t u : ι}

omit [DecidableEq ι] in
theorem mutex_iff {m m' : Option ι}
    (h : m' = m ∨ (m = none ∧ m' = some t) ∨ (m = some t ∧ m' = none))
    (hu : u ≠ t) : m' = some u ↔ m = some u := by
  rcases h with h | ⟨h1, h2⟩ | ⟨h1, h2⟩
  · rw [h]
  · simp [h1, h2, hu.symm]
  · simp [h1, h2, hu.symm]

omit [DecidableEq ι] in
theorem InvAt.other (h : Inv s) (hm : Moves t s s') (hu : u ≠ t) : InvAt s' u := by
  have hat := h.thread u
  have hpc := hm.pc u hu
  have hdepth := hm.depth u hu
  constructor
  · rw [mutex_iff hm.lock hu, hpc]
    exact hat.lock_iff
  · rw [mutex_iff hm.wait hu, hpc, hdepth]
    exact hat.wait_iff
  · rw [hpc, hdepth]
    exact hat.notOwner
  · rw [hpc, hdepth]
    exact hat.isOwner
  · rw [hdepth]
    intro hpos
    rcases hm.record with ⟨h1, h2⟩ | ⟨-, hzero⟩
    · rw [h1, h2]
      exact hat.owner hpos
    · exact absurd (hzero u hu) hpos.ne'
  · rw [hpc]
    rcases hm.record with ⟨h1, h2⟩ | ⟨hlock, -⟩
    · have := hat.knows
      unfold Knows at this ⊢
      rwa [h1, h2]
    · -- whoever relies on the record holds `lock`
      have hno : (s.pc u).holdsLock ≠ true := by
        rw [← hat.lock_iff.ne, hlock, ne_eq, Option.some.injEq]
        exact hu.symm
      cases hp : s.pc u <;> simp_all
  · rw [hpc, hdepth, hm.depthAtCall u hu]
    exact hat.testing
  · rw [hpc, hdepth, hm.depthAtCall u hu]
    exact hat.tested

omit [DecidableEq ι] in
theorem Inv.move (h : Inv s) (hm : Moves t s s') (ht : InvAt s' t)
    (hfree : (∀ u, s'.depth u = 0) → s'.count = 0)
    (hres : ∀ p ∈ s'.results, (p.value ≠ 0 ∧ p.after = p.before + 1) ∨
      (p.value = 0 ∧ p.after = p.before)) : Inv s' := by
  refine ⟨fun u => ?_, hfree, hres⟩
  by_cases hu : u = t
  · rw [hu]
    exact ht
  · exact InvAt.other h hm hu

structure Allows (s : State ι) (t : ι) (p : Pc) : Prop where
  notOwner : p.notOwner = true → s.depth t = 0
  isOwner : p.isOwner = true → 0 < s.depth t
  knows : Knows s t p
  testing : p.testing = true → s.depth t = s.depthAtCall t
  tested : p.tested = true → s.depth t = s.depthAtCall t + 1

omit [DecidableEq ι] in
theorem Inv.allows (h : Inv s) {q : Pc} (hpc : s.pc t = q) : Allows s t q := by
  subst hpc
  have hat := h.thread t
  exact ⟨hat.notOwner, hat.isOwner, hat.knows, hat.testing, hat.tested⟩

omit [DecidableEq ι] in
theorem allows_idle : Allows s t .idle := by
  constructor <;> simp

theorem Inv.switch (h : Inv s) {lock wait : Option ι} {p : Pc} {results : List TestResult}
    (hlock : lock = s.lock ∨ (s.lock = none ∧ lock = some t) ∨ (s.lock = some t ∧ lock = none))
    (hlockt : lock = some t ↔ p.holdsLock = true)
    (hwait : wait = s.wait ∨ (s.wait = none ∧ wait = some t) ∨ (s.wait = some t ∧ wait = none))
    (hwaitt : wait = some t ↔ p.holdsWait = true ∨ 0 < s.depth t) (ha : Allows s t p)
    (hres : ∀ p ∈ results, (p.value ≠ 0 ∧ p.after = p.before + 1) ∨
      (p.value = 0 ∧ p.after = p.before)) :
    Inv { s with
      lock := lock
      wait := wait
      pc := Function.update s.pc t p
      results := results } := by
  apply h.move (t := t)
  · exact ⟨fun u hu => by simp [hu], fun _ _ => rfl, fun _ _ => rfl, hlock, hwait,
      Or.inl ⟨rfl, rfl⟩⟩
  · constructor <;> simp only [Function.update_self]
    · exact hlockt
    · exact hwaitt
    · exact ha.notOwner
    · exact ha.isOwner
    · exact (h.thread t).owner
    · have hknows := ha.knows
      unfold Knows at hknows ⊢
      exact hknows
    · exact ha.testing
    · exact ha.tested
  · exact h.free
  · exact hres

section Positions

variable {q p : Pc} (h : Inv s) (hpc : s.pc t = q)
include h hpc

omit [DecidableEq ι] in
theorem Inv.lock_iff : s.lock = some t ↔ q.holdsLock = true := by
  rw [← hpc]
  exact (h.thread t).lock_iff

omit [DecidableEq ι] in
theorem Inv.wait_iff : s.wait = some t ↔ q.holdsWait = true ∨ 0 < s.depth t := by
  rw [← hpc]
  exact (h.thread t).wait_iff

theorem Inv.goto (hlock : p.holdsLock = q.holdsLock) (hwait : p.holdsWait = q.holdsWait)
    (ha : Allows s t p) : Inv (s.goto t p) := by
  apply h.switch (Or.inl rfl) _ (Or.inl rfl) _ ha h.results
  · rw [hlock]
    exact h.lock_iff hpc
  · rw [hwait]
    exact h.wait_iff hpc

theorem Inv.takesLock (hfree : s.lock = none) (hlock : p.holdsLock = true)
    (hwait : p.holdsWait = q.holdsWait) (ha : Allows s t p) :
    Inv ({ s with lock := some t }.goto t p) := by
  apply h.switch (Or.inr (Or.inl ⟨hfree, rfl⟩)) _ (Or.inl rfl) _ ha h.results
  · rw [hlock]
    exact iff_of_true rfl rfl
  · rw [hwait]
    exact h.wait_iff hpc

theorem Inv.givesLock (hheld : q.holdsLock = true) (hlock : p.holdsLock = false)
    (hwait : p.holdsWait = q.holdsWait) (ha : Allows s t p) :
    Inv ({ s with lock := none }.goto t p) := by
  apply h.switch (Or.inr (Or.inr ⟨(h.lock_iff hpc).mpr hheld, rfl⟩)) _ (Or.inl rfl) _ ha h.results
  · rw [hlock]
    exact iff_of_false (Option.some_ne_none t).symm Bool.false_ne_true
  · rw [hwait]
    exact h.wait_iff hpc

theorem Inv.takesWait (hfree : s.wait = none) (hlock : p.holdsLock = q.holdsLock)
    (hwait : p.holdsWait = true) (ha : Allows s t p) :
    Inv ({ s with wait := some t }.goto t p) := by
  apply h.switch (Or.inl rfl) _ (Or.inr (Or.inl ⟨hfree, rfl⟩)) _ ha h.results
  · rw [hlock]
    exact h.lock_iff hpc
  · rw [hwait]
    exact iff_of_true rfl (Or.inl rfl)

theorem Inv.givesWait (hheld : q.holdsWait = true) (hzero : s.depth t = 0)
    (hlock : p.holdsLock = q.holdsLock) (hwait : p.holdsWait = false) (ha : Allows s t p) :
    Inv ({ s with wait := none }.goto t p) := by
  apply h.switch (Or.inl rfl) _ (Or.inr (Or.inr ⟨(h.wait_iff hpc).mpr (Or.inl hheld), rfl⟩)) _ ha
    h.results
  · rw [hlock]
    exact h.lock_iff hpc
  · rw [hwait, hzero]
    exact iff_of_false (Option.some_ne_none t).symm (by simp)

theorem Inv.ret {value : ℤ} (hlock : q.holdsLock = false) (hwait : q.holdsWait = false)
    (hvalue : (value ≠ 0 ∧ s.depth t = s.depthAtCall t + 1) ∨
      (value = 0 ∧ s.depth t = s.depthAtCall t)) : Inv (s.ret t value) := by
  apply h.switch (Or.inl rfl) _ (Or.inl rfl) _ allows_idle
  · exact List.forall_mem_cons.mpr ⟨hvalue, h.results⟩
  · rw [h.lock_iff hpc, hlock]
    exact Iff.rfl
  · rw [h.wait_iff hpc, hwait]
    exact Iff.rfl

end Positions

omit [DecidableEq ι] in
theorem Inv.owner_unique (h : Inv s) (ht : (s.pc t).holdsWait = true ∨ 0 < s.depth t)
    (hu : 0 < s.depth u) : u = t := by
  have h1 := (h.thread t).wait_iff.mpr ht
  have h2 := (h.thread u).wait_iff.mpr (Or.inr hu)
  rw [h1, Option.some.injEq] at h2
  exact h2.symm

omit [DecidableEq ι] in
theorem Inv.exists_owner (h : Inv s) (hc : s.count ≠ 0) : ∃ u, 0 < s.depth u := by
  by_contra hno
  push Not at hno
  exact hc (h.free fun u => Nat.le_zero.mp (hno u))

theorem inv_checkId (h : Inv s) {m : Mode} (hpc : s.pc t = .checkId m) (hid : s.id = t) :
    Inv ({ s with
      count := s.count + 1
      depth := Function.update s.depth t (s.depth t + 1) }.goto t (.release m)) := by
  have hat := h.thread t
  have hc : s.count ≠ 0 := by simpa [hpc] using hat.knows
  obtain ⟨u, hu⟩ := h.exists_owner hc
  obtain rfl : u = t := ((h.thread u).owner hu).2.symm.trans hid
  obtain ⟨hcount, -⟩ := hat.owner hu
  have hlock : s.lock = some u := hat.lock_iff.mpr (by simp [hpc])
  have hwait : s.wait = some u := hat.wait_iff.mpr (Or.inr hu)
  apply h.move (t := u)
  · refine ⟨?_, ?_, fun _ _ => rfl, Or.inl rfl, Or.inl rfl, Or.inr ⟨hlock, ?_⟩⟩
    · intro v hv
      simp [State.goto, hv]
    · intro v hv
      simp [State.goto, hv]
    · intro v hv
      by_contra hpos
      exact hv (h.owner_unique (Or.inr hu) (Nat.pos_of_ne_zero hpos))
  · have htesting := hat.testing
    constructor <;> simp_all [State.goto]
  · intro hall
    have := hall u
    simp [State.goto] at this
  · exact h.results

theorem inv_setCount (h : Inv s) {m : Mode} (hpc : s.pc t = .setCount m) :
    Inv ({ s with
      count := 1
      depth := Function.update s.depth t (s.depth t + 1) }.goto t (.release m)) := by
  have hat := h.thread t
  have hzero : s.depth t = 0 := hat.notOwner (by simp [hpc])
  have hid : s.count = 0 ∧ s.id = t := by simpa [hpc] using hat.knows
  have hlock : s.lock = some t := hat.lock_iff.mpr (by simp [hpc])
  have hwait : s.wait = some t := hat.wait_iff.mpr (by simp [hpc])
  apply h.move (t := t)
  · refine ⟨?_, ?_, fun _ _ => rfl, Or.inl rfl, Or.inl rfl, Or.inr ⟨hlock, ?_⟩⟩
    · intro v hv
      simp [State.goto, hv]
    · intro v hv
      simp [State.goto, hv]
    · intro v hv
      by_contra hpos
      exact hv (h.owner_unique (Or.inl (by simp [hpc])) (Nat.pos_of_ne_zero hpos))
  · have htesting := hat.testing
    constructor <;> simp_all [State.goto]
  · intro hall
    have := hall t
    simp [State.goto] at this
  · exact h.results

theorem inv_setId (h : Inv s) {m : Mode} (hpc : s.pc t = .setId m) :
    Inv ({ s with id := t }.goto t (.setCount m)) := by
  have hat := h.thread t
  have hzero : s.depth t = 0 := hat.notOwner (by simp [hpc])
  have hcount : s.count = 0 := by simpa [hpc] using hat.knows
  have hlock : s.lock = some t := hat.lock_iff.mpr (by simp [hpc])
  have hwait : s.wait = some t := hat.wait_iff.mpr (by simp [hpc])
  apply h.move (t := t)
  · refine ⟨?_, fun _ _ => rfl, fun _ _ => rfl, Or.inl rfl, Or.inl rfl, Or.inr ⟨hlock, ?_⟩⟩
    · intro v hv
      simp [State.goto, hv]
    · intro v hv
      by_contra hpos
      exact hv (h.owner_unique (Or.inl (by simp [hpc])) (Nat.pos_of_ne_zero hpos))
  · have htesting := hat.testing
    constructor <;> simp_all [State.goto]
  · exact h.free
  · exact h.results

theorem inv_decrement (h : Inv s) (hpc : s.pc t = .decrement) :
    Inv ({ s with
      count := s.count - 1
      depth := Function.update s.depth t (s.depth t - 1) }.goto t
        (if s.count - 1 = 0 then .giveLockLast else .giveLock)) := by
  have hat := h.thread t
  have hpos : 0 < s.depth t := hat.isOwner (by simp [hpc])
  obtain ⟨hcount, hid⟩ := hat.owner hpos
  have hlock : s.lock = some t := hat.lock_iff.mpr (by simp [hpc])
  have hwait : s.wait = some t := hat.wait_iff.mpr (Or.inr hpos)
  have hothers : ∀ u, u ≠ t → s.depth u = 0 := by
    intro v hv
    by_contra hne
    exact hv (h.owner_unique (Or.inr hpos) (Nat.pos_of_ne_zero hne))
  apply h.move (t := t)
  · refine ⟨?_, ?_, fun _ _ => rfl, Or.inl rfl, Or.inl rfl, Or.inr ⟨hlock, hothers⟩⟩
    · intro v hv
      simp [State.goto, hv]
    · intro v hv
      simp [State.goto, hv]
  · by_cases hone : s.depth t = 1
    · have : s.count - 1 = 0 := by omega
      constructor <;> simp_all [State.goto]
    · have h1 : s.count - 1 ≠ 0 := by omega
      have h2 : 0 < s.depth t - 1 := by omega
      constructor <;> simp_all [State.goto]
  · intro hall
    have := hall t
    simp only [State.goto, Function.update_self] at this ⊢
    omega
  · exact h.results

section Steps

variable {call : Call} (h : Inv s)
include h

theorem inv_notMine {m : Mode} (hpc : s.pc t = .checkId m) (hid : s.id ≠ t) :
    Inv (s.goto t (.backOff m)) := by
  have hzero : s.depth t = 0 := by
    by_contra hpos
    exact hid ((h.thread t).owner (Nat.pos_of_ne_zero hpos)).2
  exact h.goto hpc rfl rfl
    ⟨fun _ => hzero, by simp, trivial, (h.allows hpc).testing, by simp⟩

theorem inv_idle (hpc : s.pc t = .idle) (hs : step (t, call) s = some s') : Inv s' := by
  simp only [step, hpc] at hs
  cases call with
  | lock =>
    obtain rfl := Option.some.inj hs
    exact h.goto hpc rfl rfl (by constructor <;> simp)
  | test =>
    -- the depth at the call is noted
    obtain rfl := Option.some.inj hs
    have hat := h.thread t
    apply h.move (t := t)
    · refine ⟨?_, fun _ _ => rfl, ?_, Or.inl rfl, Or.inl rfl, Or.inl ⟨rfl, rfl⟩⟩
      · intro u hu
        simp [State.goto, hu]
      · intro u hu
        simp [State.goto, hu]
    · constructor <;> simp only [State.goto, Function.update_self]
      · exact (h.lock_iff hpc).trans Iff.rfl
      · exact (h.wait_iff hpc).trans Iff.rfl
      · simp
      · simp
      · exact hat.owner
      · simp
      · simp
      · simp
    · exact h.free
    · exact h.results
  | unlock =>
    simp only at hs
    split_ifs at hs with hpos
    obtain rfl := Option.some.inj hs
    exact h.goto hpc rfl rfl ⟨by simp, fun _ => hpos, trivial, by simp, by simp⟩

theorem inv_readCount {test : Bool} (hpc : s.pc t = .readCount test)
    (hs : step (t, call) s = some s') : Inv s' := by
  have htesting := (h.allows hpc).testing
  simp only [step, hpc] at hs
  obtain rfl := Option.some.inj hs
  split_ifs with hcount htest
  · exact h.goto hpc rfl rfl ⟨by simp, by simp, trivial, htesting, by simp⟩
  · exact h.goto hpc rfl rfl ⟨by simp, by simp, trivial, fun _ => htesting htest, by simp⟩
  · exact h.goto hpc rfl rfl (by constructor <;> simp)

theorem inv_readId {test : Bool} (hpc : s.pc t = .readId test) (hs : step (t, call) s = some s') :
    Inv s' := by
  have hat := h.thread t
  have htesting := (h.allows hpc).testing
  simp only [step, hpc] at hs
  split_ifs at hs with hid htest htest
  · obtain rfl := Option.some.inj hs
    exact h.ret hpc rfl rfl (Or.inr ⟨rfl, htesting htest⟩)
  · obtain rfl := Option.some.inj hs
    have hzero : s.depth t = 0 := by
      by_contra hpos
      exact hid (hat.owner (Nat.pos_of_ne_zero hpos)).2
    exact h.goto hpc rfl rfl ⟨fun _ => hzero, by simp, trivial, by simp, by simp⟩
  · obtain rfl := Option.some.inj hs
    exact h.goto hpc rfl rfl ⟨by simp, by simp, trivial, fun _ => htesting htest, by simp⟩
  · obtain rfl := Option.some.inj hs
    exact h.goto hpc rfl rfl (by constructor <;> simp)

theorem inv_takeWait (hpc : s.pc t = .takeWait) (hs : step (t, call) s = some s') : Inv s' := by
  have hzero := (h.allows hpc).notOwner rfl
  simp only [step, hpc] at hs
  split_ifs at hs with hfree
  obtain rfl := Option.some.inj hs
  exact h.takesWait hpc hfree rfl rfl ⟨fun _ => hzero, by simp, trivial, by simp, by simp⟩

theorem inv_tryLock (hpc : s.pc t = .tryLock) (hs : step (t, call) s = some s') : Inv s' := by
  have hzero := (h.allows hpc).notOwner rfl
  simp only [step, hpc] at hs
  split_ifs at hs with hfree
  · obtain rfl := Option.some.inj hs
    exact h.takesLock hpc hfree rfl rfl ⟨fun _ => hzero, by simp, trivial, by simp, by simp⟩
  · obtain rfl := Option.some.inj hs
    exact h.goto hpc rfl rfl ⟨fun _ => hzero, by simp, trivial, by simp, by simp⟩

theorem inv_giveWait (hpc : s.pc t = .giveWait) (hs : step (t, call) s = some s') : Inv s' := by
  have hzero := (h.allows hpc).notOwner rfl
  simp only [step, hpc] at hs
  obtain rfl := Option.some.inj hs
  exact h.givesWait hpc rfl hzero rfl rfl (by constructor <;> simp)

theorem inv_takeLock (hpc : s.pc t = .takeLock) (hs : step (t, call) s = some s') : Inv s' := by
  simp only [step, hpc] at hs
  split_ifs at hs with hfree
  obtain rfl := Option.some.inj hs
  exact h.takesLock hpc hfree rfl rfl (by constructor <;> simp)

theorem inv_testLock (hpc : s.pc t = .testLock) (hs : step (t, call) s = some s') : Inv s' := by
  have htesting := (h.allows hpc).testing rfl
  simp only [step, hpc] at hs
  split_ifs at hs with hfree
  · obtain rfl := Option.some.inj hs
    exact h.takesLock hpc hfree rfl rfl ⟨by simp, by simp, trivial, fun _ => htesting, by simp⟩
  · obtain rfl := Option.some.inj hs
    exact h.ret hpc rfl rfl (Or.inr ⟨rfl, htesting⟩)

theorem inv_check {m : Mode} (hpc : s.pc t = .check m) (hs : step (t, call) s = some s') :
    Inv s' := by
  have ha := h.allows hpc
  have hzero : s.count = 0 → s.depth t = 0 := by
    intro hc
    by_contra hpos
    have hcount := ((h.thread t).owner (Nat.pos_of_ne_zero hpos)).1
    omega
  simp only [step, hpc] at hs
  obtain rfl := Option.some.inj hs
  split_ifs with hcount hnest
  · exact h.goto hpc rfl rfl ⟨ha.notOwner, by simp, hcount, ha.testing, by simp⟩
  · rw [not_not] at hcount
    exact h.goto hpc rfl (by simp [hnest])
      ⟨fun _ => hzero hcount, by simp, hcount, ha.testing, by simp⟩
  · rw [not_not] at hcount
    exact h.goto hpc rfl (by simp [hnest])
      ⟨fun _ => hzero hcount, by simp, hcount, ha.testing, by simp⟩

theorem inv_backOff {m : Mode} (hpc : s.pc t = .backOff m) (hs : step (t, call) s = some s') :
    Inv s' := by
  have ha := h.allows hpc
  have hzero := ha.notOwner rfl
  simp only [step, hpc] at hs
  split at hs
  · obtain rfl := Option.some.inj hs
    exact h.givesLock hpc rfl rfl rfl ⟨fun _ => hzero, by simp, trivial, by simp, by simp⟩
  · obtain rfl := Option.some.inj hs
    exact h.givesLock hpc rfl rfl rfl (by constructor <;> simp)
  · obtain rfl := Option.some.inj hs
    have hlock : s.lock = some t := (h.lock_iff hpc).mpr rfl
    apply h.switch (Or.inr (Or.inr ⟨hlock, rfl⟩)) _ (Or.inl rfl) _ allows_idle
    · exact List.forall_mem_cons.mpr ⟨Or.inr ⟨rfl, ha.testing rfl⟩, h.results⟩
    · exact iff_of_false (Option.some_ne_none t).symm Bool.false_ne_true
    · exact (h.wait_iff hpc).trans Iff.rfl

theorem inv_backOffWait (hpc : s.pc t = .backOffWait) (hs : step (t, call) s = some s') :
    Inv s' := by
  have hzero := (h.allows hpc).notOwner rfl
  simp only [step, hpc] at hs
  obtain rfl := Option.some.inj hs
  exact h.givesWait hpc rfl hzero rfl rfl (by constructor <;> simp)

theorem inv_lateWait {m : Mode} (hpc : s.pc t = .lateWait m) (hs : step (t, call) s = some s') :
    Inv s' := by
  have ha := h.allows hpc
  simp only [step, hpc] at hs
  split_ifs at hs with hfree
  obtain rfl := Option.some.inj hs
  exact h.takesWait hpc hfree rfl rfl
    ⟨fun _ => ha.notOwner rfl, by simp, ha.knows, ha.testing, by simp⟩

theorem inv_release {m : Mode} (hpc : s.pc t = .release m) (hs : step (t, call) s = some s') :
    Inv s' := by
  have ha := h.allows hpc
  simp only [step, hpc] at hs
  obtain rfl := Option.some.inj hs
  split_ifs with htest
  · exact h.givesLock hpc rfl rfl rfl
      ⟨by simp, fun _ => ha.isOwner rfl, trivial, by simp, fun _ => ha.tested (by simp [htest])⟩
  · exact h.givesLock hpc rfl rfl rfl allows_idle

theorem inv_readResult (hpc : s.pc t = .readResult) (hs : step (t, call) s = some s') :
    Inv s' := by
  have ha := h.allows hpc
  have hpos := ha.isOwner rfl
  have hcount := ((h.thread t).owner hpos).1
  simp only [step, hpc] at hs
  obtain rfl := Option.some.inj hs
  exact h.ret hpc rfl rfl (Or.inl ⟨by omega, ha.tested rfl⟩)

theorem inv_unlockTakeLock (hpc : s.pc t = .unlockTakeLock) (hs : step (t, call) s = some s') :
    Inv s' := by
  have hpos := (h.allows hpc).isOwner rfl
  simp only [step, hpc] at hs
  split_ifs at hs with hfree
  obtain rfl := Option.some.inj hs
  exact h.takesLock hpc hfree rfl rfl ⟨by simp, fun _ => hpos, trivial, by simp, by simp⟩

theorem inv_giveLockLast (hpc : s.pc t = .giveLockLast) (hs : step (t, call) s = some s') :
    Inv s' := by
  have hzero := (h.allows hpc).notOwner rfl
  simp only [step, hpc] at hs
  obtain rfl := Option.some.inj hs
  exact h.givesLock hpc rfl rfl rfl ⟨fun _ => hzero, by simp, trivial, by simp, by simp⟩

theorem inv_giveWaitLast (hpc : s.pc t = .giveWaitLast) (hs : step (t, call) s = some s') :
    Inv s' := by
  have hzero := (h.allows hpc).notOwner rfl
  simp only [step, hpc] at hs
  obtain rfl := Option.some.inj hs
  exact h.givesWait hpc rfl hzero rfl rfl allows_idle

theorem inv_giveLock (hpc : s.pc t = .giveLock) (hs : step (t, call) s = some s') : Inv s' := by
  simp only [step, hpc] at hs
  obtain rfl := Option.some.inj hs
  exact h.givesLock hpc rfl rfl rfl allows_idle

theorem inv_step {l : ι × Call} (hs : step l s = some s') : Inv s' := by
  obtain ⟨t, call⟩ := l
  cases hpc : s.pc t with
  | idle => exact inv_idle h hpc hs
  | readCount test => exact inv_readCount h hpc hs
  | readId test => exact inv_readId h hpc hs
  | takeWait => exact inv_takeWait h hpc hs
  | tryLock => exact inv_tryLock h hpc hs
  | giveWait => exact inv_giveWait h hpc hs
  | takeLock => exact inv_takeLock h hpc hs
  | testLock => exact inv_testLock h hpc hs
  | check m => exact inv_check h hpc hs
  | checkId m =>
    simp only [step, hpc] at hs
    split_ifs at hs with hid
    · obtain rfl := Option.some.inj hs
      exact inv_checkId h hpc hid
    · obtain rfl := Option.some.inj hs
      exact inv_notMine h hpc hid
  | backOff m => exact inv_backOff h hpc hs
  | backOffWait => exact inv_backOffWait h hpc hs
  | lateWait m => exact inv_lateWait h hpc hs
  | setId m =>
    simp only [step, hpc] at hs
    obtain rfl := Option.some.inj hs
    exact inv_setId h hpc
  | setCount m =>
    simp only [step, hpc] at hs
    obtain rfl := Option.some.inj hs
    exact inv_setCount h hpc
  | release m => exact inv_release h hpc hs
  | readResult => exact inv_readResult h hpc hs
  | unlockTakeLock => exact inv_unlockTakeLock h hpc hs
  | decrement =>
    simp only [step, hpc] at hs
    obtain rfl := Option.some.inj hs
    exact inv_decrement h hpc
  | giveLockLast => exact inv_giveLockLast h hpc hs
  | giveWaitLast => exact inv_giveWaitLast h hpc hs
  | giveLock => exact inv_giveLock h hpc hs

end Steps

/-! ## The lock as its users see it -/

/-- A thread owns the lock from its first acquisition until its last unlock has returned. -/
def State.Owns (s : State ι) (t : ι) : Prop :=
  0 < s.depth t ∨ s.pc t = .giveLockLast ∨ s.pc t = .giveWaitLast

/-- The thread is in `ompc_nest_lock` or `ompc_test_nest_lock` and does not have the lock. -/
def State.Acquiring (s : State ι) (t : ι) : Prop :=
  match s.pc t with
  | .readCount _ | .readId _ | .takeWait | .tryLock | .giveWait | .takeLock | .testLock | .check _
  | .checkId _ | .backOff _ | .backOffWait | .lateWait _ | .setId _ | .setCount _ => True
  | _ => False

/-- The acquisition has taken `lp->wait` and neither got the lock nor given `lp->wait` back. -/
def State.AcquiringWithWait (s : State ι) (t : ι) : Prop :=
  match s.pc t with
  | .tryLock | .giveWait | .backOffWait | .setId _ | .setCount _ => True
  | .check m | .checkId m | .backOff m => m = .nest true
  | _ => False

omit [DecidableEq ι] in
theorem Inv.wait_owns_iff (h : Inv s) (t : ι) :
    s.wait = some t ↔ s.Owns t ∨ s.AcquiringWithWait t := by
  rw [(h.thread t).wait_iff]
  cases hpc : s.pc t <;> simp [State.Owns, State.AcquiringWithWait, hpc, or_comm]

omit [DecidableEq ι] in
theorem acquiring_of_withWait (h : s.AcquiringWithWait t) : s.Acquiring t := by
  unfold State.AcquiringWithWait at h
  unfold State.Acquiring
  split at h <;> simp_all

omit [DecidableEq ι] in
theorem Inv.count_eq (h : Inv s) (ht : s.Owns t) : s.count = s.depth t := by
  by_cases hpos : 0 < s.depth t
  · exact ((h.thread t).owner hpos).1
  · have hzero : s.depth t = 0 := Nat.eq_zero_of_not_pos hpos
    rw [hzero]
    apply h.free
    intro u
    by_contra hu
    have h1 := (h.wait_owns_iff t).mpr (Or.inl ht)
    have h2 := (h.thread u).wait_iff.mpr (Or.inr (Nat.pos_of_ne_zero hu))
    rw [h1, Option.some.injEq] at h2
    exact hu (h2 ▸ hzero)

/-- In every interleaving: at most one thread owns the lock; while `lp->lock` is free the count
is what the owner holds, and zero without an owner; `lp->wait` is held exactly by the owner or
by an acquisition in progress, so it is free when nobody owns or acquires; and
`ompc_test_nest_lock` returned non-zero exactly when it acquired. -/
theorem nestLock_sound (h : Reachable Start step s) :
    (∀ t u, s.Owns t → s.Owns u → t = u) ∧
    (s.lock = none → (∀ t, s.Owns t → s.count = s.depth t) ∧ ((∀ t, ¬ s.Owns t) → s.count = 0)) ∧
    (∀ t, s.wait = some t ↔ s.Owns t ∨ s.AcquiringWithWait t) ∧
    ((∀ t, ¬ s.Owns t ∧ ¬ s.Acquiring t) → s.wait = none) ∧
    ∀ p ∈ s.results, (p.value ≠ 0 ↔ p.after = p.before + 1) ∧
      (p.value = 0 ↔ p.after = p.before) := by
  have hinv : Inv s := by
    apply Reachable.invariant h
    · exact fun s hs => inv_start hs
    · exact fun l s s' hi hs => inv_step hi hs
  refine ⟨?_, ?_, hinv.wait_owns_iff, ?_, ?_⟩
  · intro t u ht hu
    have h1 := (hinv.wait_owns_iff t).mpr (Or.inl ht)
    have h2 := (hinv.wait_owns_iff u).mpr (Or.inl hu)
    rw [h1, Option.some.injEq] at h2
    exact h2
  · intro _
    refine ⟨fun t ht => hinv.count_eq ht, ?_⟩
    intro hno
    apply hinv.free
    intro t
    by_contra hpos
    exact hno t (Or.inl (Nat.pos_of_ne_zero hpos))
  · intro hno
    cases hw : s.wait with
    | none => rfl
    | some t =>
      rcases (hinv.wait_owns_iff t).mp hw with ht | ht
      · exact absurd ht (hno t).1
      · exact absurd (acquiring_of_withWait ht) (hno t).2
  · intro p hp
    rcases hinv.results p hp with ⟨h1, h2⟩ | ⟨h1, h2⟩
    · constructor
      · simp [h1, h2]
      · simp [h1, h2]
    · constructor
      · simp [h1, h2]
      · simp [h1, h2]

def twoThreads : State (Fin 2) :=
  ⟨none, none, 0, 1, fun _ => .idle, fun _ => 0, fun _ => 0, []⟩

/-- Thread `0` takes the lock, thread `1` tests it. -/
def lockThenTest : List (Fin 2 × Call) :=
  List.replicate 8 (0, .lock) ++ List.replicate 3 (1, .test)

theorem nestLock_sound_two : ∃ s, run step lockThenTest twoThreads = some s ∧ s.Owns 0 ∧
    s.results = [⟨0, 0, 0⟩] ∧ (∀ t u, s.Owns t → s.Owns u → t = u) ∧ s.count = 1 := by
  refine ⟨_, rfl, Or.inl (by decide), rfl, ?_⟩
  have hsound := nestLock_sound (@reachable_of_run _ _ Start step _ lockThenTest twoThreads
    ⟨rfl, rfl, rfl, fun _ => rfl, fun _ => rfl, rfl⟩ rfl)
  exact ⟨hsound.1, (hsound.2.1 rfl).1 0 (Or.inl (by decide))⟩

end OmniCompiler.Omp.NestLock
