import OmniCompiler.Xmp.GasnetLock

/-!
# The handler-safe lock of a lock variable (`xmp_lock_unlock_gasnet.c`)

At the home rank `_xmp_gasnet_do_lock` and `_xmp_gasnet_do_unlock` read and write the lock variable
between acquiring and releasing its handler-safe lock. When nobody waits, `_xmp_gasnet_do_unlock`
releases it in the branch and once more at its end. The application thread and the handlers are the
threads here; a thread acquires the handler-safe lock in one step, and works and releases it in
another.
-/
namespace OmniCompiler.Xmp.GasnetHsl

open Interleaving GasnetLock SmallFin

variable {T : Type*} [DecidableEq T] {n : ℕ}

/-- `_xmp_gasnet_do_lock` for a rank, or `_xmp_gasnet_do_unlock`. -/
inductive Call (n : ℕ)
  | doLock (target : Fin n)
  | doUnlock
  deriving DecidableEq

/-- `releasing` is the end of `_xmp_gasnet_do_unlock` after the branch has released. -/
inductive Place (n : ℕ)
  | outside
  | inside (call : Call n)
  | releasing
  deriving DecidableEq

/-- `hsl` is the thread that holds the handler-safe lock. `releases` are the threads that have
released it, each with the holder at that time; nothing looks at them. -/
structure State (T : Type*) (n : ℕ) where
  lock : Lock n
  hsl : Option T
  place : T → Place n
  releases : List (T × Option T)

inductive Move (T : Type*) (n : ℕ)
  | acquire (t : T) (call : Call n)
  | release (t : T)

section Code

-- what a release does to the handler-safe lock when another thread holds it, or nobody
variable (stray : Option T → T → Option T)

/-- `gasnet_hsl_unlock`, after which the thread is at `place`. -/
def State.release (s : State T n) (t : T) (place : Place n) : State T n :=
  { s with
    hsl := if s.hsl = some t then none else stray s.hsl t
    place := Function.update s.place t place
    releases := s.releases ++ [(t, s.hsl)] }

def step : Move T n → State T n → Option (State T n)
  | .acquire t call, s =>
    if s.place t = .outside ∧ s.hsl = none then
      some { s with hsl := some t, place := Function.update s.place t (.inside call) }
    else none
  | .release t, s =>
    match s.place t with
    | .outside => none
    | .inside (.doLock target) =>
      some (State.release stray { s with lock := (s.lock.doLock target).1 } t .outside)
    | .inside .doUnlock =>
      let reply := s.lock.doUnlock
      some (State.release stray { s with lock := reply.1 } t
        (if reply.2.1 = .done then .releasing else .outside))
    | .releasing => some (s.release stray t .outside)

end Code

/-- Threads that have not called yet. The lock variable is in any state. -/
structure Start (s : State T n) : Prop where
  hsl : s.hsl = none
  place : ∀ t, s.place t = .outside
  releases : s.releases = []

def State.Inside (s : State T n) (t : T) : Prop := ∃ call, s.place t = .inside call

/-- Only holders have released the handler-safe lock, and at most one thread is inside. -/
structure Exclusive (s : State T n) : Prop where
  released : ∀ e ∈ s.releases, e.2 = some e.1
  inside : ∀ t t', s.Inside t → s.Inside t' → t = t'

/-- Where `_xmp_gasnet_do_unlock` works on the lock variable, somebody waits. -/
def Waited : Move T n → State T n → Prop
  | .acquire _ _, _ => True
  | .release t, s => s.place t = .inside .doUnlock → s.lock.wait.head ≠ s.lock.wait.tail

instance (m : Move T n) (s : State T n) : Decidable (Waited m s) :=
  match m with
  | .acquire _ _ => inferInstanceAs (Decidable True)
  | .release t => inferInstanceAs
    (Decidable (s.place t = .inside .doUnlock → s.lock.wait.head ≠ s.lock.wait.tail))

/-! ## Runs in which somebody waits -/

section Runs

variable {stray : Option T → T → Option T} {s s' : State T n}

/-- The thread inside is the holder, and nobody comes to release a second time. -/
structure Held (s : State T n) : Prop where
  released : ∀ e ∈ s.releases, e.2 = some e.1
  holder : ∀ t, s.Inside t ↔ s.hsl = some t
  once : ∀ t, s.place t ≠ .releasing

omit [DecidableEq T] in
theorem Start.held (h : Start s) : Held s where
  released := by simp [h.releases]
  holder t := by simp [State.Inside, h.place, h.hsl]
  once t := by simp [h.place]

omit [DecidableEq T] in
theorem Held.exclusive (h : Held s) : Exclusive s where
  released := h.released
  inside t t' ht ht' := by
    rw [h.holder] at ht ht'
    exact Option.some.inj (ht.symm.trans ht')

theorem Held.acquire (h : Held s) {t : T} {call : Call n} (hfree : s.hsl = none) :
    Held { s with hsl := some t, place := Function.update s.place t (.inside call) } where
  released := h.released
  holder t' := by
    by_cases ht : t' = t
    · simp [State.Inside, ht]
    · have hold := h.holder t'
      rw [hfree] at hold
      simp only [State.Inside, Function.update_of_ne ht, Option.some.injEq] at hold ⊢
      simp [hold, Ne.symm ht]
  once t' := by
    by_cases ht : t' = t
    · simp [ht]
    · simpa [Function.update_of_ne ht] using h.once t'

theorem Held.release (h : Held s) {t : T} (ht : s.Inside t) (lock : Lock n) :
    Held (State.release stray { s with lock := lock } t .outside) where
  released := by
    intro e he
    rcases List.mem_append.mp he with he | he
    · exact h.released e he
    · obtain rfl := List.mem_singleton.mp he
      exact (h.holder t).mp ht
  holder t' := by
    have hhsl := (h.holder t).mp ht
    by_cases heq : t' = t
    · simp [State.Inside, State.release, heq, hhsl]
    · have hold := h.holder t'
      simp only [State.Inside, State.release, Function.update_of_ne heq, hhsl, if_true] at hold ⊢
      simp [hold, Ne.symm heq]
  once t' := by
    by_cases heq : t' = t
    · simp [State.release, heq]
    · simpa [State.release, Function.update_of_ne heq] using h.once t'

theorem Held.step (h : Held s) {m : Move T n} (hok : Waited m s) (hs : step stray m s = some s') :
    Held s' := by
  cases m with
  | acquire t call =>
    simp only [GasnetHsl.step] at hs
    split_ifs at hs with hfree
    cases hs
    exact h.acquire hfree.2
  | release t =>
    simp only [GasnetHsl.step] at hs
    split at hs
    · cases hs
    · next target hplace =>
      cases hs
      exact h.release ⟨_, hplace⟩ _
    · next hplace =>
      have hwait := hok hplace
      have hreply : s.lock.doUnlock.2.1 ≠ .done := by
        simp [Lock.doUnlock, hwait]
      rw [if_neg hreply] at hs
      cases hs
      exact h.release ⟨_, hplace⟩ _
    · next hplace => exact absurd hplace (h.once t)

end Runs

/-- The handler-safe lock excludes threads from each other in all runs in which every
`_xmp_gasnet_do_unlock` finds somebody waiting. -/
theorem exclusive_of_waited {stray : Option T → T → Option T} {s : State T n}
    (h : ReachableIf Start Waited (step stray) s) : Exclusive s :=
  (h.invariant (fun _ hstart => hstart.held) fun _ _ _ hi hok hs => hi.step hok hs).exclusive

/-! ## The second release -/

section Second

variable {stray : Option T → T → Option T} {s s' : State T n}

def HolderInside (s : State T n) : Prop := ∀ t, s.hsl = some t → s.Inside t

theorem holderInside (hstray : ∀ h t, stray h t = h ∨ stray h t = none)
    (h : Reachable Start (step stray) s) : HolderInside s := by
  refine h.invariant (fun s hs => by simp [HolderInside, hs.hsl]) fun m s s' hi hs => ?_
  -- a release leaves the holder outside, or another thread inside
  have hrelease : ∀ (lock : Lock n) (t : T) (place : Place n) (t' : T),
      (State.release stray { s with lock := lock } t place).hsl = some t' →
      (State.release stray { s with lock := lock } t place).Inside t' := by
    intro lock t place t' hhsl
    simp only [State.release] at hhsl
    split_ifs at hhsl with hholds
    rcases hstray s.hsl t with heq | heq
    · rw [heq] at hhsl
      obtain ⟨call, hcall⟩ := hi t' hhsl
      have hne : t' ≠ t := by
        intro htt
        rw [hhsl, htt] at hholds
        exact hholds rfl
      exact ⟨call, by simpa [State.release, Function.update_of_ne hne] using hcall⟩
    · rw [heq] at hhsl
      cases hhsl
  cases m with
  | acquire t call =>
    simp only [step] at hs
    split_ifs at hs with hfree
    cases hs
    intro t' hhsl
    obtain rfl : t = t' := Option.some.inj hhsl
    exact ⟨call, by simp⟩
  | release t =>
    simp only [step] at hs
    split at hs
    · cases hs
    · cases hs
      exact hrelease _ _ _
    · cases hs
      exact hrelease _ _ _
    · cases hs
      exact hrelease s.lock _ _

theorem second_release (hstray : ∀ h t, stray h t = h ∨ stray h t = none)
    (h : Reachable Start (step stray) s) {t : T} (ht : s.place t = .releasing)
    (hs : step stray (.release t) s = some s') : ¬Exclusive s' := by
  have hnot : s.hsl ≠ some t := by
    intro hhsl
    obtain ⟨call, hcall⟩ := holderInside hstray h t hhsl
    rw [ht] at hcall
    cases hcall
  simp only [step, ht] at hs
  cases hs
  intro hex
  exact hnot (hex.released (t, s.hsl) (by simp [State.release]))

end Second

/-! ## Runs of three threads -/

/-- A lock variable that nobody has locked, at the home rank of four ranks. -/
def lockStart : State (Fin 3) 4 where
  lock := ⟨false, ⟨fun _ => 0, 4, 0, 0⟩⟩
  hsl := none
  place := fun _ => .outside
  releases := []

theorem lockStart_start : Start lockStart := ⟨rfl, fun _ => rfl, rfl⟩

/-- A release frees the handler-safe lock, whoever holds it. -/
def frees (_ : Option (Fin 3)) (_ : Fin 3) : Option (Fin 3) := none

/-- Rank 0 locks, rank 1 waits, and rank 0 unlocks. -/
def waitedMoves : List (Move (Fin 3) 4) :=
  [.acquire 0 (.doLock 0), .release 0, .acquire 1 (.doLock 1), .release 1, .acquire 0 .doUnlock,
    .release 0]

theorem exclusive_of_waited_two : ∃ s,
    run (fun m s => if Waited m s then step frees m s else none) waitedMoves lockStart = some s ∧
      Exclusive s := by
  have hsome : (run (fun m s => if Waited m s then step frees m s else none) waitedMoves
      lockStart).isSome := by decide
  obtain ⟨s, hs⟩ := Option.isSome_iff_exists.mp hsome
  exact ⟨s, hs, exclusive_of_waited (reachableIf_of_run waitedMoves lockStart_start hs)⟩

/-- Rank 0 locks and unlocks. Between its two releases a second thread acquires; the second release
lets a third one in. -/
def unlockMoves : List (Move (Fin 3) 4) :=
  [.acquire 0 (.doLock 0), .release 0, .acquire 0 .doUnlock, .release 0, .acquire 1 (.doLock 1),
    .release 0, .acquire 2 (.doLock 2)]

/-- Two threads are inside. -/
theorem exclusive_broken : ∃ s : State (Fin 3) 4, Reachable Start (step frees) s ∧
    s.Inside 1 ∧ s.Inside 2 ∧ ¬Exclusive s := by
  have hsome : ((run (step frees) unlockMoves lockStart).map fun s => (s.place 1, s.place 2)) =
      some (.inside (.doLock 1), .inside (.doLock 2)) := by decide
  cases hs : run (step frees) unlockMoves lockStart with
  | none =>
    rw [hs] at hsome
    cases hsome
  | some s =>
    rw [hs] at hsome
    obtain ⟨h1, h2⟩ := Prod.mk.inj (Option.some.inj hsome)
    refine ⟨s, reachable_of_run unlockMoves lockStart_start hs, ⟨_, h1⟩, ⟨_, h2⟩, fun hex => ?_⟩
    have heq := hex.inside 1 2 ⟨_, h1⟩ ⟨_, h2⟩
    cases heq

end OmniCompiler.Xmp.GasnetHsl
