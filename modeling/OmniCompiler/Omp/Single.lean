import OmniCompiler.Concurrency.Interleaving

/-!
# The `single` construct (`ompc_runtime.c`)

A team of `n` threads passes one `single` after the other. A thread waits until
its entry flag is clear and then runs a section under the thread lock, in which
the last arriver clears all flags. The threads are apart by at most one
instance: a set flag belongs to a thread that has already passed the current
one.
-/
namespace OmniCompiler.Omp.Single

open Interleaving

/-- What the team shares in the parent thread, and where each thread is. `atLock` tells that
the wait of `ompc_do_single_tid` is over; `returned` lists the values returned so far. -/
structure State (n : ℕ) where
  inFlags : Fin n → Bool
  outCount : ℕ
  atLock : Fin n → Bool
  returned : Fin n → List Bool

variable {n : ℕ}

/-- The team as `ompc_do_parallel_main` sets it up. -/
def start : State n where
  inFlags _ := false
  outCount := 0
  atLock _ := false
  returned _ := []

/-- The section between `OMPC_THREAD_LOCK` and `OMPC_THREAD_UNLOCK`. -/
def locked (id : Fin n) (s : State n) : State n :=
  let ret := decide (s.outCount = 0)
  let outCount := s.outCount + 1
  let s := { s with
    atLock := Function.update s.atLock id false
    returned := Function.update s.returned id (s.returned id ++ [ret]) }
  if outCount = n then { s with inFlags := fun _ => false, outCount := 0 }
  else { s with inFlags := Function.update s.inFlags id true, outCount := outCount }

/-- `ompc_do_single_tid`, called again and again. -/
def doSingleTid (id : Fin n) (s : State n) : Option (State n) :=
  if s.atLock id then some (locked id s)
  else if s.inFlags id then none
  else some { s with atLock := Function.update s.atLock id true }

/-- Number of instances the thread has passed. -/
def State.passed (s : State n) (id : Fin n) : ℕ := (s.returned id).length

/-- The thread was the one to execute instance `k`. -/
def State.Executes (s : State n) (id : Fin n) (k : ℕ) : Prop := (s.returned id)[k]? = some true

/-- All threads have passed `round` instances; those with a set flag have passed one more. -/
structure InRound (s : State n) (round : ℕ) : Prop where
  passed : ∀ id, s.passed id = if s.inFlags id then round + 1 else round
  count : s.outCount = countSet s.inFlags
  count_lt : s.outCount < n
  atLock : ∀ id, s.atLock id = true → s.inFlags id = false
  one : ∀ k, (∃ id, k < s.passed id) → ∃! id, s.Executes id k

theorem inRound_start (hn : 2 ≤ n) : InRound (start : State n) 0 where
  passed id := rfl
  count := countSet_none.symm
  count_lt := by
    change 0 < n
    omega
  atLock id h := absurd h (by simp [start])
  one k h := by
    obtain ⟨id, h⟩ := h
    exact absurd h (Nat.not_lt_zero k)

section Locked

variable {s : State n} {round : ℕ} (h : InRound s round) {id : Fin n}
  (hid : s.inFlags id = false)
include h hid

theorem passed_eq_round : s.passed id = round := by
  rw [h.passed, hid]
  rfl

omit hid in
theorem passed_le (j : Fin n) : s.passed j ≤ round + 1 := by
  rw [h.passed]
  split_ifs <;> omega

/-- Appending the result of the current instance leaves one executor for each instance: the
thread that found the counter at zero. -/
theorem one_append (returned : Fin n → List Bool)
    (hr : returned = Function.update s.returned id (s.returned id ++ [decide (s.outCount = 0)])) :
    ∀ k, (∃ j, k < (returned j).length) → ∃! j, (returned j)[k]? = some true := by
  subst hr
  have hround := passed_eq_round h hid
  intro k hk
  by_cases hcur : k = round
  · subst hcur
    have hlast : (s.returned id ++ [decide (s.outCount = 0)])[s.passed id]? =
        some (decide (s.outCount = 0)) := by simp [State.passed]
    rw [hround] at hlast
    by_cases h0 : s.outCount = 0
    · -- the first visitor; nobody else has passed the instance yet
      refine ⟨id, ?_, ?_⟩
      · simp only [Function.update_self]
        rw [hlast, decide_eq_true h0]
      · intro j hj
        by_contra hne
        have hfalse : s.inFlags j = false := by
          by_contra hf
          have := countSet_pos_iff.mpr ⟨j, eq_true_of_ne_false hf⟩
          rw [← h.count] at this
          omega
        have hlen := h.passed j
        rw [hfalse] at hlen
        simp only [Function.update_of_ne hne, List.getElem?_eq_some_iff] at hj
        obtain ⟨hlt, -⟩ := hj
        simp only [State.passed, Bool.false_eq_true, if_false] at hlen
        omega
    · obtain ⟨j, hj⟩ := countSet_pos_iff.mp (h.count ▸ Nat.pos_of_ne_zero h0)
      have hpj : k < s.passed j := by
        rw [h.passed, hj]
        exact Nat.lt_succ_self k
      obtain ⟨w, hw, huniq⟩ := h.one k ⟨j, hpj⟩
      have hwid : w ≠ id := by
        rintro rfl
        have := (List.getElem?_eq_some_iff.mp hw).1
        rw [State.passed] at hround
        omega
      refine ⟨w, ?_, ?_⟩
      · simp only [Function.update_of_ne hwid]
        exact hw
      · intro v hv
        by_cases hvid : v = id
        · subst hvid
          simp only [Function.update_self] at hv
          rw [hlast, decide_eq_false h0] at hv
          cases hv
        · apply huniq
          simp only [Function.update_of_ne hvid] at hv
          exact hv
  · -- an earlier instance is not touched
    have hlt : k < round := by
      obtain ⟨j, hj⟩ := hk
      by_cases hjid : j = id
      · subst hjid
        rw [State.passed] at hround
        simp at hj
        omega
      · rw [Function.update_of_ne hjid] at hj
        have := passed_le h j
        rw [State.passed] at this
        omega
    have hold : ∀ j, (Function.update s.returned id
        (s.returned id ++ [decide (s.outCount = 0)]) j)[k]? = (s.returned j)[k]? := by
      intro j
      by_cases hjid : j = id
      · subst hjid
        rw [Function.update_self, List.getElem?_append_left]
        rw [State.passed] at hround
        omega
      · rw [Function.update_of_ne hjid]
    simp only [hold]
    exact h.one k ⟨id, by rw [hround]; exact hlt⟩

theorem inRound_locked : ∃ round', InRound (locked id s) round' := by
  have hround := passed_eq_round h hid
  have hone := one_append h hid _ rfl
  have hcard : Fintype.card (Fin n) = n := Fintype.card_fin n
  have hlen : ∀ j, (Function.update s.returned id
      (s.returned id ++ [decide (s.outCount = 0)]) j).length =
        if j = id then round + 1 else s.passed j := by
    intro j
    by_cases hj : j = id
    · subst hj
      rw [State.passed] at hround
      simp [hround]
    · simp [hj, State.passed]
  have hlock : ∀ j, Function.update s.atLock id false j = true → s.inFlags j = false := by
    intro j hj
    by_cases hji : j = id
    · rw [hji]
      exact hid
    · rw [Function.update_of_ne hji] at hj
      exact h.atLock j hj
  by_cases hlast : s.outCount + 1 = n
  · -- the last arriver: everyone else has set its flag
    refine ⟨round + 1, ?_⟩
    simp only [locked, hlast, if_true]
    constructor
    · intro j
      simp only [State.passed, hlen, Bool.false_eq_true, if_false]
      by_cases hj : j = id
      · rw [if_pos hj]
      · have hset := set_of_countSet hid (by rw [← h.count, hcard, hlast]) hj
        have hpj := h.passed j
        rw [hset, if_pos rfl] at hpj
        rw [if_neg hj]
        exact hpj
    · exact countSet_none.symm
    · simp only
      omega
    · intro j _
      rfl
    · exact hone
  · refine ⟨round, ?_⟩
    simp only [locked, hlast, if_false]
    constructor
    · intro j
      simp only [State.passed, hlen]
      by_cases hj : j = id
      · simp [hj]
      · simp only [if_neg hj, Function.update_of_ne hj]
        exact h.passed j
    · simp only [countSet_update hid, h.count]
    · have := h.count_lt
      simp only
      omega
    · intro j hj
      by_cases hji : j = id
      · subst hji
        simp at hj
      · simp only [Function.update_of_ne hji]
        exact hlock j hj
    · exact hone

end Locked

theorem inRound_step {id : Fin n} {s s' : State n} (h : ∃ round, InRound s round)
    (hs : doSingleTid id s = some s') : ∃ round, InRound s' round := by
  obtain ⟨round, h⟩ := h
  rw [doSingleTid] at hs
  split_ifs at hs with hl hf
  · rw [Option.some.injEq] at hs
    rw [← hs]
    exact inRound_locked h (h.atLock id hl)
  · rw [Option.some.injEq] at hs
    rw [← hs]
    refine ⟨round, h.passed, h.count, h.count_lt, ?_, h.one⟩
    intro j hj
    by_cases hji : j = id
    · rw [hji]
      exact eq_false_of_ne_true hf
    · simp only [Function.update_of_ne hji] at hj
      exact h.atLock j hj

/-- In every interleaving of a team of at least two threads, each instance that some thread has
passed was executed by exactly one of them, and a thread that has passed an instance left no
other thread before the preceding one. -/
theorem single_once (hn : 2 ≤ n) {s : State n} (h : Reachable (· = start) doSingleTid s) :
    (∀ k, (∃ id, k < s.passed id) → ∃! id, s.Executes id k) ∧
      ∀ k id, k + 1 < s.passed id → ∀ j, k < s.passed j := by
  have hinv : ∃ round, InRound s round := by
    apply Reachable.invariant h
    · rintro s rfl
      exact ⟨0, inRound_start hn⟩
    · intro id s s' hi hs
      exact inRound_step hi hs
  obtain ⟨round, hr⟩ := hinv
  refine ⟨hr.one, ?_⟩
  intro k id hid j
  have h1 := hr.passed id
  have h2 := hr.passed j
  split_ifs at h1 h2 <;> omega

theorem single_once_two : ∃ s : State 2,
    run doSingleTid [0, 0, 1, 1, 1, 1] start = some s ∧ s.passed 1 = 2 ∧
      (∀ k, (∃ id, k < s.passed id) → ∃! id, s.Executes id k) ∧
      ∀ k id, k + 1 < s.passed id → ∀ j, k < s.passed j :=
  ⟨_, rfl, rfl, single_once (by decide)
    (@reachable_of_run _ _ _ _ _ [0, 0, 1, 1, 1, 1] start rfl rfl)⟩

end OmniCompiler.Omp.Single
