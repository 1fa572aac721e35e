import OmniCompiler.Concurrency.Interleaving
import OmniCompiler.Omp.DynamicSched

/-!
# Dynamic and guided loops of a team (`ompc_runtime.c`)

A team runs one dynamic or guided loop after the other, with no barrier between
them. The loops share the index, the counters and the entry flags of the parent
thread. A thread is counted out with the fetch that reaches the loop end, and
the last one counted out clears the counters and the flags for the next loop,
while the thread with the last chunk still has to call
`ompc_dynamic_sched_next_tid` once more.
-/
namespace OmniCompiler.Omp.Dynamic

open Interleaving

/-- Where a thread is in `ompc_dynamic_sched_init_tid` (the wait for its flag, the locked
section, the store to its flag) and in `ompc_dynamic_sched_next_tid` (the fetch, and with
`exit_flag` set the second locked section). -/
inductive Pc
  | wait
  | lock
  | flag
  | fetch
  | out (b e : ℤ)
  deriving DecidableEq

/-- A thread of the team in its `loop`-th loop. -/
structure Thread where
  loop : ℕ
  pc : Pc
  schedIndex : ℤ
  isLast : Bool

/-- What the team shares in the parent thread, its threads, and the chunks that calls of
`ompc_dynamic_sched_next_tid` returned with `TRUE` in each loop. -/
structure Team (n : ℕ) where
  inFlags : Fin n → Bool
  inCount : ℕ
  outCount : ℕ
  dynamicIndex : ℤ
  thread : Fin n → Thread
  chunks : ℕ → List (ℤ × ℤ)

variable {n : ℕ}

namespace Team

def set (s : Team n) (id : Fin n) (tp : Thread) : Team n :=
  { s with thread := Function.update s.thread id tp }

/-- The call returns `FALSE`; the thread goes on to the next loop. -/
def leave (s : Team n) (id : Fin n) : Team n :=
  s.set id { s.thread id with loop := (s.thread id).loop + 1, pc := .wait }

/-- The locked section of `ompc_dynamic_sched_init_tid`. -/
def enter (L : DynLoop) (s : Team n) (id : Fin n) : Team n :=
  { s.set id { s.thread id with pc := .flag } with
    dynamicIndex := if s.inCount = 0 then L.lb else s.dynamicIndex
    inCount := s.inCount + 1 }

/-- What follows the two locked sections of `ompc_dynamic_sched_next_tid`. -/
def finish (L : DynLoop) (s : Team n) (id : Fin n) (b e : ℤ) : Team n :=
  let tp := { s.thread id with schedIndex := e }
  let s := s.set id tp
  if L.IsPast b then s.leave id
  else
    { s.set id { tp with pc := .fetch, isLast := tp.isLast || decide (L.IsPast e) } with
      chunks := Function.update s.chunks tp.loop (s.chunks tp.loop ++ [L.bounds b e]) }

def fetch (L : DynLoop) (s : Team n) (id : Fin n) : Team n :=
  let b := s.dynamicIndex
  let e := b + L.fetchLen n b
  let s := { s with dynamicIndex := e }
  if L.IsPast (s.thread id).schedIndex then s.leave id
  else if L.IsPast e then s.set id { s.thread id with pc := .out b e }
  else s.finish L id b e

def countOut (s : Team n) : Team n :=
  let outCount := s.outCount + 1
  if outCount = n then { s with outCount := 0, inCount := 0, inFlags := fun _ => false }
  else { s with outCount := outCount }

variable {L : DynLoop} {s : Team n} {id : Fin n} {b e : ℤ}

theorem finish_leave (hb : L.IsPast b) : s.finish L id b e =
    s.set id { s.thread id with
      loop := (s.thread id).loop + 1
      pc := .wait
      schedIndex := e } := by
  simp [finish, hb, leave, set]

theorem finish_take (hb : ¬ L.IsPast b) : s.finish L id b e =
    { s.set id { s.thread id with
        schedIndex := e
        pc := .fetch
        isLast := (s.thread id).isLast || decide (L.IsPast e) } with
      chunks := Function.update s.chunks (s.thread id).loop
        (s.chunks (s.thread id).loop ++ [L.bounds b e]) } := by
  simp [finish, hb, set]

end Team

/-- One step of thread `id` in a run of `m` loops. A chunk size that is not positive is fatal. -/
def step (loops : ℕ → DynLoop) (m : ℕ) (id : Fin n) (s : Team n) : Option (Team n) :=
  let tp := s.thread id
  let L := loops tp.loop
  if m ≤ tp.loop then none
  else match tp.pc with
    | .wait =>
      if L.chunkSize ≤ 0 ∨ s.inFlags id then none
      else some (s.set id { tp with pc := .lock, schedIndex := L.lb, isLast := false })
    | .lock => some (s.enter L id)
    | .flag =>
      some { s.set id { tp with pc := .fetch } with inFlags := Function.update s.inFlags id true }
    | .fetch => some (s.fetch L id)
    | .out b e => some (s.countOut.finish L id b e)

/-- The team as `ompc_do_parallel_main` sets it up. -/
structure Start (s : Team n) : Prop where
  inFlags : ∀ id, s.inFlags id = false
  inCount : s.inCount = 0
  outCount : s.outCount = 0
  loop : ∀ id, (s.thread id).loop = 0
  pc : ∀ id, (s.thread id).pc = .wait
  chunks : ∀ k, s.chunks k = []

theorem step_cases {loops : ℕ → DynLoop} {m : ℕ} {id : Fin n} {s s' : Team n}
    (hs : step loops m id s = some s') :
    (s.thread id).loop < m ∧
      ((s.thread id).pc = .wait ∧ s.inFlags id = false ∧ s' = s.set id { s.thread id with
          pc := .lock, schedIndex := (loops (s.thread id).loop).lb, isLast := false } ∨
        (s.thread id).pc = .lock ∧ s' = s.enter (loops (s.thread id).loop) id ∨
        (s.thread id).pc = .flag ∧ s' = { s.set id { s.thread id with pc := .fetch } with
          inFlags := Function.update s.inFlags id true } ∨
        (s.thread id).pc = .fetch ∧ s' = s.fetch (loops (s.thread id).loop) id ∨
        ∃ b e, (s.thread id).pc = .out b e ∧
          s' = s.countOut.finish (loops (s.thread id).loop) id b e) := by
  unfold step at hs
  dsimp only at hs
  by_cases hm : m ≤ (s.thread id).loop
  · rw [if_pos hm] at hs
    cases hs
  rw [if_neg hm] at hs
  refine ⟨by omega, ?_⟩
  split at hs
  · next hpc =>
    split_ifs at hs with hw
    rw [not_or, Bool.not_eq_true] at hw
    exact Or.inl ⟨hpc, hw.2, (Option.some.inj hs).symm⟩
  · next hpc => exact Or.inr (Or.inl ⟨hpc, (Option.some.inj hs).symm⟩)
  · next hpc => exact Or.inr (Or.inr (Or.inl ⟨hpc, (Option.some.inj hs).symm⟩))
  · next hpc => exact Or.inr (Or.inr (Or.inr (Or.inl ⟨hpc, (Option.some.inj hs).symm⟩)))
  · next b e hpc =>
    exact Or.inr (Or.inr (Or.inr (Or.inr ⟨b, e, hpc, (Option.some.inj hs).symm⟩)))

/-! ## One loop -/

/-- The thread has passed the locked section of the initialisation of loop `k`. -/
def Thread.entered (k : ℕ) (tp : Thread) : Bool :=
  decide (k < tp.loop) || match tp.pc with
    | .wait => false
    | .lock => false
    | _ => true

/-- The thread has been counted out of loop `k`. -/
def Thread.counted (L : DynLoop) (k : ℕ) (tp : Thread) : Bool :=
  decide (k < tp.loop) || match tp.pc with
    | .fetch => decide (L.IsPast tp.schedIndex)
    | _ => false

/-- The thread does not fetch in loop `k` any more. -/
def Thread.stopped (L : DynLoop) (k : ℕ) (tp : Thread) : Bool :=
  decide (k < tp.loop) || match tp.pc with
    | .out b _ => decide (L.IsPast b)
    | _ => false

/-- What holds of one thread when `F` fetches have been made in loop `k`, of which the `J`-th
reaches the end. -/
structure Placed (L : DynLoop) (J k F : ℕ) (tp : Thread) : Prop where
  loop : tp.loop = k ∨ tp.loop = k + 1 ∧ (tp.pc = .wait ∨ tp.pc = .lock)
  sched : tp.loop = k → tp.pc = .lock ∨ tp.pc = .flag → tp.schedIndex = L.lb
  counted : tp.counted L k = true → J ≤ F
  out : ∀ b e, tp.pc = .out b e → L.IsPast e ∧ J ≤ F

/-- The chunks handed out by `F` fetches: all of them, but for the last one while its thread
has not been counted out. -/
inductive Handed (L : DynLoop) (J F : ℕ) (thread : Fin n → Thread) : List (ℤ × ℤ) → Prop
  | before : F < J → Handed L J F thread ((List.range F).map (L.chunkOf n))
  | pending (id : Fin n) : J ≤ F → (thread id).pc = .out (L.index n (J - 1)) (L.index n J) →
      (∀ j ≠ id, ∀ b e, (thread j).pc = .out b e → L.IsPast b) →
      Handed L J F thread ((List.range (J - 1)).map (L.chunkOf n))
  | all : J ≤ F → (∀ j b e, (thread j).pc = .out b e → L.IsPast b) →
      Handed L J F thread ((List.range J).map (L.chunkOf n))

/-- Some thread has not been counted out of loop `k`. -/
structure Busy (L : DynLoop) (s : Team n) (k : ℕ) : Prop where
  inCount : s.inCount = countSet fun id => (s.thread id).entered k
  outCount : s.outCount = countSet fun id => (s.thread id).counted L k
  lt : s.outCount < n
  inFlags : ∀ id, s.inFlags id = ((s.thread id).entered k && decide ((s.thread id).pc ≠ .flag))
  wait : ∀ id, (s.thread id).loop = k + 1 → (s.thread id).pc = .wait

structure Released (s : Team n) : Prop where
  inFlags : ∀ id, s.inFlags id = false
  inCount : s.inCount = 0
  outCount : s.outCount = 0

/-- The team runs loop `k` and has made `F` fetches in it. -/
structure Round (L : DynLoop) (J : ℕ) (s : Team n) (k F : ℕ) : Prop where
  placed : ∀ id, Placed L J k F (s.thread id)
  phase : Busy L s k ∨ Released s ∧ ∀ id, (s.thread id).counted L k = true
  index : (∃ id, (s.thread id).entered k = true) → s.dynamicIndex = L.index n F
  idle : (∀ id, (s.thread id).entered k = false) → F = 0
  fetches : F ≤ J + countSet fun id => (s.thread id).stopped L k
  handed : Handed L J F s.thread (s.chunks k)

section Round

variable {L : DynLoop} {J : ℕ} {s : Team n} {k F : ℕ} {id : Fin n}

theorem Placed.mono {tp : Thread} {F' : ℕ} (h : Placed L J k F tp) (hF : F ≤ F') :
    Placed L J k F' tp where
  loop := h.loop
  sched := h.sched
  counted hc := (h.counted hc).trans hF
  out b e hpc := ⟨(h.out b e hpc).1, (h.out b e hpc).2.trans hF⟩

theorem Placed.loop_eq {tp : Thread} (h : Placed L J k F tp) (hwait : tp.pc ≠ .wait)
    (hlock : tp.pc ≠ .lock) : tp.loop = k := by
  obtain hl | ⟨-, hw | hw⟩ := h.loop
  · exact hl
  · exact absurd hw hwait
  · exact absurd hw hlock

theorem placed_update {thread : Fin n → Thread} {F' : ℕ} {tp : Thread} (hF : F ≤ F')
    (h : ∀ id, Placed L J k F (thread id)) (htp : Placed L J k F' tp) (j : Fin n) :
    Placed L J k F' (Function.update thread id tp j) := by
  by_cases hj : j = id
  · rw [hj, Function.update_self]
    exact htp
  · rw [Function.update_of_ne hj]
    exact (h j).mono hF

theorem Handed.eq_of_lt {thread : Fin n → Thread} {chunks : List (ℤ × ℤ)}
    (h : Handed L J F thread chunks) (hF : F < J) : chunks = (List.range F).map (L.chunkOf n) := by
  cases h with
  | before _ => rfl
  | pending _ hle => omega
  | all hle => omega

/-- A step that hands out no chunk, of a thread that has none to hand out. -/
theorem Handed.update {thread : Fin n → Thread} {chunks : List (ℤ × ℤ)} {F' : ℕ} {tp : Thread}
    (h : Handed L J F thread chunks) (hF : F' = F ∨ J ≤ F ∧ F ≤ F')
    (hid : ∀ b e, (thread id).pc = .out b e → L.IsPast b)
    (hlast : ¬ L.IsPast (L.index n (J - 1)))
    (htp : ∀ b e, tp.pc = .out b e → L.IsPast b) :
    Handed L J F' (Function.update thread id tp) chunks := by
  cases h with
  | before hlt =>
    obtain rfl : F' = F := by omega
    exact .before hlt
  | pending i hle hpc hother =>
    have hne : i ≠ id := by
      rintro rfl
      exact hlast (hid _ _ hpc)
    refine .pending i (by omega) ?_ ?_
    · rw [Function.update_of_ne hne]
      exact hpc
    · intro j hj b e hje
      by_cases hji : j = id
      · rw [hji, Function.update_self] at hje
        exact htp b e hje
      · rw [Function.update_of_ne hji] at hje
        exact hother j hj b e hje
  | all hle hother =>
    refine .all (by omega) ?_
    intro j b e hje
    by_cases hji : j = id
    · rw [hji, Function.update_self] at hje
      exact htp b e hje
    · rw [Function.update_of_ne hji] at hje
      exact hother j b e hje

theorem Handed.last {thread : Fin n → Thread} {chunks : List (ℤ × ℤ)} {tp : Thread} {b e : ℤ}
    (h : Handed L J F thread chunks) (hpos : 0 < J) (hJ : J ≤ F) (hpc : (thread id).pc = .out b e)
    (hb : ¬ L.IsPast b) (htp : ∀ b e, tp.pc ≠ .out b e) :
    Handed L J F (Function.update thread id tp) (chunks ++ [L.bounds b e]) := by
  cases h with
  | before hlt => omega
  | pending i _ hpci hother =>
    obtain rfl : id = i := by
      by_contra hne
      exact hb (hother id hne b e hpc)
    rw [hpc] at hpci
    cases hpci
    have hchunk : L.bounds (L.index n (J - 1)) (L.index n J) = L.chunkOf n (J - 1) := by
      rw [DynLoop.chunkOf, Nat.sub_add_cancel hpos]
    have hrange : List.range (J - 1) ++ [J - 1] = List.range J := by
      rw [← List.range_succ, Nat.succ_eq_add_one, Nat.sub_add_cancel hpos]
    rw [hchunk, ← List.map_singleton, ← List.map_append, hrange]
    refine .all hJ ?_
    intro j b' e' hbe
    by_cases hj : j = id
    · rw [hj, Function.update_self] at hbe
      exact absurd hbe (htp b' e')
    · rw [Function.update_of_ne hj] at hbe
      exact hother j hj b' e' hbe
  | all _ hother => exact absurd (hother id b e hpc) hb

theorem Busy.update {s' : Team n} {tp : Thread} (h : Busy L s k)
    (hthread : s'.thread = Function.update s.thread id tp)
    (hin : s'.inCount = countSet fun j => (Function.update s.thread id tp j).entered k)
    (hout : s'.outCount = countSet fun j => (Function.update s.thread id tp j).counted L k)
    (hlt : s'.outCount < n) (hother : ∀ j ≠ id, s'.inFlags j = s.inFlags j)
    (hflag : s'.inFlags id = (tp.entered k && decide (tp.pc ≠ .flag)))
    (hwait : tp.loop = k + 1 → tp.pc = .wait) : Busy L s' k := by
  constructor
  · rw [hthread]
    exact hin
  · rw [hthread]
    exact hout
  · exact hlt
  · intro j
    rw [hthread]
    by_cases hj : j = id
    · rw [hj, Function.update_self]
      exact hflag
    · rw [Function.update_of_ne hj, hother j hj]
      exact h.inFlags j
  · intro j
    rw [hthread]
    by_cases hj : j = id
    · rw [hj, Function.update_self]
      exact hwait
    · rw [Function.update_of_ne hj]
      exact h.wait j

section Step

variable (h : Round L J s k F)
include h

theorem Round.busy (hid : (s.thread id).counted L k = false) : Busy L s k := by
  obtain hb | ⟨-, hr⟩ := h.phase
  · exact hb
  · rw [hr id] at hid
    cases hid

/-- A thread in front of the next loop waits for the release of this one. -/
theorem Round.released (hid : (s.thread id).loop = k + 1)
    (hgo : (s.thread id).pc = .lock ∨ s.inFlags id = false) :
    Released s ∧ ∀ id, (s.thread id).counted L k = true := by
  obtain hb | hr := h.phase
  · have hw := hb.wait id hid
    have hf := hb.inFlags id
    rw [hw] at hgo hf
    simp [Thread.entered, hid] at hf
    simp [hf] at hgo
  · exact hr

/-- What a step of a thread that stays entered or not entered leaves as it is. -/
theorem Round.entered_update {tp : Thread} (htp : tp.entered k = (s.thread id).entered k) :
    ((∃ j, (Function.update s.thread id tp j).entered k = true) → s.dynamicIndex = L.index n F) ∧
      ((∀ j, (Function.update s.thread id tp j).entered k = false) → F = 0) := by
  have hall : ∀ j, (Function.update s.thread id tp j).entered k = (s.thread j).entered k := by
    intro j
    by_cases hj : j = id
    · rw [hj, Function.update_self, htp]
    · rw [Function.update_of_ne hj]
  simp only [hall]
  exact ⟨h.index, h.idle⟩

theorem Round.wait (hlast : ¬ L.IsPast (L.index n (J - 1))) (hpc : (s.thread id).pc = .wait)
    (hflag : s.inFlags id = false) {lb : ℤ} (hlb : (s.thread id).loop = k → lb = L.lb) :
    Round L J
      (s.set id { s.thread id with pc := .lock, schedIndex := lb, isLast := false }) k F := by
  generalize htp :
    ({ s.thread id with pc := .lock, schedIndex := lb, isLast := false } : Thread) = tp
  have hpc' : tp.pc = .lock := by rw [← htp]
  have hloop' : tp.loop = (s.thread id).loop := by rw [← htp]
  have hent : tp.entered k = (s.thread id).entered k := by
    simp [Thread.entered, hpc, hpc', hloop']
  have hcount : tp.counted L k = (s.thread id).counted L k := by
    simp [Thread.counted, hpc, hpc', hloop']
  have hstop : tp.stopped L k = (s.thread id).stopped L k := by
    simp [Thread.stopped, hpc, hpc', hloop']
  have hp := h.placed id
  obtain ⟨hindex, hidle⟩ := h.entered_update hent
  constructor
  · apply placed_update le_rfl h.placed
    constructor
    · obtain hl | ⟨hl, -⟩ := hp.loop
      · exact Or.inl (hloop'.trans hl)
      · exact Or.inr ⟨hloop'.trans hl, Or.inr hpc'⟩
    · intro hl _
      rw [← htp]
      exact hlb (hloop' ▸ hl)
    · intro hc
      exact hp.counted (hcount ▸ hc)
    · intro b e hbe
      rw [hpc'] at hbe
      cases hbe
  · obtain hl | ⟨hl, -⟩ := hp.loop
    · left
      have hb : Busy L s k := @Round.busy _ _ _ _ _ _ id h (by simp [Thread.counted, hl, hpc])
      apply hb.update rfl
      · exact hb.inCount.trans (countSet_update_eq (p := Thread.entered k) hent).symm
      · exact hb.outCount.trans (countSet_update_eq (p := Thread.counted L k) hcount).symm
      · exact hb.lt
      · intro j _
        rfl
      · simp [Team.set, hflag, Thread.entered, hpc', hloop', hl]
      · intro hl'
        omega
    · right
      obtain ⟨hr, hall⟩ := h.released hl (Or.inr hflag)
      refine ⟨⟨hr.inFlags, hr.inCount, hr.outCount⟩, ?_⟩
      intro j
      by_cases hj : j = id
      · simp [Team.set, hj, hcount, hall]
      · simp only [Team.set, Function.update_of_ne hj]
        exact hall j
  · exact hindex
  · exact hidle
  · exact h.fetches.trans (le_of_eq (by
      rw [Team.set, countSet_update_eq (p := Thread.stopped L k) hstop]))
  · exact h.handed.update (Or.inl rfl) (by simp [hpc]) hlast (by simp [hpc'])

theorem Round.enter (hlast : ¬ L.IsPast (L.index n (J - 1))) (hloop : (s.thread id).loop = k)
    (hpc : (s.thread id).pc = .lock) : Round L J (s.enter L id) k F := by
  generalize htp : ({ s.thread id with pc := .flag } : Thread) = tp
  have hpc' : tp.pc = .flag := by rw [← htp]
  have hloop' : tp.loop = k := by rw [← htp, hloop]
  have hent : (s.thread id).entered k = false := by simp [Thread.entered, hpc, hloop]
  have hent' : tp.entered k = true := by simp [Thread.entered, hpc']
  have hcount : tp.counted L k = (s.thread id).counted L k := by
    simp [Thread.counted, hpc, hpc', hloop', hloop]
  have hstop : tp.stopped L k = (s.thread id).stopped L k := by
    simp [Thread.stopped, hpc, hpc', hloop', hloop]
  have hp := h.placed id
  have hb : Busy L s k := @Round.busy _ _ _ _ _ _ id h (by simp [Thread.counted, hloop, hpc])
  have hthread : (s.enter L id).thread = Function.update s.thread id tp := by
    rw [← htp]
    rfl
  constructor
  · rw [hthread]
    apply placed_update le_rfl h.placed
    constructor
    · exact Or.inl hloop'
    · intro _ _
      rw [← htp]
      exact hp.sched hloop (Or.inl hpc)
    · intro hc
      exact hp.counted (hcount ▸ hc)
    · intro b e hbe
      rw [hpc'] at hbe
      cases hbe
  · left
    apply hb.update hthread
    · rw [countSet_update_succ (p := Thread.entered k) hent hent', ← hb.inCount]
      rfl
    · exact hb.outCount.trans (countSet_update_eq (p := Thread.counted L k) hcount).symm
    · exact hb.lt
    · intro j _
      rfl
    · have hf := hb.inFlags id
      rw [hent] at hf
      simpa [hpc', Team.enter, Team.set] using hf
    · intro hl
      omega
  · intro _
    change (if s.inCount = 0 then L.lb else s.dynamicIndex) = _
    split_ifs with h0
    · -- the first thread of the loop
      have hnone : ∀ j, (s.thread j).entered k = false := by
        intro j
        by_contra hj
        have := (countSet_pos_iff (f := fun i => (s.thread i).entered k)).mpr
          ⟨j, eq_true_of_ne_false hj⟩
        rw [← hb.inCount] at this
        omega
      rw [h.idle hnone]
      rfl
    · apply h.index
      apply countSet_pos_iff.mp
      rw [← hb.inCount]
      omega
  · intro hall
    have := hall id
    rw [hthread, Function.update_self, hent'] at this
    cases this
  · rw [hthread, countSet_update_eq (p := Thread.stopped L k) hstop]
    exact h.fetches
  · rw [hthread]
    exact h.handed.update (Or.inl rfl) (by simp [hpc]) hlast (by simp [hpc'])

theorem Round.flag (hends : L.Ends n J) (hpc : (s.thread id).pc = .flag) :
    Round L J { s.set id { s.thread id with pc := .fetch } with
      inFlags := Function.update s.inFlags id true } k F := by
  have hp := h.placed id
  have hloop := hp.loop_eq (by simp [hpc]) (by simp [hpc])
  generalize htp : ({ s.thread id with pc := .fetch } : Thread) = tp
  have hpc' : tp.pc = .fetch := by rw [← htp]
  have hloop' : tp.loop = k := by rw [← htp, hloop]
  have hsched : tp.schedIndex = L.lb := by
    rw [← htp]
    exact hp.sched hloop (Or.inr hpc)
  have hent : tp.entered k = (s.thread id).entered k := by simp [Thread.entered, hpc, hpc']
  have hlb : ¬ L.IsPast L.lb := hends.before 0 hends.pos
  have hcount' : tp.counted L k = false := by simp [Thread.counted, hpc', hloop', hsched, hlb]
  have hcount : (s.thread id).counted L k = false := by simp [Thread.counted, hpc, hloop]
  have hstop : tp.stopped L k = (s.thread id).stopped L k := by
    simp [Thread.stopped, hpc, hpc', hloop', hloop]
  have hb := h.busy hcount
  obtain ⟨hindex, hidle⟩ := h.entered_update hent
  constructor
  · apply placed_update le_rfl h.placed
    constructor
    · exact Or.inl hloop'
    · intro _ hor
      simp [hpc'] at hor
    · intro hc
      rw [hcount'] at hc
      cases hc
    · intro b e hbe
      rw [hpc'] at hbe
      cases hbe
  · left
    apply hb.update rfl
    · exact hb.inCount.trans (countSet_update_eq (p := Thread.entered k) hent).symm
    · exact hb.outCount.trans
        (countSet_update_eq (p := Thread.counted L k) (hcount'.trans hcount.symm)).symm
    · exact hb.lt
    · intro j hj
      simp [hj]
    · simp [hpc', Thread.entered]
    · intro hl
      omega
  · exact hindex
  · exact hidle
  · exact h.fetches.trans (le_of_eq (by
      rw [Team.set, countSet_update_eq (p := Thread.stopped L k) hstop]))
  · exact h.handed.update (Or.inl rfl) (by simp [hpc])
      (hends.before (J - 1) (by have := hends.pos; omega)) (by simp [hpc'])

/-- A thread that fetches leaves room for its fetch within those of the team. -/
theorem Round.fetches_lt (hid : (s.thread id).stopped L k = false) : F < J + n := by
  have hlt := countSet_lt (f := fun j => (s.thread j).stopped L k) hid
  have := h.fetches
  rw [Fintype.card_fin] at hlt
  omega

theorem Round.leave (hends : L.Ends n J) (hpc : (s.thread id).pc = .fetch)
    (hpast : L.IsPast (s.thread id).schedIndex) :
    Round L J ({ s with dynamicIndex := L.index n (F + 1) }.leave id) k (F + 1) := by
  have hp := h.placed id
  have hloop := hp.loop_eq (by simp [hpc]) (by simp [hpc])
  generalize htp : ({ s.thread id with loop := (s.thread id).loop + 1, pc := .wait } : Thread) = tp
  have hpc' : tp.pc = .wait := by rw [← htp]
  have hloop' : tp.loop = k + 1 := by rw [← htp, hloop]
  have hcount : (s.thread id).counted L k = true := by simp [Thread.counted, hpc, hpast]
  have hcount' : tp.counted L k = true := by simp [Thread.counted, hloop']
  have hent : tp.entered k = (s.thread id).entered k := by simp [Thread.entered, hpc, hloop']
  have hstop : (s.thread id).stopped L k = false := by simp [Thread.stopped, hpc, hloop]
  have hstop' : tp.stopped L k = true := by simp [Thread.stopped, hloop']
  have hJ := hp.counted hcount
  have hthread : ({ s with dynamicIndex := L.index n (F + 1) }.leave id).thread =
      Function.update s.thread id tp := by
    rw [← htp]
    rfl
  constructor
  · rw [hthread]
    apply placed_update (Nat.le_succ F) h.placed
    constructor
    · exact Or.inr ⟨hloop', Or.inl hpc'⟩
    · intro hl
      omega
    · intro _
      omega
    · intro b e hbe
      rw [hpc'] at hbe
      cases hbe
  · obtain hb | ⟨hr, hall⟩ := h.phase
    · left
      apply hb.update hthread
      · exact hb.inCount.trans (countSet_update_eq (p := Thread.entered k) hent).symm
      · exact hb.outCount.trans
          (countSet_update_eq (p := Thread.counted L k) (hcount'.trans hcount.symm)).symm
      · exact hb.lt
      · intro j _
        rfl
      · have hf := hb.inFlags id
        simpa [hpc', Thread.entered, hloop', Team.leave, Team.set, hpc] using hf
      · intro _
        exact hpc'
    · right
      refine ⟨⟨hr.inFlags, hr.inCount, hr.outCount⟩, ?_⟩
      rw [hthread]
      intro j
      by_cases hj : j = id
      · rw [hj, Function.update_self]
        exact hcount'
      · rw [Function.update_of_ne hj]
        exact hall j
  · intro _
    rfl
  · intro hall
    have := hall id
    rw [hthread, Function.update_self] at this
    simp [Thread.entered, hloop'] at this
  · rw [hthread, countSet_update_succ (p := Thread.stopped L k) hstop hstop']
    have := h.fetches
    omega
  · rw [hthread]
    exact h.handed.update (Or.inr ⟨hJ, Nat.le_succ F⟩) (by simp [hpc])
      (hends.before (J - 1) (by have := hends.pos; omega)) (by simp [hpc'])

theorem Round.dynamicIndex_eq (hpc : (s.thread id).pc = .fetch) : s.dynamicIndex = L.index n F :=
  h.index ⟨id, by simp [Thread.entered, hpc]⟩

theorem Round.reach (hends : L.Ends n J) (hpc : (s.thread id).pc = .fetch)
    (hpast : ¬ L.IsPast (s.thread id).schedIndex) (he : L.IsPast (L.index n (F + 1))) :
    Round L J ({ s with dynamicIndex := L.index n (F + 1) }.set id
      { s.thread id with pc := .out (L.index n F) (L.index n (F + 1)) }) k (F + 1) := by
  have hp := h.placed id
  have hloop := hp.loop_eq (by simp [hpc]) (by simp [hpc])
  generalize htp : ({ s.thread id with pc := .out (L.index n F) (L.index n (F + 1)) } : Thread) = tp
  have hpc' : tp.pc = .out (L.index n F) (L.index n (F + 1)) := by rw [← htp]
  have hloop' : tp.loop = k := by rw [← htp, hloop]
  have hcount : (s.thread id).counted L k = false := by
    simp [Thread.counted, hpc, hloop, hpast]
  have hcount' : tp.counted L k = false := by simp [Thread.counted, hpc', hloop']
  have hent : tp.entered k = (s.thread id).entered k := by simp [Thread.entered, hpc, hpc']
  have hstop : (s.thread id).stopped L k = false := by simp [Thread.stopped, hpc, hloop]
  have hlt := h.fetches_lt hstop
  have hJ : J ≤ F + 1 := by
    by_contra hc
    exact hends.before (F + 1) (by omega) he
  have hb := h.busy hcount
  constructor
  · apply placed_update (Nat.le_succ F) h.placed
    constructor
    · exact Or.inl hloop'
    · intro _ hor
      simp [hpc'] at hor
    · intro hc
      rw [hcount'] at hc
      cases hc
    · intro b e hbe
      rw [hpc'] at hbe
      cases hbe
      exact ⟨he, hJ⟩
  · left
    apply hb.update rfl
    · exact hb.inCount.trans (countSet_update_eq (p := Thread.entered k) hent).symm
    · exact hb.outCount.trans
        (countSet_update_eq (p := Thread.counted L k) (hcount'.trans hcount.symm)).symm
    · exact hb.lt
    · intro j _
      rfl
    · have hf := hb.inFlags id
      simpa [hpc', Thread.entered, Team.set, hpc] using hf
    · intro hl
      omega
  · intro _
    rfl
  · intro hall
    have := hall id
    simp [Team.set, Thread.entered, hpc'] at this
  · have hf := h.fetches
    simp only [Team.set]
    by_cases hFJ : J ≤ F
    · have hb' : L.IsPast (L.index n F) := by
        have := hends.after (F - J) (by omega)
        rwa [Nat.add_sub_cancel' hFJ] at this
      rw [countSet_update_succ (p := Thread.stopped L k) hstop
        (by simp [Thread.stopped, hpc', hb'])]
      omega
    · omega
  · simp only [Team.set]
    by_cases hFJ : J ≤ F
    · have hb' : L.IsPast (L.index n F) := by
        have := hends.after (F - J) (by omega)
        rwa [Nat.add_sub_cancel' hFJ] at this
      refine h.handed.update (Or.inr ⟨hFJ, Nat.le_succ F⟩) (by simp [hpc])
        (hends.before (J - 1) (by have := hends.pos; omega)) ?_
      intro b e hbe
      rw [hpc'] at hbe
      cases hbe
      exact hb'
    · obtain rfl : J = F + 1 := by omega
      rw [h.handed.eq_of_lt (Nat.lt_succ_self F)]
      refine .pending id le_rfl ?_ ?_
      · rw [Function.update_self]
        exact hpc'
      · intro j hj b e hbe
        rw [Function.update_of_ne hj] at hbe
        have := ((h.placed j).out b e hbe).2
        omega

theorem Round.take (hends : L.Ends n J) (hpc : (s.thread id).pc = .fetch)
    (hpast : ¬ L.IsPast (s.thread id).schedIndex) (he : ¬ L.IsPast (L.index n (F + 1))) :
    Round L J ({ s with dynamicIndex := L.index n (F + 1) }.finish L id
      (L.index n F) (L.index n (F + 1))) k (F + 1) := by
  have hp := h.placed id
  have hloop := hp.loop_eq (by simp [hpc]) (by simp [hpc])
  have hstop : (s.thread id).stopped L k = false := by simp [Thread.stopped, hpc, hloop]
  have hlt := h.fetches_lt hstop
  have hJ : F + 1 < J := by
    by_contra hc
    have := hends.after (F + 1 - J) (by omega)
    rw [Nat.add_sub_cancel' (by omega)] at this
    exact he this
  have hb' : ¬ L.IsPast (L.index n F) := hends.before F (by omega)
  rw [Team.finish_take hb']
  generalize htp : ({ s.thread id with
    schedIndex := L.index n (F + 1)
    pc := .fetch
    isLast := (s.thread id).isLast || decide (L.IsPast (L.index n (F + 1))) } : Thread) = tp
  have hpc' : tp.pc = .fetch := by rw [← htp]
  have hloop' : tp.loop = k := by rw [← htp, hloop]
  have hsched : tp.schedIndex = L.index n (F + 1) := by rw [← htp]
  have hcount : (s.thread id).counted L k = false := by
    simp [Thread.counted, hpc, hloop, hpast]
  have hcount' : tp.counted L k = false := by simp [Thread.counted, hpc', hloop', hsched, he]
  have hent : tp.entered k = (s.thread id).entered k := by simp [Thread.entered, hpc, hpc']
  have hb := h.busy hcount
  constructor
  · apply placed_update (Nat.le_succ F) h.placed
    constructor
    · exact Or.inl hloop'
    · intro _ hor
      simp [hpc'] at hor
    · intro hc
      rw [hcount'] at hc
      cases hc
    · intro b e hbe
      rw [hpc'] at hbe
      cases hbe
  · left
    apply hb.update rfl
    · exact hb.inCount.trans (countSet_update_eq (p := Thread.entered k) hent).symm
    · exact hb.outCount.trans
        (countSet_update_eq (p := Thread.counted L k) (hcount'.trans hcount.symm)).symm
    · exact hb.lt
    · intro j _
      rfl
    · have hf := hb.inFlags id
      simpa [hpc', Thread.entered, hpc, Team.set] using hf
    · intro hl
      omega
  · intro _
    rfl
  · intro hall
    have := hall id
    simp [Team.set, Thread.entered, hpc'] at this
  · omega
  · change Handed L J (F + 1) _ (Function.update s.chunks (s.thread id).loop _ k)
    rw [hloop, Function.update_self, ← DynLoop.chunkOf, h.handed.eq_of_lt (by omega),
      ← List.map_singleton, ← List.map_append, ← List.range_succ]
    exact .before hJ

theorem Round.phase_countOut {tp : Thread} {s' : Team n}
    (hthread : s'.thread = Function.update s.thread id tp)
    (hin : s'.inCount = s.countOut.inCount) (hout : s'.outCount = s.countOut.outCount)
    (hflags : s'.inFlags = s.countOut.inFlags) (hcount : (s.thread id).counted L k = false)
    (hcount' : tp.counted L k = true) (hent : tp.entered k = (s.thread id).entered k)
    (hpc : (s.thread id).pc ≠ .flag) (hpc' : tp.pc ≠ .flag)
    (hwait : tp.loop = k + 1 → tp.pc = .wait) :
    Busy L s' k ∨ Released s' ∧ ∀ id, (s'.thread id).counted L k = true := by
  have hb := h.busy hcount
  by_cases hlast : s.outCount + 1 = n
  · right
    simp only [Team.countOut, hlast, if_true] at hin hout hflags
    refine ⟨⟨fun j => by rw [hflags], hin, hout⟩, ?_⟩
    rw [hthread]
    intro j
    by_cases hj : j = id
    · rw [hj, Function.update_self]
      exact hcount'
    · rw [Function.update_of_ne hj]
      apply set_of_countSet (f := fun i => (s.thread i).counted L k) hcount ?_ hj
      rw [← hb.outCount, hlast, Fintype.card_fin]
  · left
    simp only [Team.countOut, hlast, if_false] at hin hout hflags
    apply hb.update hthread
    · rw [hin]
      exact hb.inCount.trans (countSet_update_eq (p := Thread.entered k) hent).symm
    · rw [hout, countSet_update_succ (p := Thread.counted L k) hcount hcount', hb.outCount]
    · have := hb.lt
      omega
    · intro j _
      rw [hflags]
    · have hf := hb.inFlags id
      rw [hflags, hent]
      simpa [hpc, hpc'] using hf
    · exact hwait

omit h in
@[simp] theorem countOut_thread : s.countOut.thread = s.thread := by
  unfold Team.countOut
  dsimp only
  split_ifs <;> rfl

omit h in
@[simp] theorem countOut_chunks : s.countOut.chunks = s.chunks := by
  unfold Team.countOut
  dsimp only
  split_ifs <;> rfl

omit h in
@[simp] theorem countOut_dynamicIndex : s.countOut.dynamicIndex = s.dynamicIndex := by
  unfold Team.countOut
  dsimp only
  split_ifs <;> rfl

theorem Round.out (hends : L.Ends n J) {b e : ℤ} (hpc : (s.thread id).pc = .out b e) :
    Round L J (s.countOut.finish L id b e) k F := by
  have hp := h.placed id
  have hloop := hp.loop_eq (by simp [hpc]) (by simp [hpc])
  obtain ⟨he, hJ⟩ := hp.out b e hpc
  have hlast : ¬ L.IsPast (L.index n (J - 1)) :=
    hends.before (J - 1) (by have := hends.pos; omega)
  have hcount : (s.thread id).counted L k = false := by simp [Thread.counted, hpc, hloop]
  by_cases hb : L.IsPast b
  · rw [Team.finish_leave hb, countOut_thread]
    generalize htp : ({ s.thread id with
      loop := (s.thread id).loop + 1
      pc := .wait
      schedIndex := e } : Thread) = tp
    have hpc' : tp.pc = .wait := by rw [← htp]
    have hloop' : tp.loop = k + 1 := by rw [← htp, hloop]
    have hcount' : tp.counted L k = true := by simp [Thread.counted, hloop']
    have hent : tp.entered k = (s.thread id).entered k := by simp [Thread.entered, hpc, hloop']
    have hstop : tp.stopped L k = (s.thread id).stopped L k := by
      simp [Thread.stopped, hpc, hloop', hb]
    have hthread : (s.countOut.set id tp).thread = Function.update s.thread id tp := by
      simp [Team.set]
    obtain ⟨hindex, hidle⟩ := h.entered_update hent
    constructor
    · rw [hthread]
      apply placed_update le_rfl h.placed
      constructor
      · exact Or.inr ⟨hloop', Or.inl hpc'⟩
      · intro hl
        omega
      · intro _
        exact hJ
      · intro b' e' hbe
        rw [hpc'] at hbe
        cases hbe
    · apply h.phase_countOut hthread rfl rfl rfl hcount hcount' hent
      · simp [hpc]
      · simp [hpc']
      · intro _
        exact hpc'
    · rw [hthread]
      simpa [Team.set] using hindex
    · rw [hthread]
      exact hidle
    · rw [hthread, countSet_update_eq (p := Thread.stopped L k) hstop]
      exact h.fetches
    · rw [hthread]
      have hchunks : (s.countOut.set id tp).chunks = s.chunks := by simp [Team.set]
      rw [hchunks]
      refine h.handed.update (Or.inl rfl) ?_ hlast (by simp [hpc'])
      intro b' e' hbe
      rw [hpc] at hbe
      cases hbe
      exact hb
  · rw [Team.finish_take hb, countOut_thread, countOut_chunks]
    generalize htp : ({ s.thread id with
      schedIndex := e
      pc := .fetch
      isLast := (s.thread id).isLast || decide (L.IsPast e) } : Thread) = tp
    have hpc' : tp.pc = .fetch := by rw [← htp]
    have hloop' : tp.loop = k := by rw [← htp, hloop]
    have hsched : tp.schedIndex = e := by rw [← htp]
    have hcount' : tp.counted L k = true := by simp [Thread.counted, hpc', hsched, he]
    have hent : tp.entered k = (s.thread id).entered k := by simp [Thread.entered, hpc, hpc']
    have hstop : tp.stopped L k = (s.thread id).stopped L k := by
      simp [Thread.stopped, hpc, hpc', hloop', hloop, hb]
    generalize hs' : ({ s.countOut.set id tp with
      chunks := Function.update s.chunks (s.thread id).loop
        (s.chunks (s.thread id).loop ++ [L.bounds b e]) } : Team n) = s'
    have hthread : s'.thread = Function.update s.thread id tp := by
      rw [← hs']
      simp [Team.set]
    obtain ⟨hindex, hidle⟩ := h.entered_update hent
    constructor
    · rw [hthread]
      apply placed_update le_rfl h.placed
      constructor
      · exact Or.inl hloop'
      · intro _ hor
        simp [hpc'] at hor
      · intro _
        exact hJ
      · intro b' e' hbe
        rw [hpc'] at hbe
        cases hbe
    · apply h.phase_countOut hthread (by rw [← hs']; rfl) (by rw [← hs']; rfl) (by rw [← hs']; rfl)
        hcount hcount' hent
      · simp [hpc]
      · simp [hpc']
      · intro hl
        omega
    · rw [hthread, ← hs']
      simpa [Team.set] using hindex
    · rw [hthread]
      exact hidle
    · rw [hthread, countSet_update_eq (p := Thread.stopped L k) hstop]
      exact h.fetches
    · have hchunks : s'.chunks k = s.chunks k ++ [L.bounds b e] := by
        rw [← hs']
        simp [hloop]
      rw [hthread, hchunks]
      exact h.handed.last hends.pos hJ hpc hb (by simp [hpc'])

theorem Round.chunks_eq (hn : 0 < n) (hall : ∀ id, (s.thread id).loop = k + 1) :
    s.chunks k = (List.range J).map (L.chunkOf n) := by
  have hJ : J ≤ F := (h.placed ⟨0, hn⟩).counted (by simp [Thread.counted, hall])
  have hout : ∀ j b e, (s.thread j).pc ≠ .out b e := by
    intro j b e hbe
    have := (h.placed j).loop_eq (by simp [hbe]) (by simp [hbe])
    rw [hall] at this
    omega
  generalize s.chunks k = chunks, h.handed = hh
  cases hh with
  | before hlt => omega
  | pending i _ hpc => exact absurd hpc (hout i _ _)
  | all => rfl

theorem Round.next (hr : Released s) (hall : ∀ id, (s.thread id).loop = k + 1)
    (hpos : 0 < n) {L' : DynLoop} {J' : ℕ} (hJ' : 0 < J') (hchunks : s.chunks (k + 1) = [])
    (hsched : ∀ id, (s.thread id).pc = .lock → (s.thread id).schedIndex = L'.lb) :
    Round L' J' s (k + 1) 0 := by
  have hpc : ∀ id, (s.thread id).pc = .wait ∨ (s.thread id).pc = .lock := by
    intro id
    obtain hl | ⟨-, hw⟩ := (h.placed id).loop
    · rw [hall] at hl
      omega
    · exact hw
  have hent : ∀ id, (s.thread id).entered (k + 1) = false := by
    intro id
    obtain hw | hw := hpc id <;> simp [Thread.entered, hall, hw]
  have hcount : ∀ id, (s.thread id).counted L' (k + 1) = false := by
    intro id
    obtain hw | hw := hpc id <;> simp [Thread.counted, hall, hw]
  constructor
  · intro id
    constructor
    · exact Or.inl (hall id)
    · intro _ hor
      obtain hw | hw := hpc id
      · simp [hw] at hor
      · exact hsched id hw
    · intro hc
      rw [hcount] at hc
      cases hc
    · intro b e hbe
      obtain hw | hw := hpc id <;> simp [hw] at hbe
  · left
    constructor
    · rw [hr.inCount]
      simp [hent, countSet_none]
    · rw [hr.outCount]
      simp [hcount, countSet_none]
    · rw [hr.outCount]
      exact hpos
    · intro id
      rw [hr.inFlags, hent]
      rfl
    · intro id hl
      rw [hall] at hl
      omega
  · rintro ⟨id, hid⟩
    rw [hent] at hid
    cases hid
  · intro _
    rfl
  · omega
  · rw [hchunks]
    exact .before hJ'

end Step

end Round

/-! ## Loop after loop -/

section Run

variable {loops : ℕ → DynLoop} {m : ℕ} {J : ℕ → ℕ} {s s' : Team n} {id : Fin n}

/-- The team runs loop `k`; the loops before it are complete. -/
structure Progress (loops : ℕ → DynLoop) (J : ℕ → ℕ) (s : Team n) (k F : ℕ) : Prop where
  round : Round (loops k) (J k) s k F
  earlier : ∀ i < k, s.chunks i = (List.range (J i)).map ((loops i).chunkOf n)
  later : ∀ i, k < i → s.chunks i = []
  lock : ∀ id, (s.thread id).pc = .lock → (s.thread id).schedIndex = (loops (s.thread id).loop).lb

/-- The thread that starts a loop finds all threads through with the loops before. -/
def StartsAlone (id : Fin n) (s : Team n) : Prop :=
  (s.thread id).pc = .lock → s.inCount = 0 → ∀ j, (s.thread id).loop ≤ (s.thread j).loop

instance (id : Fin n) (s : Team n) : Decidable (StartsAlone id s) :=
  inferInstanceAs (Decidable (_ → _ → _))

/-- A step hands out chunks of the loop of its thread only, and none in the initialisation. -/
theorem step_chunks (hs : step loops m id s = some s') {i : ℕ}
    (hi : i ≠ (s.thread id).loop ∨ (s.thread id).pc = .wait ∨ (s.thread id).pc = .lock) :
    s'.chunks i = s.chunks i := by
  have hfinish : ∀ (t : Team n) b e, t.chunks = s.chunks → t.thread = s.thread →
      i ≠ (s.thread id).loop → (t.finish (loops (s.thread id).loop) id b e).chunks i =
        s.chunks i := by
    intro t b e hc ht hne
    by_cases hb : (loops (s.thread id).loop).IsPast b
    · rw [Team.finish_leave hb]
      simp [Team.set, hc]
    · rw [Team.finish_take hb, ht, hc]
      exact Function.update_of_ne hne _ _
  obtain ⟨-, ⟨-, -, rfl⟩ | ⟨-, rfl⟩ | ⟨-, rfl⟩ | ⟨hpc, rfl⟩ | ⟨b, e, hpc, rfl⟩⟩ := step_cases hs
  · rfl
  · rfl
  · rfl
  · have hne : i ≠ (s.thread id).loop := by simpa [hpc] using hi
    unfold Team.fetch
    dsimp only
    split_ifs
    · rfl
    · rfl
    · exact hfinish _ _ _ rfl rfl hne
  · have hne : i ≠ (s.thread id).loop := by simpa [hpc] using hi
    exact hfinish _ _ _ countOut_chunks countOut_thread hne

/-- A step moves its own thread only; one that is done waiting starts at the lower bound. -/
theorem step_thread (hs : step loops m id s = some s') :
    ∃ tp, s'.thread = Function.update s.thread id tp ∧
      (tp.pc = .lock → tp.schedIndex = (loops tp.loop).lb) := by
  have hfinish : ∀ (t : Team n) b e, t.thread = s.thread →
      ∃ tp, (t.finish (loops (s.thread id).loop) id b e).thread = Function.update s.thread id tp ∧
        tp.pc ≠ .lock := by
    intro t b e ht
    by_cases hb : (loops (s.thread id).loop).IsPast b
    · rw [Team.finish_leave hb, Team.set, ht]
      exact ⟨_, rfl, by simp⟩
    · rw [Team.finish_take hb, Team.set, ht]
      exact ⟨_, rfl, by simp⟩
  obtain ⟨-, ⟨-, -, rfl⟩ | ⟨-, rfl⟩ | ⟨-, rfl⟩ | ⟨hpc, rfl⟩ | ⟨b, e, hpc, rfl⟩⟩ := step_cases hs
  · exact ⟨_, rfl, fun _ => rfl⟩
  · exact ⟨_, rfl, fun hl => by cases hl⟩
  · exact ⟨_, rfl, fun hl => by cases hl⟩
  · unfold Team.fetch
    dsimp only
    split_ifs
    · exact ⟨_, rfl, fun hl => by cases hl⟩
    · exact ⟨_, rfl, fun hl => by cases hl⟩
    · obtain ⟨tp, htp, hne⟩ := hfinish
        { s with dynamicIndex := s.dynamicIndex +
          (loops (s.thread id).loop).fetchLen n s.dynamicIndex }
        s.dynamicIndex (s.dynamicIndex + (loops (s.thread id).loop).fetchLen n s.dynamicIndex) rfl
      exact ⟨tp, htp, fun hl => absurd hl hne⟩
  · obtain ⟨tp, htp, hne⟩ := hfinish _ b e countOut_thread
    exact ⟨tp, htp, fun hl => absurd hl hne⟩

theorem Round.step {k F : ℕ} (h : Round (loops k) (J k) s k F) (hends : (loops k).Ends n (J k))
    (hs : step loops m id s = some s')
    (hgo : (s.thread id).loop = k ∨ (s.thread id).pc = .wait) :
    ∃ F', Round (loops k) (J k) s' k F' := by
  have hlast : ¬ (loops k).IsPast ((loops k).index n (J k - 1)) :=
    hends.before (J k - 1) (by have := hends.pos; omega)
  obtain ⟨-, ⟨hpc, hflag, rfl⟩ | ⟨hpc, rfl⟩ | ⟨hpc, rfl⟩ | ⟨hpc, rfl⟩ | ⟨b, e, hpc, rfl⟩⟩ :=
    step_cases hs
  · refine ⟨F, h.wait hlast hpc hflag ?_⟩
    intro hl
    rw [hl]
  · have hl : (s.thread id).loop = k := hgo.resolve_right (by simp [hpc])
    rw [hl]
    exact ⟨F, h.enter hlast hl hpc⟩
  · exact ⟨F, h.flag hends hpc⟩
  · have hl := (h.placed id).loop_eq (by simp [hpc]) (by simp [hpc])
    have hidx := h.dynamicIndex_eq hpc
    refine ⟨F + 1, ?_⟩
    unfold Team.fetch
    rw [hl]
    dsimp only
    rw [hidx, ← DynLoop.index_succ]
    split_ifs with hpast he
    · exact h.leave hends hpc hpast
    · exact h.reach hends hpc hpast he
    · exact h.take hends hpc hpast he
  · have hl := (h.placed id).loop_eq (by simp [hpc]) (by simp [hpc])
    rw [hl]
    exact ⟨F, h.out hends hpc⟩

theorem Progress.step (hn : 0 < n) (hends : ∀ k < m, (loops k).Ends n (J k)) {k F : ℕ}
    (h : Progress loops J s k F) (hok : StartsAlone id s) (hs : step loops m id s = some s') :
    ∃ k' F', Progress loops J s' k' F' := by
  have hm : (s.thread id).loop < m := (step_cases hs).1
  have hlock : ∀ j, (s'.thread j).pc = .lock →
      (s'.thread j).schedIndex = (loops (s'.thread j).loop).lb := by
    obtain ⟨tp, htp, hl⟩ := step_thread hs
    rw [htp]
    intro j
    by_cases hj : j = id
    · rw [hj, Function.update_self]
      exact hl
    · rw [Function.update_of_ne hj]
      exact h.lock j
  have hloop := (h.round.placed id).loop
  have hchunks : ∀ i ≠ k, s'.chunks i = s.chunks i := by
    intro i hi
    apply step_chunks hs
    obtain hl | ⟨-, hw⟩ := hloop
    · exact Or.inl (hl ▸ hi)
    · exact Or.inr hw
  by_cases hgo : (s.thread id).loop = k ∨ (s.thread id).pc = .wait
  · have hk : k < m := by omega
    obtain ⟨F', hr⟩ := h.round.step (hends k hk) hs hgo
    refine ⟨k, F', hr, ?_, ?_, hlock⟩
    · intro i hi
      rw [hchunks i (by omega)]
      exact h.earlier i hi
    · intro i hi
      rw [hchunks i (by omega)]
      exact h.later i hi
  · -- the first thread to start the next loop
    rw [not_or] at hgo
    obtain ⟨hl, hw⟩ := hloop.resolve_left hgo.1
    have hpc := hw.resolve_left hgo.2
    obtain ⟨hrel, -⟩ := h.round.released hl (Or.inl hpc)
    have hall : ∀ j, (s.thread j).loop = k + 1 := by
      intro j
      have hle := hok hpc hrel.inCount j
      obtain hj | ⟨hj, -⟩ := (h.round.placed j).loop <;> omega
    have hsched : ∀ j, (s.thread j).pc = .lock → (s.thread j).schedIndex = (loops (k + 1)).lb := by
      intro j hj
      have := h.lock j hj
      rwa [hall] at this
    have hends' := hends (k + 1) (by omega)
    have hnext := h.round.next hrel hall hn hends'.pos (h.later (k + 1) (by omega)) hsched
    obtain ⟨F', hr⟩ := hnext.step hends' hs (Or.inl hl)
    refine ⟨k + 1, F', hr, ?_, ?_, hlock⟩
    · intro i hi
      by_cases hik : i = k
      · have := step_chunks hs (i := i) (Or.inr (Or.inr hpc))
        rw [this, hik]
        exact h.round.chunks_eq hn hall
      · rw [hchunks i hik]
        exact h.earlier i (by omega)
    · intro i hi
      rw [hchunks i (by omega)]
      exact h.later i (by omega)

theorem Progress.ofStart (hn : 0 < n) (hJ : 0 < J 0) (h : Start s) : Progress loops J s 0 0 := by
  have hent : ∀ id, (s.thread id).entered 0 = false := by
    intro id
    simp [Thread.entered, h.loop, h.pc]
  have hcount : ∀ id, (s.thread id).counted (loops 0) 0 = false := by
    intro id
    simp [Thread.counted, h.loop, h.pc]
  constructor
  · constructor
    · intro id
      constructor
      · exact Or.inl (h.loop id)
      · intro _ hor
        simp [h.pc] at hor
      · intro hc
        rw [hcount] at hc
        cases hc
      · intro b e hbe
        rw [h.pc] at hbe
        cases hbe
    · left
      constructor
      · simp [hent, countSet_none, h.inCount]
      · simp [hcount, countSet_none, h.outCount]
      · rw [h.outCount]
        exact hn
      · intro id
        rw [h.inFlags, hent]
        rfl
      · intro id _
        exact h.pc id
    · rintro ⟨id, hid⟩
      rw [hent] at hid
      cases hid
    · intro _
      rfl
    · omega
    · rw [h.chunks]
      exact .before hJ
  · intro i hi
    omega
  · intro i _
    exact h.chunks i
  · intro id hl
    rw [h.pc] at hl
    cases hl

/-- If every loop is started by a thread that finds all others through with the loops before it,
the chunks of a loop that all threads are through with are, in the order in which they were
returned, the iterations of the loop. -/
theorem chunks_partition (hn : 2 ≤ n) (hn' : n < 2 ^ 31) (hfits : ∀ k < m, (loops k).Fits n)
    (h : ReachableIf Start StartsAlone (step loops m) s) {k : ℕ} (hk : k < m)
    (hall : ∀ id, k < (s.thread id).loop) :
    (s.chunks k).flatMap (loops k).iters = (loops k).serial := by
  have hlast : ∀ i, ∃ J, 0 < J ∧ (i < m → (∀ j < J, ¬ (loops i).Beyond ((loops i).index n j)) ∧
      ∀ j, J ≤ j → (loops i).Beyond ((loops i).index n j)) := by
    intro i
    by_cases hi : i < m
    · obtain ⟨J, hpos, hJ⟩ := DynLoop.exists_last (hfits i hi)
      exact ⟨J, hpos, fun _ => hJ⟩
    · exact ⟨1, Nat.one_pos, fun hi' => absurd hi' hi⟩
  choose J hpos hJ using hlast
  have hends : ∀ i < m, (loops i).Ends n (J i) := by
    intro i hi
    exact DynLoop.ends_of_beyond (hfits i hi) hn' (hpos i) (hJ i hi).1 (hJ i hi).2
  have hinv : ∃ k F, Progress loops J s k F := by
    apply ReachableIf.invariant h
    · intro s hs
      exact ⟨0, 0, Progress.ofStart (by omega) (hpos 0) hs⟩
    · intro id s s' ⟨k, F, hp⟩ hok hs
      exact hp.step (by omega) hends hok hs
  obtain ⟨k', F, hp⟩ := hinv
  have hchunks : s.chunks k = (List.range (J k)).map ((loops k).chunkOf n) := by
    obtain hlt | rfl | hgt := lt_trichotomy k k'
    · exact hp.earlier k hlt
    · apply hp.round.chunks_eq (by omega)
      intro id
      have := hall id
      obtain hl | ⟨hl, -⟩ := (hp.round.placed id).loop <;> omega
    · have := hall ⟨0, by omega⟩
      obtain hl | ⟨hl, -⟩ := (hp.round.placed ⟨0, by omega⟩).loop <;> omega
  rw [hchunks, List.flatMap_map]
  exact DynLoop.flatMap_chunkOf (hfits k hk) hn' (hpos k) (hJ k hk).1 (hJ k hk).2

end Run

/-- A loop of one iteration followed by one of two. -/
def oneThenTwo (k : ℕ) : DynLoop :=
  { lb := 0, up := k + 1, ubofs := 0, step := 1, chunkSize := 1, guided := false }

def startOf (n : ℕ) : Team n where
  inFlags _ := false
  inCount := 0
  outCount := 0
  dynamicIndex := 0
  thread _ := { loop := 0, pc := .wait, schedIndex := 0, isLast := false }
  chunks _ := []

theorem start_startOf (n : ℕ) : Start (startOf n) :=
  ⟨fun _ => rfl, rfl, rfl, fun _ => rfl, fun _ => rfl, fun _ => rfl⟩

theorem fits_oneThenTwo {k : ℕ} (hk : k < 2) : (oneThenTwo k).Fits 2 := by
  constructor
  · exact one_ne_zero
  · exact le_rfl
  · exact (by decide : MachineInt.InInt (1 * 1))
  · exact (by decide : (0 : ℤ) ≤ 0 ∧ (0 : ℤ) < 2 ^ 63)
  · constructor <;> simp [oneThenTwo, DynLoop.loopEnd] <;> omega
  · simp [DynLoop.Beyond, oneThenTwo, DynLoop.loopEnd]
  · intro hs
    cases hs
  · exact Or.inl rfl
  · intro _
    exact Or.inl rfl
  · intro hg
    cases hg

theorem chunks_partition_two : ∃ s : Team 2,
    ReachableIf Start StartsAlone (step oneThenTwo 2) s ∧ (∀ id, (s.thread id).loop = 2) ∧
      (s.chunks 1).flatMap (oneThenTwo 1).iters = (oneThenTwo 1).serial := by
  refine ⟨_, reachableIf_of_run [0, 0, 0, 0, 0, 1, 1, 1, 1, 1, 0, 0, 0, 0, 1, 1, 1, 0, 1, 1,
    0, 0, 1] (start_startOf 2) rfl, by decide, ?_⟩
  apply chunks_partition (by decide) (by decide) (fun k hk => fits_oneThenTwo hk)
    (reachableIf_of_run [0, 0, 0, 0, 0, 1, 1, 1, 1, 1, 0, 0, 0, 0, 1, 1, 1, 0, 1, 1, 0, 0, 1]
      (start_startOf 2) rfl) (by decide)
  decide

/-- Thread 0 gets the last chunk of the first loop and is counted out; thread 1 is counted out
next and starts the second loop; the last call of thread 0 in the first loop then takes the
first chunk of the second. -/
theorem dynamic_loses_iteration : ∃ s : Team 2,
    (∀ k < 2, (oneThenTwo k).Fits 2) ∧ Reachable Start (step oneThenTwo 2) s ∧
      (∀ id, (s.thread id).loop = 2) ∧
      ¬ ((s.chunks 1).flatMap (oneThenTwo 1).iters).Perm (oneThenTwo 1).serial := by
  refine ⟨_, fun k hk => fits_oneThenTwo hk, reachable_of_run [0, 0, 0, 0, 1, 1, 1, 0, 1, 1,
    1, 1, 1, 0, 0, 0, 0, 1, 1, 1, 0, 0] (start_startOf 2) rfl, by decide, ?_⟩
  decide

end OmniCompiler.Omp.Dynamic
