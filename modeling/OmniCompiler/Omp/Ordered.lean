import OmniCompiler.Arithmetic.MachineInt
import OmniCompiler.Arithmetic.SmallFin
import OmniCompiler.Concurrency.Interleaving

/-!
# The `ordered` construct (`ompc_runtime.c`)

A team runs one work-sharing loop with an ordered region after the other, each
thread its own iterations in increasing order. `ordered_id` holds the index of
the iteration that may enter its region. The first thread that comes to the next
loop sets it anew, as soon as all threads have entered the current loop, whether
or not they are through with their iterations.
-/
namespace OmniCompiler.Omp.Ordered

open Interleaving MachineInt SmallFin

variable {n : ℕ}

/-- A loop of `count` iterations, of which iteration `i` is run by thread `owner i`. -/
structure Loop (n : ℕ) where
  lb : ℤ
  step : ℤ
  count : ℕ
  owner : ℕ → Fin n
  step_ne : step ≠ 0
  inLL : ∀ i < count, InLL (lb + i * step)

namespace Loop

variable (L : Loop n)

/-- The first iteration from `i` on that the thread runs. -/
def firstOwn (id : Fin n) (i : ℕ) : Option ℕ :=
  (List.range L.count).find? fun j => decide (i ≤ j) && decide (L.owner j = id)

/-- `loop_id` in iteration `i`. -/
def index (i : ℕ) : ℤ := L.lb + i * L.step

variable {L}

theorem firstOwn_some {id : Fin n} {i j : ℕ} (h : L.firstOwn id i = some j) :
    j < L.count ∧ i ≤ j ∧ L.owner j = id ∧ ∀ k, i ≤ k → k < j → L.owner k ≠ id := by
  rw [firstOwn, List.find?_range_eq_some] at h
  simp only [Bool.and_eq_true, decide_eq_true_eq, List.mem_range, Bool.not_and, Bool.or_eq_true,
    Bool.not_eq_true', decide_eq_false_iff_not] at h
  obtain ⟨⟨h1, h2⟩, h3, h4⟩ := h
  refine ⟨h3, h1, h2, ?_⟩
  intro k hik hkj
  have := h4 k hkj
  omega

theorem firstOwn_none {id : Fin n} {i : ℕ} (h : L.firstOwn id i = none) :
    ∀ k, i ≤ k → k < L.count → L.owner k ≠ id := by
  rw [firstOwn, List.find?_eq_none] at h
  intro k hik hk
  have := h k (List.mem_range.mpr hk)
  simpa [hik] using this

theorem index_inj {i j : ℕ} (hi : i < L.count) (hj : j < L.count)
    (h : toULL (L.index i) = toULL (L.index j)) : i = j := by
  obtain ⟨h1, h2⟩ := L.inLL i hi
  obtain ⟨h3, h4⟩ := L.inLL j hj
  have heq : L.index i = L.index j := by
    unfold toULL index at h
    unfold index
    omega
  have hmul : (i : ℤ) * L.step = j * L.step := by
    unfold index at heq
    linarith
  exact_mod_cast mul_right_cancel₀ L.step_ne hmul

end Loop

/-- Where a thread is: in `ompc_init_ordered` (the wait for its flag, the locked section), before
`ompc_set_loop_id`, in the wait of `ompc_ordered_begin`, in the ordered region, and in
`ompc_ordered_end` with `ordered_id` loaded and with the sum to be stored. -/
inductive Pc
  | wait
  | lock
  | set
  | begin
  | body
  | loaded (v : ℤ)
  | store (v : ℤ)
  deriving DecidableEq

/-- A thread in its `loop`-th loop, with iteration `next` before it. -/
structure Thread where
  loop : ℕ
  next : ℕ
  pc : Pc
  loopId : ℤ

structure Team (n : ℕ) where
  inFlags : Fin n → Bool
  outCount : ℕ
  orderedId : ℤ
  orderedStep : ℤ
  thread : Fin n → Thread

namespace Team

def set (s : Team n) (id : Fin n) (tp : Thread) : Team n :=
  { s with thread := Function.update s.thread id tp }

/-- The thread goes on to its first iteration from `i` on, or to the next loop. -/
def goOn (L : Loop n) (s : Team n) (id : Fin n) (i : ℕ) : Team n :=
  match L.firstOwn id i with
  | some j => s.set id { s.thread id with next := j, pc := .set }
  | none => s.set id { s.thread id with loop := (s.thread id).loop + 1, next := 0, pc := .wait }

/-- The locked section of `ompc_init_ordered`. -/
def initOrdered (L : Loop n) (s : Team n) (id : Fin n) : Team n :=
  let s := if s.outCount = 0 then { s with orderedId := L.lb, orderedStep := L.step } else s
  let outCount := s.outCount + 1
  if outCount = n then { s with inFlags := fun _ => false, outCount := 0 }
  else { s with inFlags := Function.update s.inFlags id true, outCount := outCount }

variable {L : Loop n} {s : Team n} {id : Fin n}

theorem initOrdered_thread : (s.initOrdered L id).thread = s.thread := by
  unfold initOrdered
  dsimp only
  split_ifs <;> rfl

theorem initOrdered_last (h : s.outCount + 1 = n) :
    (s.initOrdered L id).outCount = 0 ∧ ∀ j, (s.initOrdered L id).inFlags j = false := by
  have hfirst : ∀ t : Team n, t.outCount = s.outCount → t.outCount + 1 = n := fun t ht => ht ▸ h
  unfold initOrdered
  dsimp only
  rw [if_pos]
  · exact ⟨rfl, fun _ => rfl⟩
  · apply hfirst
    split_ifs <;> rfl

theorem initOrdered_more (h : s.outCount + 1 ≠ n) :
    (s.initOrdered L id).outCount = s.outCount + 1 ∧
      (s.initOrdered L id).inFlags = Function.update s.inFlags id true := by
  have hfirst : ∀ t : Team n, t.outCount = s.outCount → t.outCount + 1 ≠ n := fun t ht => ht ▸ h
  unfold initOrdered
  dsimp only
  rw [if_neg]
  · split_ifs <;> exact ⟨rfl, rfl⟩
  · apply hfirst
    split_ifs <;> rfl

end Team

/-- One step of thread `id` in a run of `m` loops. -/
def step (loops : ℕ → Loop n) (m : ℕ) (id : Fin n) (s : Team n) : Option (Team n) :=
  let tp := s.thread id
  let L := loops tp.loop
  if m ≤ tp.loop then none
  else match tp.pc with
    | .wait => if s.inFlags id then none else some (s.set id { tp with pc := .lock })
    | .lock => some ((s.initOrdered L id).goOn L id 0)
    | .set => some (s.set id { tp with loopId := L.index tp.next, pc := .begin })
    | .begin =>
      if toULL tp.loopId ≠ toULL s.orderedId then none else some (s.set id { tp with pc := .body })
    | .body => some (s.set id { tp with pc := .loaded s.orderedId })
    | .loaded v => some (s.set id { tp with pc := .store (v + s.orderedStep) })
    | .store v => some ({ s with orderedId := v }.goOn L id (tp.next + 1))

/-- The team as `ompc_do_parallel_main` sets it up. -/
structure Start (s : Team n) : Prop where
  inFlags : ∀ id, s.inFlags id = false
  outCount : s.outCount = 0
  loop : ∀ id, (s.thread id).loop = 0
  next : ∀ id, (s.thread id).next = 0
  pc : ∀ id, (s.thread id).pc = .wait

/-- The thread is between `ompc_ordered_begin` and `ompc_ordered_end`. -/
def Thread.Inside (tp : Thread) : Prop :=
  match tp.pc with
  | .body => True
  | .loaded _ => True
  | .store _ => True
  | _ => False

/-- Iteration `i` of loop `k` has executed `ompc_ordered_end`. -/
def Ended (loops : ℕ → Loop n) (s : Team n) (k i : ℕ) : Prop :=
  let tp := s.thread ((loops k).owner i)
  k < tp.loop ∨ tp.loop = k ∧ i < tp.next

/-- One thread at a time is in the ordered region of a loop, after all earlier iterations. -/
def InOrder (loops : ℕ → Loop n) (s : Team n) : Prop :=
  ∀ k id, (s.thread id).loop = k → (s.thread id).Inside →
    (∀ j, (s.thread j).loop = k → (s.thread j).Inside → j = id) ∧
      ∀ i < (s.thread id).next, Ended loops s k i

/-- The thread that starts a loop finds all threads through with the loops before. -/
def StartsAlone (id : Fin n) (s : Team n) : Prop :=
  (s.thread id).pc = .lock → s.outCount = 0 → ∀ j, (s.thread id).loop ≤ (s.thread j).loop

instance (id : Fin n) (s : Team n) : Decidable (StartsAlone id s) :=
  inferInstanceAs (Decidable (_ → _ → _))

theorem step_cases {loops : ℕ → Loop n} {m : ℕ} {id : Fin n} {s s' : Team n}
    (hs : step loops m id s = some s') :
    (s.thread id).loop < m ∧
      ((s.thread id).pc = .wait ∧ s.inFlags id = false ∧
          s' = s.set id { s.thread id with pc := .lock } ∨
        (s.thread id).pc = .lock ∧ s' = (s.initOrdered (loops (s.thread id).loop) id).goOn
          (loops (s.thread id).loop) id 0 ∨
        (s.thread id).pc = .set ∧ s' = s.set id { s.thread id with
          loopId := (loops (s.thread id).loop).index (s.thread id).next, pc := .begin } ∨
        (s.thread id).pc = .begin ∧ toULL (s.thread id).loopId = toULL s.orderedId ∧
          s' = s.set id { s.thread id with pc := .body } ∨
        (s.thread id).pc = .body ∧ s' = s.set id { s.thread id with pc := .loaded s.orderedId } ∨
        (∃ v, (s.thread id).pc = .loaded v ∧
          s' = s.set id { s.thread id with pc := .store (v + s.orderedStep) }) ∨
        ∃ v, (s.thread id).pc = .store v ∧ s' = { s with orderedId := v }.goOn
          (loops (s.thread id).loop) id ((s.thread id).next + 1)) := by
  unfold step at hs
  dsimp only at hs
  by_cases hm : m ≤ (s.thread id).loop
  · rw [if_pos hm] at hs
    cases hs
  rw [if_neg hm] at hs
  refine ⟨by omega, ?_⟩
  split at hs
  · next hpc =>
    split_ifs at hs with hw
    exact Or.inl ⟨hpc, eq_false_of_ne_true hw, (Option.some.inj hs).symm⟩
  · next hpc => exact Or.inr (Or.inl ⟨hpc, (Option.some.inj hs).symm⟩)
  · next hpc => exact Or.inr (Or.inr (Or.inl ⟨hpc, (Option.some.inj hs).symm⟩))
  · next hpc =>
    split_ifs at hs with hw
    rw [ne_eq, not_not] at hw
    exact Or.inr (Or.inr (Or.inr (Or.inl ⟨hpc, hw, (Option.some.inj hs).symm⟩)))
  · next hpc =>
    exact Or.inr (Or.inr (Or.inr (Or.inr (Or.inl ⟨hpc, (Option.some.inj hs).symm⟩))))
  · next v hpc =>
    exact Or.inr (Or.inr (Or.inr (Or.inr (Or.inr (Or.inl ⟨v, hpc, (Option.some.inj hs).symm⟩)))))
  · next v hpc =>
    exact Or.inr (Or.inr (Or.inr (Or.inr (Or.inr (Or.inr ⟨v, hpc, (Option.some.inj hs).symm⟩)))))

/-! ## One loop -/

/-- The thread has passed the locked section of loop `k`. -/
def Thread.entered (k : ℕ) (tp : Thread) : Bool :=
  decide (k < tp.loop) || match tp.pc with
    | .wait => false
    | .lock => false
    | _ => true

/-- The thread is through with its iterations of loop `k` before `i`. -/
def Thread.Through (tp : Thread) (k i : ℕ) : Prop := k < tp.loop ∨ tp.loop = k ∧ i < tp.next

/-- What holds of thread `id` when the first `J` iterations of loop `k` have ended. -/
structure Placed (L : Loop n) (k J : ℕ) (id : Fin n) (tp : Thread) : Prop where
  loop : tp.loop = k ∨ tp.loop = k + 1 ∧ (tp.pc = .wait ∨ tp.pc = .lock)
  next : tp.pc = .wait ∨ tp.pc = .lock → tp.next = 0
  own : tp.loop = k → tp.pc ≠ .wait → tp.pc ≠ .lock →
    tp.next < L.count ∧ L.owner tp.next = id ∧ J ≤ tp.next
  begin : tp.pc = .begin → tp.loopId = L.index tp.next
  inside : tp.Inside → tp.next = J
  loaded : ∀ v, tp.pc = .loaded v → v = L.index J
  store : ∀ v, tp.pc = .store v → v = L.index (J + 1)

/-- Some thread has not entered loop `k`. -/
structure Entering (s : Team n) (k : ℕ) : Prop where
  outCount : s.outCount = countSet fun id => (s.thread id).entered k
  lt : s.outCount < n
  inFlags : ∀ id, s.inFlags id = (s.thread id).entered k
  wait : ∀ id, (s.thread id).loop = k + 1 → (s.thread id).pc = .wait

/-- All threads have entered loop `k`, and the flags are clear again. -/
structure AllEntered (s : Team n) (k : ℕ) : Prop where
  outCount : s.outCount = 0
  inFlags : ∀ id, s.inFlags id = false
  entered : ∀ id, (s.thread id).entered k = true

/-- The team runs loop `k`, of which the first `J` iterations have ended. -/
structure Round (L : Loop n) (s : Team n) (k J : ℕ) : Prop where
  placed : ∀ id, Placed L k J id (s.thread id)
  phase : Entering s k ∨ AllEntered s k
  value : (∃ id, (s.thread id).entered k = true) → s.orderedId = L.index J ∧ s.orderedStep = L.step
  ended : ∀ i < L.count, (s.thread (L.owner i)).Through k i ↔ i < J
  le : J ≤ L.count

section Round

variable {L : Loop n} {s : Team n} {k J : ℕ} {id : Fin n}

theorem Placed.loop_eq {tp : Thread} (h : Placed L k J id tp) (hwait : tp.pc ≠ .wait)
    (hlock : tp.pc ≠ .lock) : tp.loop = k := by
  obtain hl | ⟨-, hw | hw⟩ := h.loop
  · exact hl
  · exact absurd hw hwait
  · exact absurd hw hlock

theorem Thread.Inside.loop_eq {tp : Thread} (hin : tp.Inside) (h : Placed L k J id tp) :
    tp.loop = k := by
  apply h.loop_eq
  · intro hpc
    simp [Thread.Inside, hpc] at hin
  · intro hpc
    simp [Thread.Inside, hpc] at hin

theorem Placed.owner {tp : Thread} (h : Placed L k J id tp) (hin : tp.Inside) :
    L.owner J = id := by
  have hloop := hin.loop_eq h
  have hown := h.own hloop
    (by
      intro hpc
      simp [Thread.Inside, hpc] at hin)
    (by
      intro hpc
      simp [Thread.Inside, hpc] at hin)
  rw [← h.inside hin]
  exact hown.2.1

section Step

variable (h : Round L s k J)
include h

theorem Round.move {tp : Thread} (hloop : tp.loop = (s.thread id).loop)
    (hnext : tp.next = (s.thread id).next) (hent : tp.entered k = (s.thread id).entered k)
    (hwait : Entering s k → tp.loop = k + 1 → tp.pc = .wait) (htp : Placed L k J id tp) :
    Round L (s.set id tp) k J := by
  have hall : ∀ j, ((s.set id tp).thread j).entered k = (s.thread j).entered k := by
    intro j
    by_cases hj : j = id
    · simp [Team.set, hj, hent]
    · simp [Team.set, hj]
  constructor
  · intro j
    by_cases hj : j = id
    · subst hj
      simpa [Team.set] using htp
    · simpa [Team.set, hj] using h.placed j
  · obtain he | ha := h.phase
    · left
      constructor
      · simp only [hall]
        exact he.outCount
      · exact he.lt
      · simp only [hall]
        exact he.inFlags
      · intro j hj
        by_cases hji : j = id
        · subst hji
          simp only [Team.set, Function.update_self] at hj ⊢
          exact hwait he hj
        · simp only [Team.set, Function.update_of_ne hji] at hj ⊢
          exact he.wait j hj
    · right
      refine ⟨ha.outCount, ha.inFlags, ?_⟩
      simp only [hall]
      exact ha.entered
  · simp only [hall]
    exact h.value
  · intro i hi
    rw [← h.ended i hi]
    by_cases hj : L.owner i = id
    · simp [Team.set, hj, Thread.Through, hloop, hnext]
    · simp [Team.set, hj]
  · exact h.le

/-- A thread that waits for the next loop goes on when all threads have entered this one. -/
theorem Round.allEntered (hid : (s.thread id).loop = k + 1)
    (hgo : (s.thread id).pc = .lock ∨ s.inFlags id = false) : AllEntered s k := by
  obtain he | ha := h.phase
  · have hw := he.wait id hid
    have hf := he.inFlags id
    have hent : (s.thread id).entered k = true := by simp [Thread.entered, hid]
    rw [hw, hf, hent] at hgo
    simp at hgo
  · exact ha

theorem Round.wait (hpc : (s.thread id).pc = .wait) (hflag : s.inFlags id = false) :
    Round L (s.set id { s.thread id with pc := .lock }) k J := by
  have hp := h.placed id
  apply h.move
  · rfl
  · rfl
  · simp [Thread.entered, hpc]
  · intro he hl
    have hf := he.inFlags id
    simp only at hl
    simp [hflag, Thread.entered, hl] at hf
  · constructor
    · obtain hl | ⟨hl, -⟩ := hp.loop
      · exact Or.inl hl
      · exact Or.inr ⟨hl, Or.inr rfl⟩
    · intro _
      exact hp.next (Or.inl hpc)
    · simp
    · simp
    · simp [Thread.Inside]
    · simp
    · simp

theorem Round.set (hpc : (s.thread id).pc = .set) :
    Round L (s.set id { s.thread id with loopId := L.index (s.thread id).next, pc := .begin })
      k J := by
  have hp := h.placed id
  have hloop := hp.loop_eq (by simp [hpc]) (by simp [hpc])
  have hown := hp.own hloop (by simp [hpc]) (by simp [hpc])
  apply h.move
  · rfl
  · rfl
  · simp [Thread.entered, hpc]
  · intro _ hl
    simp only at hl
    omega
  · constructor
    · exact Or.inl hloop
    · simp
    · intro _ _ _
      exact hown
    · intro _
      rfl
    · simp [Thread.Inside]
    · simp
    · simp

theorem Round.begin (hpc : (s.thread id).pc = .begin)
    (heq : toULL (s.thread id).loopId = toULL s.orderedId) :
    Round L (s.set id { s.thread id with pc := .body }) k J := by
  have hp := h.placed id
  have hloop := hp.loop_eq (by simp [hpc]) (by simp [hpc])
  have hown := hp.own hloop (by simp [hpc]) (by simp [hpc])
  have hval := (h.value ⟨id, by simp [Thread.entered, hpc]⟩).1
  have hnext : (s.thread id).next = J := by
    rw [hp.begin hpc, hval] at heq
    exact Loop.index_inj hown.1 (by omega) heq
  apply h.move
  · rfl
  · rfl
  · simp [Thread.entered, hpc]
  · intro _ hl
    simp only at hl
    omega
  · constructor
    · exact Or.inl hloop
    · simp
    · intro _ _ _
      exact hown
    · simp
    · intro _
      exact hnext
    · simp
    · simp

theorem Round.load {pc : Pc} (hin : (s.thread id).Inside)
    (hin' : { s.thread id with pc := pc }.Inside)
    (hloaded : ∀ v, pc = .loaded v → v = L.index J)
    (hstore : ∀ v, pc = .store v → v = L.index (J + 1)) :
    Round L (s.set id { s.thread id with pc := pc }) k J := by
  have hp := h.placed id
  have hloop := hin.loop_eq hp
  have hne : (s.thread id).pc ≠ .wait ∧ (s.thread id).pc ≠ .lock := by
    constructor
    · intro hpc
      simp [Thread.Inside, hpc] at hin
    · intro hpc
      simp [Thread.Inside, hpc] at hin
  have hent : ∀ tp : Thread, tp.Inside → tp.entered k = true := by
    intro tp htp
    cases hpc : tp.pc <;> simp [Thread.Inside, Thread.entered, hpc] at htp ⊢
  apply h.move
  · rfl
  · rfl
  · rw [hent _ hin, hent _ hin']
  · intro _ hl
    simp only at hl
    omega
  · constructor
    · exact Or.inl hloop
    · intro hw
      obtain hw | hw := hw
      · simp only at hw
        simp [Thread.Inside, hw] at hin'
      · simp only at hw
        simp [Thread.Inside, hw] at hin'
    · intro _ _ _
      exact hp.own hloop hne.1 hne.2
    · intro hb
      simp only at hb
      simp [Thread.Inside, hb] at hin'
    · intro _
      exact hp.inside hin
    · exact hloaded
    · exact hstore

end Step

theorem exists_goOn {i : ℕ} (hloop : (s.thread id).loop = k)
    (hJ : ∀ j, i ≤ j → j < L.count → L.owner j = id → J ≤ j) :
    ∃ tp, s.goOn L id i = s.set id tp ∧ Placed L k J id tp ∧ tp.entered k = true ∧
      (tp.loop = k + 1 → tp.pc = .wait) ∧
      ∀ j < L.count, L.owner j = id → (tp.Through k j ↔ j < i) := by
  unfold Team.goOn
  cases hf : L.firstOwn id i with
  | some j =>
    obtain ⟨hj, hij, hown, hmin⟩ := Loop.firstOwn_some hf
    refine ⟨_, rfl, ?_, ?_, ?_, ?_⟩
    · constructor
      · exact Or.inl hloop
      · simp
      · intro _ _ _
        exact ⟨hj, hown, hJ j hij hj hown⟩
      · simp
      · simp [Thread.Inside]
      · simp
      · simp
    · simp [Thread.entered]
    · simp [hloop]
    · intro j' hj' hown'
      simp only [Thread.Through, hloop, lt_irrefl, true_and, false_or]
      constructor
      · intro hlt
        by_contra hc
        exact hmin j' (by omega) hlt hown'
      · intro hlt
        omega
  | none =>
    have hno := Loop.firstOwn_none hf
    refine ⟨_, rfl, ?_, ?_, ?_, ?_⟩
    · constructor
      · exact Or.inr ⟨by simp [hloop], Or.inl rfl⟩
      · simp
      · simp
      · simp
      · simp [Thread.Inside]
      · simp
      · simp
    · simp [Thread.entered, hloop]
    · simp
    · intro j' hj' hown'
      simp only [Thread.Through, hloop, Nat.lt_succ_self, true_or, true_iff]
      by_contra hc
      exact hno j' (by omega) hj' hown'

section Step

variable (h : Round L s k J)
include h

theorem Round.nothing_ended (hnone : ∀ id, (s.thread id).entered k = false) : J = 0 := by
  by_contra hJ
  have hthrough := (h.ended 0 (by have := h.le; omega)).mpr (by omega)
  have hp := h.placed (L.owner 0)
  have hent := hnone (L.owner 0)
  obtain hlt | ⟨hloop, hlt⟩ := hthrough
  · simp [Thread.entered, hlt] at hent
  · have hnext := hp.next
    cases hpc : (s.thread (L.owner 0)).pc <;> simp [Thread.entered, hpc] at hent hnext <;> omega

theorem Round.enter (hloop : (s.thread id).loop = k) (hpc : (s.thread id).pc = .lock) :
    Round L ((s.initOrdered L id).goOn L id 0) k J := by
  have hp := h.placed id
  have hent : (s.thread id).entered k = false := by simp [Thread.entered, hloop, hpc]
  have he : Entering s k := by
    obtain he | ha := h.phase
    · exact he
    · have := ha.entered id
      rw [hent] at this
      cases this
  have hthread := @Team.initOrdered_thread n L s id
  have hfresh : ∀ j < L.count, L.owner j = id → J ≤ j := by
    intro j hj hown
    by_contra hc
    have hthrough := (h.ended j hj).mpr (by omega)
    rw [hown] at hthrough
    obtain hlt | ⟨-, hlt⟩ := hthrough
    · omega
    · rw [hp.next (Or.inr hpc)] at hlt
      omega
  have hvalue : (s.initOrdered L id).orderedId = L.index J ∧
      (s.initOrdered L id).orderedStep = L.step := by
    by_cases h0 : s.outCount = 0
    · -- the first visitor
      have hJ : J = 0 := by
        apply h.nothing_ended
        intro j
        by_contra hj
        have := (countSet_pos_iff (f := fun i => (s.thread i).entered k)).mpr
          ⟨j, eq_true_of_ne_false hj⟩
        rw [← he.outCount] at this
        omega
      subst hJ
      simp only [Team.initOrdered, h0, if_true]
      split_ifs <;> simp [Loop.index]
    · have hsome : ∃ j, (s.thread j).entered k = true := by
        apply countSet_pos_iff.mp
        rw [← he.outCount]
        omega
      simp only [Team.initOrdered, h0, if_false]
      split_ifs <;> exact h.value hsome
  obtain ⟨tp, hgo, hplaced, hent', hwait, hthrough⟩ :=
    exists_goOn (s := s.initOrdered L id) (k := k) (by rw [hthread, hloop])
      (fun j _ => hfresh j)
  have hthread' : ((s.initOrdered L id).goOn L id 0).thread = Function.update s.thread id tp := by
    rw [hgo, Team.set, hthread]
  have hcount : (countSet fun j => (Function.update s.thread id tp j).entered k) =
    s.outCount + 1 := by
    rw [countSet_update_succ (p := Thread.entered k) hent hent', he.outCount]
  constructor
  · rw [hthread']
    intro j
    by_cases hj : j = id
    · subst hj
      simpa using hplaced
    · simpa [hj] using h.placed j
  · by_cases hlast : s.outCount + 1 = n
    · right
      obtain ⟨hout, hflags⟩ := @Team.initOrdered_last n L s id hlast
      constructor
      · rw [hgo]
        exact hout
      · intro j
        rw [hgo]
        exact hflags j
      · intro j
        rw [hthread']
        by_cases hj : j = id
        · rw [hj, Function.update_self]
          exact hent'
        · rw [Function.update_of_ne hj]
          apply set_of_countSet (f := fun i => (s.thread i).entered k) hent ?_ hj
          rw [← he.outCount, hlast, Fintype.card_fin]
    · left
      obtain ⟨hout, hflags⟩ := @Team.initOrdered_more n L s id hlast
      constructor
      · rw [hthread', hcount, hgo]
        exact hout
      · have hlt := he.lt
        rw [hgo]
        change (s.initOrdered L id).outCount < n
        omega
      · intro j
        rw [hthread', hgo]
        change (s.initOrdered L id).inFlags j = _
        rw [hflags]
        by_cases hj : j = id
        · simp [hj, hent']
        · simp [hj, he.inFlags]
      · intro j
        rw [hthread']
        by_cases hj : j = id
        · rw [hj, Function.update_self]
          exact hwait
        · rw [Function.update_of_ne hj]
          exact he.wait j
  · intro _
    rw [hgo]
    exact hvalue
  · intro i hi
    rw [hthread']
    by_cases hown : L.owner i = id
    · have hJ := hfresh i hi hown
      rw [hown, Function.update_self, hthrough i hi hown]
      omega
    · rw [Function.update_of_ne hown]
      exact h.ended i hi
  · exact h.le

theorem Round.store {v : ℤ} (hpc : (s.thread id).pc = .store v) :
    Round L ({ s with orderedId := v }.goOn L id ((s.thread id).next + 1)) k (J + 1) := by
  have hp := h.placed id
  have hloop := hp.loop_eq (by simp [hpc]) (by simp [hpc])
  have hin : (s.thread id).Inside := by simp [Thread.Inside, hpc]
  have hnext := hp.inside hin
  have hown := hp.own hloop (by simp [hpc]) (by simp [hpc])
  rw [hnext] at hown ⊢
  have hent : (s.thread id).entered k = true := by simp [Thread.entered, hpc]
  obtain ⟨tp, hgo, hplaced, hent', hwait, hthrough⟩ :=
    exists_goOn (s := { s with orderedId := v }) (J := J + 1) hloop
      (fun j hj _ _ => hj)
  rw [hgo]
  have hall : ∀ j, (Function.update s.thread id tp j).entered k = (s.thread j).entered k := by
    intro j
    by_cases hj : j = id
    · rw [hj, Function.update_self, hent', hent]
    · rw [Function.update_of_ne hj]
  constructor
  · intro j
    simp only [Team.set]
    by_cases hj : j = id
    · rw [hj, Function.update_self]
      exact hplaced
    · rw [Function.update_of_ne hj]
      have hpj := h.placed j
      have hout : ¬ (s.thread j).Inside := by
        intro hinj
        rw [hpj.owner hinj] at hown
        exact hj hown.2.1
      constructor
      · exact hpj.loop
      · exact hpj.next
      · intro hl h1 h2
        obtain ⟨h3, h4, h5⟩ := hpj.own hl h1 h2
        refine ⟨h3, h4, ?_⟩
        have hne : (s.thread j).next ≠ J := by
          intro hJ
          rw [hJ, hown.2.1] at h4
          exact hj h4.symm
        omega
      · exact hpj.begin
      · intro hinj
        exact absurd hinj hout
      · intro v' hv
        exact absurd (by simp [Thread.Inside, hv]) hout
      · intro v' hv
        exact absurd (by simp [Thread.Inside, hv]) hout
  · obtain he | ha := h.phase
    · left
      constructor
      · simp only [Team.set, hall]
        exact he.outCount
      · exact he.lt
      · simp only [Team.set, hall]
        exact he.inFlags
      · intro j
        simp only [Team.set]
        by_cases hj : j = id
        · rw [hj, Function.update_self]
          exact hwait
        · rw [Function.update_of_ne hj]
          exact he.wait j
    · right
      refine ⟨ha.outCount, ha.inFlags, ?_⟩
      simp only [Team.set, hall]
      exact ha.entered
  · intro _
    exact ⟨hp.store v hpc, (h.value ⟨id, hent⟩).2⟩
  · intro i hi
    simp only [Team.set]
    by_cases hi' : L.owner i = id
    · rw [hi', Function.update_self]
      exact hthrough i hi hi'
    · have hne : i ≠ J := by
        rintro rfl
        exact hi' hown.2.1
      rw [Function.update_of_ne hi', h.ended i hi]
      omega
  · omega

theorem Round.next (ha : AllEntered s k) (hall : ∀ id, (s.thread id).loop = k + 1)
    (hpos : 0 < n) (L' : Loop n) : Round L' s (k + 1) 0 := by
  have hpc : ∀ id, (s.thread id).pc = .wait ∨ (s.thread id).pc = .lock := by
    intro id
    obtain hl | ⟨-, hw⟩ := (h.placed id).loop
    · rw [hall] at hl
      omega
    · exact hw
  have hent : ∀ id, (s.thread id).entered (k + 1) = false := by
    intro id
    obtain hw | hw := hpc id <;> simp [Thread.entered, hall, hw]
  constructor
  · intro id
    constructor
    · exact Or.inl (hall id)
    · exact (h.placed id).next
    · intro _ h1 h2
      obtain hw | hw := hpc id
      · exact absurd hw h1
      · exact absurd hw h2
    · intro hb
      obtain hw | hw := hpc id <;> simp [hw] at hb
    · intro hin
      obtain hw | hw := hpc id <;> simp [Thread.Inside, hw] at hin
    · intro v hv
      obtain hw | hw := hpc id <;> simp [hw] at hv
    · intro v hv
      obtain hw | hw := hpc id <;> simp [hw] at hv
  · left
    constructor
    · rw [ha.outCount]
      simp [hent, countSet_none]
    · rw [ha.outCount]
      exact hpos
    · intro id
      rw [ha.inFlags, hent]
    · intro id hl
      rw [hall] at hl
      omega
  · rintro ⟨id, hid⟩
    rw [hent] at hid
    cases hid
  · intro i _
    have hnext := (h.placed (L'.owner i)).next (hpc (L'.owner i))
    simp [Thread.Through, hall, hnext]
  · exact Nat.zero_le _

end Step

end Round

/-! ## Loop after loop -/

section Run

variable {loops : ℕ → Loop n} {m : ℕ} {s s' : Team n} {id : Fin n}

theorem Round.step {k J : ℕ} (h : Round (loops k) s k J) (hs : step loops m id s = some s')
    (hgo : (s.thread id).loop = k ∨ (s.thread id).pc = .wait) :
    ∃ J', Round (loops k) s' k J' := by
  have hp := h.placed id
  obtain ⟨-, hcase⟩ := step_cases hs
  by_cases hw : (s.thread id).pc = .wait
  · obtain ⟨-, hflag, rfl⟩ | ⟨hpc, -⟩ | ⟨hpc, -⟩ | ⟨hpc, -⟩ | ⟨hpc, -⟩ | ⟨v, hpc, -⟩ |
      ⟨v, hpc, -⟩ :=
      hcase
    · exact ⟨J, h.wait hw hflag⟩
    all_goals
      rw [hw] at hpc
      cases hpc
  · have hl := hgo.resolve_right hw
    rw [hl] at hcase
    obtain ⟨hpc, -⟩ | ⟨hpc, rfl⟩ | ⟨hpc, rfl⟩ | ⟨hpc, heq, rfl⟩ | ⟨hpc, rfl⟩ | ⟨v, hpc, rfl⟩ |
      ⟨v, hpc, rfl⟩ := hcase
    · exact absurd hpc hw
    · exact ⟨J, h.enter hl hpc⟩
    · exact ⟨J, h.set hpc⟩
    · exact ⟨J, h.begin hpc heq⟩
    · have hval := (h.value ⟨id, by simp [Thread.entered, hpc]⟩).1
      refine ⟨J, h.load (by simp [Thread.Inside, hpc]) (by simp [Thread.Inside]) ?_ (by simp)⟩
      intro v hv
      cases hv
      exact hval
    · have hval := (h.value ⟨id, by simp [Thread.entered, hpc]⟩).2
      refine ⟨J, h.load (by simp [Thread.Inside, hpc]) (by simp [Thread.Inside]) (by simp) ?_⟩
      intro v' hv
      cases hv
      rw [hval, hp.loaded v hpc, Loop.index, Loop.index]
      push_cast
      ring
    · exact ⟨J + 1, h.store hpc⟩

theorem Round.run_step (hn : 0 < n) (hok : StartsAlone id s)
    (hs : Ordered.step loops m id s = some s')
    (h : ∃ k J, Round (loops k) s k J) : ∃ k J, Round (loops k) s' k J := by
  obtain ⟨k, J, h⟩ := h
  by_cases hgo : (s.thread id).loop = k ∨ (s.thread id).pc = .wait
  · obtain ⟨J', hr⟩ := h.step hs hgo
    exact ⟨k, J', hr⟩
  · -- the first thread to start the next loop
    rw [not_or] at hgo
    obtain ⟨hl, hw⟩ := (h.placed id).loop.resolve_left hgo.1
    have hpc := hw.resolve_left hgo.2
    have ha := h.allEntered hl (Or.inl hpc)
    have hall : ∀ j, (s.thread j).loop = k + 1 := by
      intro j
      have hle := hok hpc ha.outCount j
      obtain hj | ⟨hj, -⟩ := (h.placed j).loop <;> omega
    obtain ⟨J', hr⟩ := (h.next ha hall hn (loops (k + 1))).step hs (Or.inl hl)
    exact ⟨k + 1, J', hr⟩

theorem Round.ofStart (hn : 0 < n) (h : Start s) : Round (loops 0) s 0 0 := by
  have hent : ∀ id, (s.thread id).entered 0 = false := by
    intro id
    simp [Thread.entered, h.loop, h.pc]
  constructor
  · intro id
    constructor
    · exact Or.inl (h.loop id)
    · intro _
      exact h.next id
    · intro _ hw
      exact absurd (h.pc id) hw
    · simp [h.pc]
    · simp [Thread.Inside, h.pc]
    · simp [h.pc]
    · simp [h.pc]
  · left
    constructor
    · simp [hent, countSet_none, h.outCount]
    · rw [h.outCount]
      exact hn
    · intro id
      rw [h.inFlags, hent]
    · intro id _
      exact h.pc id
  · rintro ⟨id, hid⟩
    rw [hent] at hid
    cases hid
  · intro i _
    simp [Thread.Through, h.loop, h.next]
  · exact Nat.zero_le _

theorem Round.inOrder {k J : ℕ} (h : Round (loops k) s k J) : InOrder loops s := by
  intro k' id hk' hin
  have hp := h.placed id
  obtain rfl : k = k' := (hin.loop_eq hp).symm.trans hk'
  constructor
  · intro j _ hinj
    rw [← (h.placed j).owner hinj]
    exact hp.owner hin
  · intro i hi
    rw [hp.inside hin] at hi
    exact (h.ended i (hi.trans_le h.le)).mpr hi

/-- If every loop is started by a thread that finds all others through with the loops before it,
the ordered regions of a loop are entered one at a time and in the order of its iterations. -/
theorem ordered_inOrder (hn : 2 ≤ n) (h : ReachableIf Start StartsAlone (step loops m) s) :
    InOrder loops s := by
  have hinv : ∃ k J, Round (loops k) s k J := by
    apply ReachableIf.invariant h
    · intro s hs
      exact ⟨0, 0, Round.ofStart (by omega) hs⟩
    · intro id s s' hr hok hs
      exact Round.run_step (by omega) hok hs hr
  obtain ⟨k, J, hr⟩ := hinv
  exact hr.inOrder

end Run

/-- Two loops of three iterations, one for each thread; the second starts at 2. -/
def threeEach (k : ℕ) : Loop 3 where
  lb := 2 * (k % 2 : ℕ)
  step := 1
  count := 3
  owner i := Fin.ofNat 3 i
  step_ne := one_ne_zero
  inLL i hi := by
    constructor <;> omega

def startOf (n : ℕ) : Team n where
  inFlags _ := false
  outCount := 0
  orderedId := 0
  orderedStep := 0
  thread _ := { loop := 0, next := 0, pc := .wait, loopId := 0 }

theorem start_startOf (n : ℕ) : Start (startOf n) :=
  ⟨fun _ => rfl, rfl, fun _ => rfl, fun _ => rfl, fun _ => rfl⟩

instance (tp : Thread) : Decidable tp.Inside := by
  unfold Thread.Inside
  split <;> infer_instance

/-- Thread 0 ends iteration 0, thread 1 enters iteration 1, thread 0 starts the second loop. -/
theorem ordered_two_inside : ∃ s : Team 3, Reachable Start (step threeEach 2) s ∧
    (s.thread 1).loop = 0 ∧ (s.thread 1).Inside ∧ (s.thread 2).loop = 0 ∧ (s.thread 2).Inside ∧
      (s.thread 2).next = 2 ∧ ¬ Ended threeEach s 0 1 := by
  refine ⟨_, reachable_of_run [0, 0, 1, 1, 2, 2, 0, 0, 0, 0, 0, 1, 1, 0, 0, 2, 2] (start_startOf 3)
    rfl, by decide, by decide, by decide, by decide, by decide, ?_⟩
  simp [Ended]
  decide

def secondLoopRun : List (Fin 3) :=
  [0, 0, 1, 1, 2, 2, 0, 0, 0, 0, 0, 1, 1, 1, 1, 1, 2, 2, 2, 2, 2,
    0, 0, 1, 1, 2, 2, 0, 0, 0, 0, 0, 1, 1]

theorem ordered_inOrder_three : ∃ s : Team 3,
    ReachableIf Start StartsAlone (step threeEach 2) s ∧ (s.thread 1).loop = 1 ∧
      (s.thread 1).Inside ∧ InOrder threeEach s :=
  ⟨_, reachableIf_of_run secondLoopRun (start_startOf 3) rfl, by decide, by decide,
    ordered_inOrder (m := 2) (by decide) (reachableIf_of_run secondLoopRun (start_startOf 3) rfl)⟩

end OmniCompiler.Omp.Ordered
