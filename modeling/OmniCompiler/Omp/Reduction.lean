import Mathlib.Algebra.BigOperators.Fin
import Mathlib.Data.BitVec
import Mathlib.Data.List.FinRange
import OmniCompiler.Concurrency.Interleaving

/-!
# Reductions (`ompc_runtime.c`)

Every thread of a team stores its private value, meets the others in a barrier,
and waits in a second one while thread `0` folds the values into the shared
variable. The macros `DO_REDUCTION_INTEGRAL` and `DO_REDUCTION_COMPLEX` hold the
same switch over the operators for different types; the complex one subtracts
where the integral one adds. The barrier is that of `ompc_thread_barrier`: a
thread leaves it once all threads have entered.
-/
namespace OmniCompiler.Omp.Reduction

open Interleaving

/-- `OMPC_REDUCTION_PLUS` to `OMPC_REDUCTION_IEOR`. -/
inductive Op where
  | plus
  | minus
  | mul
  | logand
  | logor
  | min
  | max
  | bitand
  | bitor
  | bitxor
  | logeqv
  | logneqv
  | iand
  | ior
  | ieor
  deriving DecidableEq

/-- The type codes of `ompc_reduction`; `other` are those it does not know. -/
inductive ReductionType where
  | char
  | unsignedChar
  | short
  | unsignedShort
  | signed
  | int
  | unsignedInt
  | long
  | unsignedLong
  | longlong
  | unsignedLonglong
  | float
  | double
  | longDouble
  | floatComplex
  | doubleComplex
  | longDoubleComplex
  | other
  deriving DecidableEq

inductive Kind where
  | integral (w : ℕ) (signed : Bool)
  | float
  | complex
  deriving DecidableEq

/-- `switch(type)`; `none` is `bad type`. -/
def reductionKind : ReductionType → Option Kind
  | .char => some (.integral 8 true)
  | .unsignedChar => some (.integral 8 false)
  | .short => some (.integral 16 true)
  | .unsignedShort => some (.integral 16 false)
  | .signed => some (.integral 32 true)
  | .int => some (.integral 32 true)
  | .unsignedInt => some (.integral 32 false)
  | .long => some (.integral 64 true)
  | .unsignedLong => some (.integral 64 false)
  | .longlong => some (.integral 64 true)
  | .unsignedLonglong => some (.integral 64 false)
  | .float => some .float
  | .double => some .float
  | .longDouble => some .float
  | .floatComplex => some .complex
  | .doubleComplex => some .complex
  | .longDoubleComplex => some .complex
  | .other => none

/-- What one turn of a fold loop does: it goes on, or leaves the loop by `break`. -/
inductive Turn (α : Type) where
  | next (v : α)
  | done (v : α)

/-- `switch(op)` of a macro: the test in front of the loop that skips it, and the loop's body;
`none` is `bad op`. -/
structure DoReduction (α : Type) where
  skip : Op → α → Bool
  body : Op → α → α → Option (Turn α)

/-- `x > y` in the type. -/
def greater {w : ℕ} (signed : Bool) (x y : BitVec w) : Bool :=
  if signed then y.slt x else y.ult x

def doReductionIntegral (w : ℕ) (signed : Bool) : DoReduction (BitVec w) where
  skip op v :=
    match op with
    | .logand => v == 0#w
    | .logor => v != 0#w
    | _ => false
  body op v x :=
    match op with
    | .plus => some (.next (v + x))
    | .minus => some (.next (v + x))
    | .mul => some (.next (v * x))
    | .bitand => some (.next (v &&& x))
    | .bitor => some (.next (v ||| x))
    | .bitxor => some (.next (v ^^^ x))
    | .logand => some (if x = 0#w then .done 0#w else .next v)
    | .logor => some (if x ≠ 0#w then .done 1#w else .next v)
    | .min => some (.next (if greater signed v x then x else v))
    | .max => some (.next (if greater signed x v then x else v))
    | _ => none

def doReductionComplex (R : Type) [CommRing R] : DoReduction R where
  skip _ _ := false
  body op v x :=
    match op with
    | .plus => some (.next (v - x))
    | .minus => some (.next (v - x))
    | .mul => some (.next (v * x))
    | _ => none

/-! ## The team -/

/-- Where a thread is; `reduce` holds the values still to be read and the value so far. -/
inductive Pc (n : ℕ) (α : Type) where
  | store
  | barrier1
  | reduce (rest : List (Fin n)) (v : α)
  | barrier2
  | returned

def Pc.arrived {n : ℕ} {α : Type} : Pc n α → Bool
  | .store => false
  | _ => true

def Pc.started {n : ℕ} {α : Type} : Pc n α → Bool
  | .store => false
  | .barrier1 => false
  | _ => true

/-- The thread has entered the second barrier. -/
def Pc.finished {n : ℕ} {α : Type} : Pc n α → Bool
  | .barrier2 => true
  | .returned => true
  | _ => false

structure State (n : ℕ) (α : Type) where
  vals : Fin n → α
  out : α
  updated : Bool
  pc : Fin n → Pc n α

variable {n : ℕ} {α : Type}

def State.goto (s : State n α) (id : Fin n) (pc : Pc n α) : State n α :=
  { s with pc := Function.update s.pc id pc }

/-- The next access to shared memory of thread `id`. -/
def step (m : DoReduction α) (op : Op) (priv : Fin n → α) (id : Fin n) (s : State n α) :
    Option (State n α) :=
  match s.pc id with
  | .store => some { s.goto id .barrier1 with vals := Function.update s.vals id (priv id) }
  | .barrier1 =>
    if ∀ j, (s.pc j).arrived then
      some (s.goto id (if id.val = 0 then
        .reduce (if m.skip op s.out then [] else List.finRange n) s.out else .barrier2))
    else none
  | .reduce [] v => some { s.goto id .barrier2 with out := v, updated := true }
  | .reduce (i :: rest) v =>
    match m.body op v (s.vals i) with
    | none => none
    | some (.next v') => some (s.goto id (.reduce rest v'))
    | some (.done v') => some (s.goto id (.reduce [] v'))
  | .barrier2 => if ∀ j, (s.pc j).finished then some (s.goto id .returned) else none
  | .returned => none

/-- The threads are about to call; `vals` holds what earlier reductions left. -/
def Start (initial : α) (s : State n α) : Prop :=
  s.out = initial ∧ s.updated = false ∧ ∀ id, s.pc id = .store

/-- The loop over the remaining values. -/
def DoReduction.loop (m : DoReduction α) (op : Op) : α → List α → Option α
  | v, [] => some v
  | v, x :: xs =>
    match m.body op v x with
    | none => none
    | some (.next v') => m.loop op v' xs
    | some (.done v') => some v'

/-- What thread `0` stores. -/
def DoReduction.value (m : DoReduction α) (op : Op) (v : α) (xs : List α) : Option α :=
  if m.skip op v then some v else m.loop op v xs

/-- The position of thread `0` tells how far the fold is. -/
def MasterOk (m : DoReduction α) (op : Op) (priv : Fin n → α) (initial result : α)
    (s : State n α) : Pc n α → Prop
  | .store => s.out = initial ∧ s.updated = false
  | .barrier1 => s.out = initial ∧ s.updated = false
  | .reduce rest v => s.updated = false ∧ m.loop op v (rest.map priv) = some result
  | .barrier2 => s.updated = true ∧ s.out = result
  | .returned => s.updated = true ∧ s.out = result

structure Inv (m : DoReduction α) (op : Op) (priv : Fin n → α) (initial result : α)
    (s : State n α) : Prop where
  vals : ∀ i, (s.pc i).arrived → s.vals i = priv i
  master : ∀ i : Fin n, i.val = 0 → MasterOk m op priv initial result s (s.pc i)
  slave : ∀ i : Fin n, i.val ≠ 0 → (s.pc i).started → (s.pc i).finished
  arrived : ∀ i, (s.pc i).started → ∀ j, (s.pc j).arrived
  finished : ∀ i, s.pc i = .returned → ∀ j, (s.pc j).finished

variable {m : DoReduction α} {op : Op} {priv : Fin n → α} {initial result : α} {s s' : State n α}
  {id : Fin n}

theorem goto_pc_self (pc : Pc n α) : (s.goto id pc).pc id = pc := Function.update_self ..

theorem goto_pc_of_ne {pc : Pc n α} {j : Fin n} (h : j ≠ id) : (s.goto id pc).pc j = s.pc j :=
  Function.update_of_ne h ..

inductive StepTo (m : DoReduction α) (op : Op) (priv : Fin n → α) (id : Fin n) (s : State n α) :
    State n α → Prop
  | enter : s.pc id = .store → StepTo m op priv id s
      { s.goto id .barrier1 with vals := Function.update s.vals id (priv id) }
  | wait : s.pc id = .barrier1 → (∀ j, (s.pc j).arrived) → id.val ≠ 0 →
      StepTo m op priv id s (s.goto id .barrier2)
  | begin : s.pc id = .barrier1 → (∀ j, (s.pc j).arrived) → id.val = 0 →
      StepTo m op priv id s
        (s.goto id (.reduce (if m.skip op s.out then [] else List.finRange n) s.out))
  | next {i : Fin n} {rest : List (Fin n)} {v v' : α} : s.pc id = .reduce (i :: rest) v →
      m.body op v (s.vals i) = some (.next v') →
      StepTo m op priv id s (s.goto id (.reduce rest v'))
  | done {i : Fin n} {rest : List (Fin n)} {v v' : α} : s.pc id = .reduce (i :: rest) v →
      m.body op v (s.vals i) = some (.done v') →
      StepTo m op priv id s (s.goto id (.reduce [] v'))
  | write {v : α} : s.pc id = .reduce [] v →
      StepTo m op priv id s { s.goto id .barrier2 with out := v, updated := true }
  | leave : s.pc id = .barrier2 → (∀ j, (s.pc j).finished) →
      StepTo m op priv id s (s.goto id .returned)

theorem stepTo_of_step (h : step m op priv id s = some s') : StepTo m op priv id s s' := by
  rw [step] at h
  split at h
  · next hpc =>
    cases h
    exact .enter hpc
  · next hpc =>
    by_cases hall : ∀ j, (s.pc j).arrived
    · rw [if_pos hall] at h
      cases h
      by_cases hid : id.val = 0
      · rw [if_pos hid]
        exact .begin hpc hall hid
      · rw [if_neg hid]
        exact .wait hpc hall hid
    · rw [if_neg hall] at h
      cases h
  · next v hpc =>
    cases h
    exact .write hpc
  · next i rest v hpc =>
    split at h
    · cases h
    · next v' hbody =>
      cases h
      exact .next hpc hbody
    · next v' hbody =>
      cases h
      exact .done hpc hbody
  · next hpc =>
    by_cases hall : ∀ j, (s.pc j).finished
    · rw [if_pos hall] at h
      cases h
      exact .leave hpc hall
    · rw [if_neg hall] at h
      cases h
  · cases h

theorem inv_start (h : Start initial s) : Inv m op priv initial result s := by
  obtain ⟨hout, hupdated, hpc⟩ := h
  refine ⟨?_, ?_, ?_, ?_, ?_⟩
  · intro i hi
    simp [hpc i, Pc.arrived] at hi
  · intro i _
    rw [hpc i]
    exact ⟨hout, hupdated⟩
  · intro i _ hi
    simp [hpc i, Pc.started] at hi
  · intro i hi
    simp [hpc i, Pc.started] at hi
  · intro i hi
    simp [hpc i] at hi

/-! ## Moves of one thread keep the invariant -/

theorem Pc.arrived_of_started {pc : Pc n α} (h : pc.started) : pc.arrived := by
  cases pc with
  | store => cases h
  | barrier1 => rfl
  | reduce rest v => rfl
  | barrier2 => rfl
  | returned => rfl

theorem Pc.started_of_finished {pc : Pc n α} (h : pc.finished) : pc.started := by
  cases pc with
  | store => cases h
  | barrier1 => cases h
  | reduce rest v => cases h
  | barrier2 => rfl
  | returned => rfl

theorem MasterOk.congr {pc : Pc n α} (h : MasterOk m op priv initial result s pc)
    (hout : s'.out = s.out) (hupdated : s'.updated = s.updated) :
    MasterOk m op priv initial result s' pc := by
  cases pc with
  | store => exact ⟨hout ▸ h.1, hupdated ▸ h.2⟩
  | barrier1 => exact ⟨hout ▸ h.1, hupdated ▸ h.2⟩
  | reduce rest v => exact ⟨hupdated ▸ h.1, h.2⟩
  | barrier2 => exact ⟨hupdated ▸ h.1, hout ▸ h.2⟩
  | returned => exact ⟨hupdated ▸ h.1, hout ▸ h.2⟩

/-- Once all threads have entered the first barrier, a thread moves on to `pc`. -/
theorem Inv.move (hi : Inv m op priv initial result s) (pc : Pc n α)
    (hall : ∀ j, (s.pc j).arrived) (hvals : s'.vals = s.vals)
    (hpc : s'.pc = Function.update s.pc id pc) (harr : pc.arrived)
    (hmaster : id.val = 0 → MasterOk m op priv initial result s' pc)
    (hslave : id.val ≠ 0 → pc.finished ∧ s'.out = s.out ∧ s'.updated = s.updated)
    (hkeep : (s.pc id).finished → pc.finished)
    (hret : pc = .returned → ∀ j, (s.pc j).finished) : Inv m op priv initial result s' := by
  have hself : s'.pc id = pc := by rw [hpc, Function.update_self]
  have hother : ∀ j, j ≠ id → s'.pc j = s.pc j := by
    intro j hj
    rw [hpc, Function.update_of_ne hj]
  have harrived : ∀ j, (s'.pc j).arrived := by
    intro j
    by_cases hj : j = id
    · rwa [hj, hself]
    · rw [hother j hj]
      exact hall j
  refine ⟨?_, ?_, ?_, ?_, ?_⟩
  · intro i _
    rw [hvals]
    exact hi.vals i (hall i)
  · intro i h0
    by_cases hid : i = id
    · subst hid
      rw [hself]
      exact hmaster h0
    · have hne : id.val ≠ 0 := fun h => hid (Fin.ext (h0.trans h.symm))
      rw [hother i hid]
      exact (hi.master i h0).congr (hslave hne).2.1 (hslave hne).2.2
  · intro i h0 hstart
    by_cases hid : i = id
    · subst hid
      rw [hself]
      exact (hslave h0).1
    · rw [hother i hid] at hstart ⊢
      exact hi.slave i h0 hstart
  · exact fun _ _ => harrived
  · intro i hret' j
    have hfin : ∀ k, (s.pc k).finished := by
      by_cases hid : i = id
      · rw [hid, hself] at hret'
        exact hret hret'
      · rw [hother i hid] at hret'
        exact hi.finished i hret'
    by_cases hj : j = id
    · rw [hj, hself]
      exact hkeep (hfin id)
    · rw [hother j hj]
      exact hfin j

theorem Inv.enter (hi : Inv m op priv initial result s) (hpc : s.pc id = .store) :
    Inv m op priv initial result
      { s.goto id .barrier1 with vals := Function.update s.vals id (priv id) } := by
  -- nobody has left the first barrier, since this thread had not entered it
  have hnone : ∀ j, (s.pc j).started = false := by
    intro j
    by_contra h
    have := hi.arrived j (by simpa using h) id
    rw [hpc] at this
    cases this
  have hpcs : ∀ j, (Function.update s.pc id .barrier1 j).started = false := by
    intro j
    by_cases hj : j = id
    · rw [hj, Function.update_self]
      rfl
    · rw [Function.update_of_ne hj]
      exact hnone j
  have habsurd : ∀ {j : Fin n} {P : Prop},
      (Function.update s.pc id .barrier1 j).started = true → P := by
    intro j P h
    rw [hpcs j] at h
    cases h
  refine ⟨?_, ?_, fun i _ h => habsurd h, fun i h => habsurd h, ?_⟩
  · intro i harr
    by_cases hj : i = id
    · subst hj
      exact Function.update_self ..
    · have harr : (s.pc i).arrived := by
        have hkeep : (s.goto id .barrier1).pc i = s.pc i := goto_pc_of_ne hj
        exact hkeep ▸ harr
      exact (Function.update_of_ne hj ..).trans (hi.vals i harr)
  · intro i h0
    by_cases hj : i = id
    · subst hj
      have hm := hi.master i h0
      rw [hpc] at hm
      dsimp only
      rw [goto_pc_self]
      exact hm
    · dsimp only
      rw [goto_pc_of_ne hj]
      exact (hi.master i h0).congr rfl rfl
  · intro i hret
    exact habsurd (j := i) (by
      have : Function.update s.pc id .barrier1 i = .returned := hret
      rw [this]
      rfl)

theorem inv_step (hresult : m.value op initial (List.ofFn priv) = some result)
    (hi : Inv m op priv initial result s) (h : step m op priv id s = some s') :
    Inv m op priv initial result s' := by
  -- a thread inside the fold is thread `0`, and all values have been stored
  have hreduce : ∀ {rest : List (Fin n)} {v : α}, s.pc id = .reduce rest v →
      id.val = 0 ∧ (∀ j, (s.pc j).arrived) ∧ s.updated = false ∧
        m.loop op v (rest.map priv) = some result := by
    intro rest v hpc
    have h0 : id.val = 0 := by
      by_contra h0
      have := hi.slave id h0 (by rw [hpc]; rfl)
      rw [hpc] at this
      cases this
    have hm := hi.master id h0
    rw [hpc] at hm
    exact ⟨h0, hi.arrived id (by rw [hpc]; rfl), hm⟩
  cases stepTo_of_step h with
  | enter hpc => exact hi.enter hpc
  | wait hpc hall hid =>
    refine hi.move .barrier2 hall rfl rfl rfl (fun h0 => absurd h0 hid) (fun _ => ⟨rfl, rfl, rfl⟩)
      ?_ ?_
    · exact fun _ => rfl
    · exact fun h => by cases h
  | begin hpc hall hid =>
    have hm := hi.master id hid
    rw [hpc] at hm
    refine hi.move _ hall rfl rfl rfl ?_ (fun h0 => absurd hid h0) ?_ ?_
    · intro _
      refine ⟨hm.2, ?_⟩
      rw [DoReduction.value] at hresult
      rw [hm.1]
      split_ifs at hresult ⊢ with hskip
      · exact hresult
      · rw [← List.ofFn_eq_map]
        exact hresult
    · rw [hpc]
      exact fun h => by cases h
    · exact fun h => by cases h
  | @next i rest v v' hpc hbody =>
    obtain ⟨h0, hall, hupdated, hloop⟩ := hreduce hpc
    refine hi.move _ hall rfl rfl rfl ?_ (fun hne => absurd h0 hne) ?_ ?_
    · intro _
      rw [hi.vals i (hall i)] at hbody
      rw [List.map_cons, DoReduction.loop, hbody] at hloop
      exact ⟨hupdated, hloop⟩
    · rw [hpc]
      exact fun h => by cases h
    · exact fun h => by cases h
  | @done i rest v v' hpc hbody =>
    obtain ⟨h0, hall, hupdated, hloop⟩ := hreduce hpc
    refine hi.move _ hall rfl rfl rfl ?_ (fun hne => absurd h0 hne) ?_ ?_
    · intro _
      rw [hi.vals i (hall i)] at hbody
      rw [List.map_cons, DoReduction.loop, hbody] at hloop
      exact ⟨hupdated, hloop⟩
    · rw [hpc]
      exact fun h => by cases h
    · exact fun h => by cases h
  | write hpc =>
    obtain ⟨h0, hall, -, hloop⟩ := hreduce hpc
    refine hi.move .barrier2 hall rfl rfl rfl ?_ (fun hne => absurd h0 hne) ?_ ?_
    · exact fun _ => ⟨rfl, Option.some.inj hloop⟩
    · exact fun _ => rfl
    · exact fun h => by cases h
  | leave hpc hall =>
    have harr : ∀ j, (s.pc j).arrived := fun j =>
      Pc.arrived_of_started (Pc.started_of_finished (hall j))
    refine hi.move .returned harr rfl rfl rfl ?_ (fun _ => ⟨rfl, rfl, rfl⟩) (fun _ => rfl)
      fun _ => hall
    intro h0
    have hm := hi.master id h0
    rw [hpc] at hm
    exact hm

/-! ## Every call returns -/

def Pc.remaining : Pc n α → ℕ
  | .store => n + 4
  | .barrier1 => n + 3
  | .reduce rest _ => rest.length + 2
  | .barrier2 => 1
  | .returned => 0

def remaining (s : State n α) : ℕ := ∑ i, (s.pc i).remaining

theorem remaining_lt {pc : Pc n α} (hpc : s'.pc = Function.update s.pc id pc)
    (h : pc.remaining < (s.pc id).remaining) : remaining s' < remaining s := by
  apply Finset.sum_lt_sum
  · intro i _
    by_cases hid : i = id
    · rw [hid, hpc, Function.update_self]
      exact h.le
    · rw [hpc, Function.update_of_ne hid]
  · exact ⟨id, Finset.mem_univ id, by rwa [hpc, Function.update_self]⟩

theorem step_remaining (h : step m op priv id s = some s') : remaining s' < remaining s := by
  cases stepTo_of_step h with
  | enter hpc => exact remaining_lt rfl (by rw [hpc]; simp [Pc.remaining])
  | wait hpc => exact remaining_lt rfl (by rw [hpc]; simp [Pc.remaining])
  | begin hpc =>
    apply remaining_lt rfl
    rw [hpc, Pc.remaining, Pc.remaining]
    split_ifs
    · simp
    · simp
  | next hpc => exact remaining_lt rfl (by rw [hpc]; simp [Pc.remaining])
  | done hpc => exact remaining_lt rfl (by rw [hpc]; simp [Pc.remaining])
  | write hpc => exact remaining_lt rfl (by rw [hpc]; simp [Pc.remaining])
  | leave hpc => exact remaining_lt rfl (by rw [hpc]; simp [Pc.remaining])

theorem exists_step (hi : Inv m op priv initial result s) (h : ¬ ∀ i, s.pc i = .returned) :
    ∃ id s', step m op priv id s = some s' := by
  push Not at h
  obtain ⟨i, hne⟩ := h
  by_cases harr : ∀ j, (s.pc j).arrived
  · by_cases hfin : ∀ j, (s.pc j).finished
    · -- all wait in the second barrier or have left it
      have hpc : s.pc i = .barrier2 := by
        have := hfin i
        cases hp : s.pc i with
        | store => rw [hp] at this; cases this
        | barrier1 => rw [hp] at this; cases this
        | reduce rest v => rw [hp] at this; cases this
        | barrier2 => rfl
        | returned => exact absurd hp hne
      exact ⟨i, s.goto i .returned, by rw [step, hpc]; exact if_pos hfin⟩
    · push Not at hfin
      obtain ⟨j, hj⟩ := hfin
      cases hp : s.pc j with
      | store =>
        have := harr j
        rw [hp] at this
        cases this
      | barrier1 => exact ⟨j, _, by rw [step, hp]; exact if_pos harr⟩
      | reduce rest v =>
        have h0 : j.val = 0 := by
          by_contra h0
          exact hj (hi.slave j h0 (by rw [hp]; rfl))
        have hm := hi.master j h0
        rw [hp] at hm
        cases rest with
        | nil => exact ⟨j, _, by rw [step, hp]⟩
        | cons k rest =>
          have hloop := hm.2
          rw [List.map_cons, DoReduction.loop, ← hi.vals k (harr k)] at hloop
          cases hbody : m.body op v (s.vals k) with
          | none => rw [hbody] at hloop; cases hloop
          | some turn =>
            cases turn with
            | next v' => exact ⟨j, _, by rw [step, hp]; dsimp only; rw [hbody]⟩
            | done v' => exact ⟨j, _, by rw [step, hp]; dsimp only; rw [hbody]⟩
      | barrier2 => rw [hp] at hj; exact absurd rfl hj
      | returned => rw [hp] at hj; exact absurd rfl hj
  · push Not at harr
    obtain ⟨j, hj⟩ := harr
    have hpc : s.pc j = .store := by
      cases hp : s.pc j with
      | store => rfl
      | barrier1 => rw [hp] at hj; exact absurd rfl hj
      | reduce rest v => rw [hp] at hj; exact absurd rfl hj
      | barrier2 => rw [hp] at hj; exact absurd rfl hj
      | returned => rw [hp] at hj; exact absurd rfl hj
    exact ⟨j, _, by rw [step, hpc]⟩

/-- The team computes `result`: no thread returns before the shared variable is stored, it is
then `result`, and every run can be continued until all have returned. -/
structure Leaves (m : DoReduction α) (op : Op) (priv : Fin n → α) (initial result : α) : Prop where
  after_update : ∀ s, Reachable (Start initial) (step m op priv) s →
    ∀ i, s.pc i = .returned → s.updated = true
  result : ∀ s, Reachable (Start initial) (step m op priv) s → s.updated = true → s.out = result
  returns : ∀ s, Reachable (Start initial) (step m op priv) s →
    ∃ ids s', run (step m op priv) ids s = some s' ∧ ∀ i, s'.pc i = .returned

theorem inv_of_reachable (hvalue : m.value op initial (List.ofFn priv) = some result)
    (h : Reachable (Start initial) (step m op priv) s) : Inv m op priv initial result s :=
  h.invariant (fun _ hs => inv_start hs) fun _ _ _ hi hs => inv_step hvalue hi hs

theorem leaves_iff (hn : 0 < n) {value : α}
    (hvalue : m.value op initial (List.ofFn priv) = some value) :
    Leaves m op priv initial result ↔ value = result := by
  have hfinal : ∀ s, Reachable (Start initial) (step m op priv) s →
      ∃ ids s', run (step m op priv) ids s = some s' ∧
        Reachable (Start initial) (step m op priv) s' ∧ ∀ i, s'.pc i = .returned := by
    intro s hs
    exact exists_final (fun t ht hne => exists_step (inv_of_reachable hvalue ht) hne)
      (fun t id t' _ hstep => step_remaining hstep) hs
  have hupdated : ∀ s, Reachable (Start initial) (step m op priv) s →
      ∀ i, s.pc i = .returned → s.updated = true := by
    intro s hs i hi
    have hinv := inv_of_reachable hvalue hs
    have hm := hinv.master ⟨0, hn⟩ rfl
    have hfin := hinv.finished i hi ⟨0, hn⟩
    cases hp : s.pc ⟨0, hn⟩ with
    | store => rw [hp] at hfin; cases hfin
    | barrier1 => rw [hp] at hfin; cases hfin
    | reduce rest v => rw [hp] at hfin; cases hfin
    | barrier2 => rw [hp] at hm; exact hm.1
    | returned => rw [hp] at hm; exact hm.1
  have hout : ∀ s, Reachable (Start initial) (step m op priv) s → s.updated = true →
      s.out = value := by
    intro s hs hu
    have hm := (inv_of_reachable hvalue hs).master ⟨0, hn⟩ rfl
    cases hp : s.pc ⟨0, hn⟩ with
    | store => rw [hp] at hm; simp [hm.2] at hu
    | barrier1 => rw [hp] at hm; simp [hm.2] at hu
    | reduce rest v => rw [hp] at hm; simp [hm.1] at hu
    | barrier2 => rw [hp] at hm; exact hm.2
    | returned => rw [hp] at hm; exact hm.2
  constructor
  · intro h
    have hstart : Start initial ⟨priv, initial, false, fun _ => .store⟩ :=
      ⟨rfl, rfl, fun _ => rfl⟩
    obtain ⟨-, s', -, hs', hret⟩ := hfinal _ (ReachableIf.start hstart)
    have hu := hupdated s' hs' ⟨0, hn⟩ (hret _)
    rw [← hout s' hs' hu, h.result s' hs' hu]
  · rintro rfl
    refine ⟨hupdated, hout, fun s hs => ?_⟩
    obtain ⟨ids, s', hrun, -, hret⟩ := hfinal s hs
    exact ⟨ids, s', hrun, hret⟩

/-! ## What the operators stand for -/

section Integral

variable {w : ℕ} {signed : Bool}

def number (signed : Bool) (x : BitVec w) : ℤ := if signed then x.toInt else x.toNat

def smaller (signed : Bool) (x y : BitVec w) : BitVec w :=
  if number signed x ≤ number signed y then x else y

def larger (signed : Bool) (x y : BitVec w) : BitVec w :=
  if number signed y ≤ number signed x then x else y

/-- C's `&&`. -/
def logicalAnd (x y : BitVec w) : BitVec w := if x ≠ 0#w ∧ y ≠ 0#w then 1#w else 0#w

/-- C's `||`. -/
def logicalOr (x y : BitVec w) : BitVec w := if x ≠ 0#w ∨ y ≠ 0#w then 1#w else 0#w

/-- The initial and the private values combined, for the operators of the integral types. -/
def integralFold (signed : Bool) (op : Op) (initial : BitVec w) (values : List (BitVec w)) :
    Option (BitVec w) :=
  match op with
  | .plus => some (initial + values.sum)
  | .minus => some (initial + values.sum)
  | .mul => some (initial * values.prod)
  | .bitand => some (values.foldl (· &&& ·) initial)
  | .bitor => some (values.foldl (· ||| ·) initial)
  | .bitxor => some (values.foldl (· ^^^ ·) initial)
  | .logand => some (values.foldl logicalAnd initial)
  | .logor => some (values.foldl logicalOr initial)
  | .min => some (values.foldl (smaller signed) initial)
  | .max => some (values.foldl (larger signed) initial)
  | _ => none

/-- The logical folds leave a nonzero initial value as it is where `&&` and `||` make it one. -/
def IntegralExact (op : Op) (initial : BitVec w) (values : List (BitVec w)) : Prop :=
  match op with
  | .logand => initial = 0#w ∨ initial = 1#w ∨ 0#w ∈ values
  | .logor => initial = 0#w ∨ initial = 1#w
  | _ => True

theorem loop_of_next {f : α → α → α} (hbody : ∀ v x, m.body op v x = some (.next (f v x))) (v : α)
    (xs : List α) : m.loop op v xs = some (xs.foldl f v) := by
  induction xs generalizing v with
  | nil => rfl
  | cons x xs ih =>
    rw [DoReduction.loop, hbody]
    exact ih (f v x)

theorem foldl_add_eq {R : Type} [AddMonoid R] (v : R) (xs : List R) :
    xs.foldl (· + ·) v = v + xs.sum := by
  induction xs generalizing v with
  | nil => simp
  | cons x xs ih => rw [List.foldl_cons, ih, List.sum_cons, add_assoc]

theorem foldl_mul_eq {R : Type} [Monoid R] (v : R) (xs : List R) :
    xs.foldl (· * ·) v = v * xs.prod := by
  induction xs generalizing v with
  | nil => simp
  | cons x xs ih => rw [List.foldl_cons, ih, List.prod_cons, mul_assoc]

theorem greater_iff (x y : BitVec w) :
    greater signed x y = true ↔ number signed y < number signed x := by
  cases signed with
  | true => simp [greater, number, BitVec.slt_iff_toInt_lt]
  | false => simp [greater, number, BitVec.ult_iff_lt, BitVec.lt_def]

theorem smaller_eq (x y : BitVec w) : smaller signed x y = if greater signed x y then y else x := by
  rw [smaller]
  by_cases h : number signed x ≤ number signed y
  · rw [if_pos h, if_neg (by rw [greater_iff]; omega)]
  · rw [if_neg h, if_pos (by rw [greater_iff]; omega)]

theorem larger_eq (x y : BitVec w) : larger signed x y = if greater signed y x then y else x := by
  rw [larger]
  by_cases h : number signed y ≤ number signed x
  · rw [if_pos h, if_neg (by rw [greater_iff]; omega)]
  · rw [if_neg h, if_pos (by rw [greater_iff]; omega)]

theorem loop_logand (v : BitVec w) (xs : List (BitVec w)) :
    (doReductionIntegral w signed).loop .logand v xs = some (if 0#w ∈ xs then 0#w else v) := by
  induction xs with
  | nil => simp [DoReduction.loop]
  | cons x xs ih =>
    rw [DoReduction.loop]
    by_cases hx : x = 0#w
    · simp [doReductionIntegral, hx]
    · have hbody : (doReductionIntegral w signed).body .logand v x = some (.next v) := by
        simp [doReductionIntegral, hx]
      rw [hbody]
      dsimp only
      rw [ih]
      simp [Ne.symm hx]

theorem loop_logor (v : BitVec w) (xs : List (BitVec w)) :
    (doReductionIntegral w signed).loop .logor v xs =
      some (if ∃ x ∈ xs, x ≠ 0#w then 1#w else v) := by
  induction xs with
  | nil => simp [DoReduction.loop]
  | cons x xs ih =>
    rw [DoReduction.loop]
    by_cases hx : x = 0#w
    · have hbody : (doReductionIntegral w signed).body .logor v x = some (.next v) := by
        simp [doReductionIntegral, hx]
      rw [hbody]
      dsimp only
      rw [ih]
      simp [hx]
    · simp [doReductionIntegral, hx]

theorem foldl_logicalAnd (hw : 1#w ≠ 0#w) (v : BitVec w) {xs : List (BitVec w)}
    (hne : xs ≠ []) :
    xs.foldl logicalAnd v = if v ≠ 0#w ∧ 0#w ∉ xs then 1#w else 0#w := by
  induction xs generalizing v with
  | nil => exact absurd rfl hne
  | cons x xs ih =>
    rw [List.foldl_cons]
    cases xs with
    | nil =>
      rw [List.foldl_nil, logicalAnd]
      simp only [List.mem_singleton, ne_eq, eq_comm (a := x)]
    | cons y ys =>
      rw [ih _ (by simp), logicalAnd]
      by_cases hv : v ≠ 0#w ∧ x ≠ 0#w
      · rw [if_pos hv]
        simp [hv.1, hw, Ne.symm hv.2]
      · rw [if_neg hv, if_neg (by simp), if_neg]
        rintro ⟨h1, h2⟩
        rw [List.mem_cons, not_or] at h2
        exact hv ⟨h1, Ne.symm h2.1⟩

theorem foldl_logicalOr (hw : 1#w ≠ 0#w) (v : BitVec w) {xs : List (BitVec w)}
    (hne : xs ≠ []) :
    xs.foldl logicalOr v = if v ≠ 0#w ∨ ∃ x ∈ xs, x ≠ 0#w then 1#w else 0#w := by
  induction xs generalizing v with
  | nil => exact absurd rfl hne
  | cons x xs ih =>
    rw [List.foldl_cons]
    cases xs with
    | nil =>
      rw [List.foldl_nil, logicalOr]
      simp
    | cons y ys =>
      rw [ih _ (by simp), logicalOr]
      by_cases hv : v ≠ 0#w ∨ x ≠ 0#w
      · rw [if_pos hv, if_pos (Or.inl hw), if_pos]
        rcases hv with hv | hx
        · exact Or.inl hv
        · exact Or.inr ⟨x, List.mem_cons_self, hx⟩
      · rw [if_neg hv]
        push Not at hv
        simp [hv.1, hv.2]

theorem eq_of_one_eq_zero (hw : 1#w = 0#w) (x y : BitVec w) : x = y := by
  have hzero : ∀ x : BitVec w, x = 0#w := by
    intro x
    calc x = x * 1#w := (BitVec.mul_one x).symm
      _ = x * 0#w := by rw [hw]
      _ = 0#w := BitVec.mul_zero
  rw [hzero x, hzero y]

theorem value_logand (initial : BitVec w) (values : List (BitVec w)) :
    (doReductionIntegral w signed).value .logand initial values =
      some (if 0#w ∈ values then 0#w else initial) := by
  rw [DoReduction.value, loop_logand]
  split_ifs with hskip hzero
  · rw [eq_of_beq hskip]
  · rfl
  · rfl
  · rfl

theorem value_logor (initial : BitVec w) (values : List (BitVec w)) :
    (doReductionIntegral w signed).value .logor initial values =
      some (if initial = 0#w ∧ ∃ x ∈ values, x ≠ 0#w then 1#w else initial) := by
  rw [DoReduction.value, loop_logor]
  by_cases hv : initial = 0#w
  · simp [hv, doReductionIntegral]
  · simp [hv, doReductionIntegral]

/-- The switch of the integral types computes the fold up to the value of a truth. -/
theorem value_integral_iff {op : Op} {initial result : BitVec w} {values : List (BitVec w)}
    (hne : values ≠ []) (h : integralFold signed op initial values = some result) :
    ∃ value, (doReductionIntegral w signed).value op initial values = some value ∧
      (value = result ↔ IntegralExact op initial values) := by
  have hnext : ∀ f : BitVec w → BitVec w → BitVec w,
      (∀ v x, (doReductionIntegral w signed).body op v x = some (.next (f v x))) →
      (∀ v, (doReductionIntegral w signed).skip op v = false) →
      (doReductionIntegral w signed).value op initial values =
        some (values.foldl f initial) := by
    intro f hbody hskip
    rw [DoReduction.value, if_neg (by rw [hskip]; decide), loop_of_next hbody]
  cases op with
  | plus =>
    cases h
    exact ⟨_, hnext (· + ·) (fun _ _ => rfl) fun _ => rfl, iff_of_true (foldl_add_eq _ _) trivial⟩
  | minus =>
    cases h
    exact ⟨_, hnext (· + ·) (fun _ _ => rfl) fun _ => rfl, iff_of_true (foldl_add_eq _ _) trivial⟩
  | mul =>
    cases h
    exact ⟨_, hnext (· * ·) (fun _ _ => rfl) fun _ => rfl, iff_of_true (foldl_mul_eq _ _) trivial⟩
  | bitand =>
    cases h
    exact ⟨_, hnext (· &&& ·) (fun _ _ => rfl) fun _ => rfl, iff_of_true rfl trivial⟩
  | bitor =>
    cases h
    exact ⟨_, hnext (· ||| ·) (fun _ _ => rfl) fun _ => rfl, iff_of_true rfl trivial⟩
  | bitxor =>
    cases h
    exact ⟨_, hnext (· ^^^ ·) (fun _ _ => rfl) fun _ => rfl, iff_of_true rfl trivial⟩
  | min =>
    cases h
    refine ⟨_, hnext (smaller signed) (fun v x => ?_) fun _ => rfl, iff_of_true rfl trivial⟩
    rw [smaller_eq]
    rfl
  | max =>
    cases h
    refine ⟨_, hnext (larger signed) (fun v x => ?_) fun _ => rfl, iff_of_true rfl trivial⟩
    rw [larger_eq]
    rfl
  | logand =>
    cases h
    refine ⟨_, value_logand initial values, ?_⟩
    by_cases hw : 1#w = 0#w
    · exact iff_of_true (eq_of_one_eq_zero hw _ _) (Or.inl (eq_of_one_eq_zero hw _ _))
    · rw [foldl_logicalAnd hw initial hne, IntegralExact]
      by_cases hzero : 0#w ∈ values
      · simp [hzero]
      · by_cases hv : initial = 0#w
        · simp [hv]
        · simp [hzero, hv]
  | logor =>
    cases h
    refine ⟨_, value_logor initial values, ?_⟩
    by_cases hw : 1#w = 0#w
    · exact iff_of_true (eq_of_one_eq_zero hw _ _) (Or.inl (eq_of_one_eq_zero hw _ _))
    · rw [foldl_logicalOr hw initial hne, IntegralExact]
      by_cases hv : initial = 0#w
      · simp [hv]
      · simp [hv]
  | logeqv => cases h
  | logneqv => cases h
  | iand => cases h
  | ior => cases h
  | ieor => cases h

end Integral

section Complex

variable {R : Type} [CommRing R]

/-- The initial and the private values combined, for the operators of the complex types. -/
def complexFold (op : Op) (initial : R) (values : List R) : Option R :=
  match op with
  | .plus => some (initial + values.sum)
  | .minus => some (initial + values.sum)
  | .mul => some (initial * values.prod)
  | _ => none

/-- The sums are subtracted. -/
def ComplexExact (op : Op) (values : List R) : Prop :=
  match op with
  | .mul => True
  | _ => values.sum + values.sum = 0

theorem foldl_sub_eq (v : R) (xs : List R) : xs.foldl (· - ·) v = v - xs.sum := by
  induction xs generalizing v with
  | nil => simp
  | cons x xs ih => rw [List.foldl_cons, ih, List.sum_cons, sub_sub]

theorem sub_eq_add_iff (v x : R) : v - x = v + x ↔ x + x = 0 := by
  rw [sub_eq_iff_eq_add, add_assoc, left_eq_add]

theorem value_complex_iff {op : Op} {initial result : R} {values : List R}
    (h : complexFold op initial values = some result) :
    ∃ value, (doReductionComplex R).value op initial values = some value ∧
      (value = result ↔ ComplexExact op values) := by
  have hsub : ∀ op, (∀ v x, (doReductionComplex R).body op v x = some (.next (v - x))) →
      (doReductionComplex R).value op initial values = some (initial - values.sum) := by
    intro op hbody
    rw [← foldl_sub_eq, ← loop_of_next hbody]
    rfl
  cases op with
  | plus =>
    cases h
    exact ⟨_, hsub .plus fun _ _ => rfl, sub_eq_add_iff _ _⟩
  | minus =>
    cases h
    exact ⟨_, hsub .minus fun _ _ => rfl, sub_eq_add_iff _ _⟩
  | mul =>
    cases h
    have hbody : ∀ v x, (doReductionComplex R).body .mul v x = some (.next (v * x)) :=
      fun _ _ => rfl
    refine ⟨_, ?_, iff_of_true rfl trivial⟩
    rw [← foldl_mul_eq, ← loop_of_next hbody]
    rfl
  | bitand => cases h
  | bitor => cases h
  | bitxor => cases h
  | logand => cases h
  | logor => cases h
  | min => cases h
  | max => cases h
  | logeqv => cases h
  | logneqv => cases h
  | iand => cases h
  | ior => cases h
  | ieor => cases h

end Complex

/-- For every type code, the team leaves the combined value exactly when no truth other than zero
or one is kept, and for the complex types when the operator is the product or the sum of the
private values is its own negative. -/
theorem ompcReduction_leaves_iff (t : ReductionType) (hn : 0 < n) :
    match reductionKind t with
    | some (.integral w signed) => ∀ (op : Op) (priv : Fin n → BitVec w)
        (initial result : BitVec w),
        integralFold signed op initial (List.ofFn priv) = some result →
          (Leaves (doReductionIntegral w signed) op priv initial result ↔
            IntegralExact op initial (List.ofFn priv))
    | some .complex => ∀ (R : Type) [CommRing R] (op : Op) (priv : Fin n → R) (initial result : R),
        complexFold op initial (List.ofFn priv) = some result →
          (Leaves (doReductionComplex R) op priv initial result ↔ ComplexExact op (List.ofFn priv))
    | _ => True := by
  cases reductionKind t with
  | none => trivial
  | some kind =>
    cases kind with
    | float => trivial
    | integral w signed =>
      intro op priv initial result h
      have hne : List.ofFn priv ≠ [] := by
        rw [Ne, List.ofFn_eq_nil_iff]
        exact hn.ne'
      obtain ⟨value, hvalue, hiff⟩ := value_integral_iff hne h
      rw [leaves_iff hn hvalue, hiff]
    | complex =>
      intro R _ op priv initial result h
      obtain ⟨value, hvalue, hiff⟩ := value_complex_iff h
      rw [leaves_iff hn hvalue, hiff]

/-- Two threads add up an `int`. -/
theorem ompcReduction_leaves_int : Leaves (doReductionIntegral 32 true) Op.plus
    (fun i : Fin 2 => BitVec.ofNat 32 (i + 3)) 10#32 17#32 :=
  (ompcReduction_leaves_iff .int Nat.two_pos .plus (fun i : Fin 2 => BitVec.ofNat 32 (i + 3)) 10#32
    17#32 (by decide)).mpr trivial

/-- Two threads with the value `1` in a complex sum leave `-2` instead of `2`. -/
theorem ompcReduction_negates :
    complexFold Op.plus (0 : ℤ) (List.ofFn fun _ : Fin 2 => 1) = some 2 ∧
      ¬ Leaves (doReductionComplex ℤ) Op.plus (fun _ : Fin 2 => 1) 0 2 := by
  have hvalue : (doReductionComplex ℤ).value .plus 0 (List.ofFn fun _ : Fin 2 => 1) = some (-2) :=
    rfl
  refine ⟨rfl, ?_⟩
  rw [leaves_iff Nat.two_pos hvalue]
  decide

end OmniCompiler.Omp.Reduction
