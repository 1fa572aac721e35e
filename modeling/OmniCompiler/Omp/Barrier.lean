import OmniCompiler.Concurrency.Interleaving

/-!
# The sense-reversing barrier (`ompc_thread.c`)

The threads of a parallel region meet in barriers; the region ends with
`ompc_thread_barrier2`, in which the slaves only post their flag. One sense bit
of the parent serves all episodes of all its regions. A slave is never more
than one store behind: it still has to see the last flip, has not entered the
current episode, or has posted its flag for it.
-/
namespace OmniCompiler.Omp.Barrier

open Interleaving

/-- `sense ^ 1`. -/
def reverse (sense : BitVec 32) : BitVec 32 := sense ^^^ 1#32

theorem reverse_ne (sense : BitVec 32) : reverse sense ≠ sense := by
  intro h
  have hbit := congrArg (fun x : BitVec 32 => x[0]) h
  simp [reverse] at hbit

/-- The parallel regions of one parent: the team size and the number of barriers of each. -/
structure Plan where
  numThds : ℕ → ℕ
  numThds_pos : ∀ r, 0 < numThds r
  episodes : ℕ → ℕ

/-- What happens in a run. Episode `e` of region `r` is a barrier for `e < episodes r` and the
final `ompc_thread_barrier2` for `e = episodes r`. -/
inductive Event
  | enter (id r e : ℕ)
  | post (id r e : ℕ)
  | pass (id r e : ℕ)
  | flip (r e : ℕ)
  | leave (id r e : ℕ)
  deriving DecidableEq

/-- Where the master is: the stores and starts of `ompc_do_parallel_main`, the region's code up
to an episode, or the wait for the flag of thread `j`. -/
inductive MasterPc
  | setFlags (r j : ℕ)
  | launch (r j : ℕ)
  | body (r e : ℕ)
  | wait (r e : ℕ) (sen0 : BitVec 32) (j : ℕ)

inductive SlavePc
  | idle
  | body (r e : ℕ)
  | post (r e : ℕ) (sen0 : BitVec 32)
  | wait (r e : ℕ) (sen0 : BitVec 32)
  deriving DecidableEq

/-- `history` lists the events, the latest first. -/
structure State where
  barrierSense : BitVec 32
  barrierFlags : ℕ → BitVec 32
  master : MasterPc
  slave : ℕ → SlavePc
  history : List Event

variable (plan : Plan)

def masterStep (s : State) : Option State :=
  match s.master with
  | .setFlags r j =>
    if j < plan.numThds r then
      some { s with
        barrierFlags := Function.update s.barrierFlags j s.barrierSense
        master := .setFlags r (j + 1) }
    else some { s with master := .launch r 1 }
  | .launch r j =>
    if j < plan.numThds r then
      some { s with slave := Function.update s.slave j (.body r 0), master := .launch r (j + 1) }
    else some { s with master := .body r 0 }
  | .body r e =>
    some { s with
      master := .wait r e (reverse s.barrierSense) 1
      history := .enter 0 r e :: s.history }
  | .wait r e sen0 j =>
    if j < plan.numThds r then
      if s.barrierFlags j = sen0 then
        some { s with master := .wait r e sen0 (j + 1), history := .pass j r e :: s.history }
      else none
    else
      some { s with
        barrierSense := sen0
        master := if e < plan.episodes r then .body r (e + 1) else .setFlags (r + 1) 0
        history := .leave 0 r e :: .flip r e :: s.history }

def slaveStep (id : ℕ) (s : State) : Option State :=
  match s.slave id with
  | .idle => none
  | .body r e =>
    some { s with
      slave := Function.update s.slave id (.post r e (reverse s.barrierSense))
      history := .enter id r e :: s.history }
  | .post r e sen0 =>
    some { s with
      barrierFlags := Function.update s.barrierFlags id sen0
      slave := Function.update s.slave id (if e < plan.episodes r then .wait r e sen0 else .idle)
      history := .post id r e :: s.history }
  | .wait r e sen0 =>
    if s.barrierSense = sen0 then
      some { s with
        slave := Function.update s.slave id (.body r (e + 1))
        history := .leave id r e :: s.history }
    else none

/-- Thread `0` is the master. -/
def step (id : ℕ) (s : State) : Option State :=
  if id = 0 then masterStep plan s else slaveStep plan id s

/-- Before the first region; sense and flags hold what is in the parent's record. -/
def Start (s : State) : Prop :=
  s.master = .setFlags 0 0 ∧ (∀ id, s.slave id = .idle) ∧ s.history = []

/-- What must have happened before an event: all threads have entered an episode that a thread
leaves, the master has flipped the sense for it, and it leaves and passes only on flags posted
for this very episode. -/
def Justified (past : List Event) : Event → Prop
  | .leave id r e => .flip r e ∈ past ∧ (∀ i < plan.numThds r, .enter i r e ∈ past) ∧
      (id = 0 → ∀ i, 0 < i → i < plan.numThds r → .post i r e ∈ past)
  | .pass id r e => .post id r e ∈ past
  | _ => True

/-- Every event was justified when it happened. -/
def Chronicle (history : List Event) : Prop :=
  ∀ newer ev past, history = newer ++ ev :: past → Justified plan past ev

/-! ## Where the slaves are -/

variable {plan} {s s' : State} {r e i id : ℕ}

def Posted (plan : Plan) (s : State) (r e i : ℕ) : Prop :=
  s.slave i = (if e < plan.episodes r then .wait r e (reverse s.barrierSense) else .idle) ∧
    s.barrierFlags i = reverse s.barrierSense ∧ .enter i r e ∈ s.history ∧ .post i r e ∈ s.history

/-- The possible positions of a slave while the master is at episode `e`. -/
inductive SlaveOk (plan : Plan) (s : State) (r : ℕ) : ℕ → ℕ → Prop
  | before {e i : ℕ} : s.slave i = .body r e → s.barrierFlags i = s.barrierSense →
      SlaveOk plan s r e i
  | entered {e i : ℕ} : s.slave i = .post r e (reverse s.barrierSense) →
      s.barrierFlags i = s.barrierSense → .enter i r e ∈ s.history → SlaveOk plan s r e i
  | posted {e i : ℕ} : Posted plan s r e i → SlaveOk plan s r e i
  | behind {e i : ℕ} : s.slave i = .wait r e s.barrierSense →
      s.barrierFlags i = s.barrierSense → .flip r e ∈ s.history → SlaveOk plan s r (e + 1) i

def OthersIdle (plan : Plan) (s : State) (r : ℕ) : Prop :=
  ∀ i, i = 0 ∨ plan.numThds r ≤ i → s.slave i = .idle

def TeamOk (plan : Plan) (s : State) : Prop :=
  match s.master with
  | .setFlags _ j => (∀ i, s.slave i = .idle) ∧ ∀ i < j, s.barrierFlags i = s.barrierSense
  | .launch r j => 0 < j ∧ OthersIdle plan s r ∧ (∀ i, 0 < i → i < j → i < plan.numThds r →
      SlaveOk plan s r 0 i) ∧ ∀ i, j ≤ i → i < plan.numThds r →
        s.slave i = .idle ∧ s.barrierFlags i = s.barrierSense
  | .body r e => e ≤ plan.episodes r ∧ OthersIdle plan s r ∧
      ∀ i, 0 < i → i < plan.numThds r → SlaveOk plan s r e i
  | .wait r e sen0 j => 0 < j ∧ e ≤ plan.episodes r ∧ OthersIdle plan s r ∧
      (∀ i, 0 < i → i < plan.numThds r → SlaveOk plan s r e i) ∧
        sen0 = reverse s.barrierSense ∧ .enter 0 r e ∈ s.history ∧
          ∀ i, 0 < i → i < j → i < plan.numThds r → Posted plan s r e i

structure Inv (plan : Plan) (s : State) : Prop where
  chronicle : Chronicle plan s.history
  flips : ∀ r e, .flip r e ∈ s.history → ∀ i < plan.numThds r, .enter i r e ∈ s.history
  team : TeamOk plan s

theorem chronicle_cons {history : List Event} {ev : Event} (h : Chronicle plan history)
    (hev : Justified plan history ev) : Chronicle plan (ev :: history) := by
  intro newer ev' past heq
  cases newer with
  | nil =>
    obtain ⟨rfl, rfl⟩ := List.cons.inj heq
    exact hev
  | cons first newer => exact h newer ev' past (List.cons.inj heq).2

theorem SlaveOk.posted_of_flag (h : SlaveOk plan s r e i)
    (hf : s.barrierFlags i = reverse s.barrierSense) : Posted plan s r e i := by
  cases h with
  | before _ hflag => exact absurd (hf.symm.trans hflag) (reverse_ne _)
  | entered _ hflag _ => exact absurd (hf.symm.trans hflag) (reverse_ne _)
  | posted h => exact h
  | behind _ hflag _ => exact absurd (hf.symm.trans hflag) (reverse_ne _)

/-- A step that does not touch the slave and keeps the sense and the earlier events. -/
structure Keeps (s s' : State) (i : ℕ) : Prop where
  sense : s'.barrierSense = s.barrierSense
  flag : s'.barrierFlags i = s.barrierFlags i
  slave : s'.slave i = s.slave i
  history : ∀ ev ∈ s.history, ev ∈ s'.history

theorem Posted.keep (h : Posted plan s r e i) (hk : Keeps s s' i) : Posted plan s' r e i := by
  obtain ⟨h1, h2, h3, h4⟩ := h
  refine ⟨?_, ?_, hk.history _ h3, hk.history _ h4⟩
  · rw [hk.slave, h1, hk.sense]
  · rw [hk.flag, h2, hk.sense]

theorem SlaveOk.keep (h : SlaveOk plan s r e i) (hk : Keeps s s' i) : SlaveOk plan s' r e i := by
  cases h with
  | before h1 h2 => exact .before (by rw [hk.slave, h1]) (by rw [hk.flag, h2, hk.sense])
  | entered h1 h2 h3 =>
    exact .entered (by rw [hk.slave, h1, hk.sense]) (by rw [hk.flag, h2, hk.sense])
      (hk.history _ h3)
  | posted h => exact .posted (h.keep hk)
  | behind h1 h2 h3 =>
    exact .behind (by rw [hk.slave, h1, hk.sense]) (by rw [hk.flag, h2, hk.sense])
      (hk.history _ h3)

/-! ## Steps of the master -/

theorem masterStep_team (h : Inv plan s) (hs : masterStep plan s = some s') :
    TeamOk plan s' := by
  have hteam := h.team
  unfold masterStep at hs
  unfold TeamOk at hteam
  split at hs
  · -- region start: the flags take over the current sense
    rename_i r j hm
    simp only [hm] at hteam
    split_ifs at hs with hj
    · obtain rfl := Option.some.inj hs
      refine ⟨hteam.1, ?_⟩
      intro i hi
      by_cases hij : i = j
      · simp [hij]
      · simp only [Function.update_of_ne hij]
        exact hteam.2 i (by omega)
    · obtain rfl := Option.some.inj hs
      refine ⟨Nat.one_pos, fun i _ => hteam.1 i, ?_, ?_⟩
      · intro i h0 h1
        omega
      · intro i _ hi
        exact ⟨hteam.1 i, hteam.2 i (by omega)⟩
  · rename_i r j hm
    simp only [hm] at hteam
    obtain ⟨hj0, hidle, hrun, hrest⟩ := hteam
    split_ifs at hs with hj
    · obtain rfl := Option.some.inj hs
      refine ⟨by omega, ?_, ?_, ?_⟩
      · intro i hi
        have hij : i ≠ j := by omega
        simp only [Function.update_of_ne hij]
        exact hidle i hi
      · intro i h0 hlt hn
        by_cases hij : i = j
        · subst hij
          exact .before (by simp) (hrest i le_rfl hn).2
        · apply (hrun i h0 (by omega) hn).keep
          exact ⟨rfl, rfl, by simp [Function.update_of_ne hij], fun _ hev => hev⟩
      · intro i hji hn
        have hij : i ≠ j := by omega
        simp only [Function.update_of_ne hij]
        exact hrest i (by omega) hn
    · obtain rfl := Option.some.inj hs
      refine ⟨Nat.zero_le _, hidle, ?_⟩
      intro i h0 hn
      apply (hrun i h0 (by omega) hn).keep
      exact ⟨rfl, rfl, rfl, fun _ hev => hev⟩
  · rename_i r e hm
    simp only [hm] at hteam
    obtain ⟨he, hidle, hrun⟩ := hteam
    obtain rfl := Option.some.inj hs
    have hk : ∀ i, Keeps s { s with
        master := .wait r e (reverse s.barrierSense) 1
        history := .enter 0 r e :: s.history } i := fun i =>
      ⟨rfl, rfl, rfl, fun _ hev => List.mem_cons_of_mem _ hev⟩
    refine ⟨Nat.one_pos, he, hidle, fun i h0 hn => (hrun i h0 hn).keep (hk i), rfl,
      List.mem_cons_self, ?_⟩
    intro i h0 h1
    omega
  · rename_i r e sen0 j hm
    simp only [hm] at hteam
    obtain ⟨hj0, he, hidle, hrun, hsen, henter, hposted⟩ := hteam
    split_ifs at hs with hj hflag hlast
    · obtain rfl := Option.some.inj hs
      have hk : ∀ i, Keeps s { s with
          master := .wait r e sen0 (j + 1)
          history := .pass j r e :: s.history } i := fun i =>
        ⟨rfl, rfl, rfl, fun _ hev => List.mem_cons_of_mem _ hev⟩
      refine ⟨by omega, he, hidle, fun i h0 hn => (hrun i h0 hn).keep (hk i), hsen,
        List.mem_cons_of_mem _ henter, ?_⟩
      intro i h0 hlt hn
      by_cases hij : i = j
      · subst hij
        exact ((hrun i h0 hn).posted_of_flag (hflag.trans hsen)).keep (hk i)
      · exact (hposted i h0 (by omega) hn).keep (hk i)
    · -- the flip: every slave has posted and is now behind by this episode
      obtain rfl := Option.some.inj hs
      refine ⟨hlast, hidle, ?_⟩
      intro i h0 hn
      obtain ⟨h1, h2, -⟩ := hposted i h0 (by omega) hn
      rw [if_pos hlast, ← hsen] at h1
      rw [← hsen] at h2
      exact .behind h1 h2 (by simp)
    · obtain rfl := Option.some.inj hs
      refine ⟨?_, fun i hi => absurd hi (Nat.not_lt_zero i)⟩
      intro i
      by_cases hi : i = 0 ∨ plan.numThds r ≤ i
      · exact hidle i hi
      · obtain ⟨h1, -⟩ := hposted i (by omega) (by omega) (by omega)
        rwa [if_neg hlast] at h1

theorem flips_cons {ev : Event} (h : Inv plan s) (hev : ∀ r e, ev ≠ .flip r e) (r e : ℕ)
    (hflip : .flip r e ∈ ev :: s.history) :
    ∀ i < plan.numThds r, .enter i r e ∈ ev :: s.history := by
  intro i hi
  cases hflip with
  | head => exact absurd rfl (hev r e)
  | tail _ hflip => exact List.mem_cons_of_mem _ (h.flips r e hflip i hi)

theorem masterStep_history (h : Inv plan s) (hs : masterStep plan s = some s') :
    Chronicle plan s'.history ∧
      ∀ r e, .flip r e ∈ s'.history → ∀ i < plan.numThds r, .enter i r e ∈ s'.history := by
  have hteam := h.team
  unfold masterStep at hs
  unfold TeamOk at hteam
  split at hs
  · split_ifs at hs <;> obtain rfl := Option.some.inj hs <;> exact ⟨h.chronicle, h.flips⟩
  · split_ifs at hs <;> obtain rfl := Option.some.inj hs <;> exact ⟨h.chronicle, h.flips⟩
  · obtain rfl := Option.some.inj hs
    exact ⟨chronicle_cons h.chronicle trivial, flips_cons h (by simp)⟩
  · rename_i r e sen0 j hm
    simp only [hm] at hteam
    obtain ⟨hj0, -, -, hrun, hsen, henter, hposted⟩ := hteam
    by_cases hj : j < plan.numThds r
    · rw [if_pos hj] at hs
      split_ifs at hs with hflag
      obtain rfl := Option.some.inj hs
      have hpost := (hrun j hj0 hj).posted_of_flag (hflag.trans hsen)
      exact ⟨chronicle_cons h.chronicle hpost.2.2.2, flips_cons h (by simp)⟩
    · rw [if_neg hj, Option.some.injEq] at hs
      have hentered : ∀ i < plan.numThds r, .enter i r e ∈ s.history := by
        intro i hi
        rcases Nat.eq_zero_or_pos i with rfl | h0
        · exact henter
        · exact (hposted i h0 (by omega) hi).2.2.1
      rw [← hs]
      constructor
      · have hflip := @chronicle_cons plan _ (.flip r e) h.chronicle trivial
        apply chronicle_cons hflip
        refine ⟨List.mem_cons_self, fun i hi => List.mem_cons_of_mem _ (hentered i hi), ?_⟩
        intro _ i h0 hi
        exact List.mem_cons_of_mem _ (hposted i h0 (by omega) hi).2.2.2
      · intro r' e' hflip i hi
        simp only [List.mem_cons, reduceCtorEq, Event.flip.injEq, false_or] at hflip ⊢
        rcases hflip with ⟨rfl, rfl⟩ | hflip
        · exact hentered i hi
        · exact h.flips r' e' hflip i hi

/-! ## Steps of the slaves -/

/-- A step of slave `id`: it moves alone and does not turn the sense. -/
structure SlaveMoves (s s' : State) (id : ℕ) : Prop where
  master : s'.master = s.master
  sense : s'.barrierSense = s.barrierSense
  others : ∀ i, i ≠ id → Keeps s s' i
  history : ∀ ev ∈ s.history, ev ∈ s'.history

theorem OthersIdle.moves (h : OthersIdle plan s r) (hid : 0 < id) (hn : id < plan.numThds r)
    (hmv : SlaveMoves s s' id) : OthersIdle plan s' r := by
  intro i hi
  have hne : i ≠ id := by omega
  rw [(hmv.others i hne).slave]
  exact h i hi

/-- A slave that runs is at one of its positions for the master's episode, and the team stays
in order when it moves to another one. -/
theorem slave_runs (h : TeamOk plan s) (hid : 0 < id) (hne : s.slave id ≠ .idle) :
    ∃ r e, e ≤ plan.episodes r ∧ SlaveOk plan s r e id ∧
      ∀ s' : State, SlaveMoves s s' id → SlaveOk plan s' r e id → ¬ Posted plan s r e id →
        TeamOk plan s' := by
  have hteam : ∀ r, OthersIdle plan s r → id < plan.numThds r := by
    intro r hidle
    by_contra hc
    exact hne (hidle id (Or.inr (by omega)))
  unfold TeamOk at h
  split at h
  · exact absurd (h.1 id) hne
  · rename_i r j hm
    obtain ⟨hj0, hidle, hrun, hrest⟩ := h
    have hn := hteam r hidle
    have hlt : id < j := by
      by_contra hc
      exact hne (hrest id (by omega) hn).1
    refine ⟨r, 0, Nat.zero_le _, hrun id hid hlt hn, ?_⟩
    intro s' hmv hok _
    simp only [TeamOk, hmv.master, hm]
    refine ⟨hj0, hidle.moves hid hn hmv, ?_, ?_⟩
    · intro i h0 hij hn'
      by_cases hii : i = id
      · rw [hii]
        exact hok
      · exact (hrun i h0 hij hn').keep (hmv.others i hii)
    · intro i hji hn'
      have hii : i ≠ id := by omega
      rw [(hmv.others i hii).slave, (hmv.others i hii).flag, hmv.sense]
      exact hrest i hji hn'
  · rename_i r e hm
    obtain ⟨he, hidle, hrun⟩ := h
    have hn := hteam r hidle
    refine ⟨r, e, he, hrun id hid hn, ?_⟩
    intro s' hmv hok _
    simp only [TeamOk, hmv.master, hm]
    refine ⟨he, hidle.moves hid hn hmv, ?_⟩
    intro i h0 hn'
    by_cases hii : i = id
    · rw [hii]
      exact hok
    · exact (hrun i h0 hn').keep (hmv.others i hii)
  · rename_i r e sen0 j hm
    obtain ⟨hj0, he, hidle, hrun, hsen, henter, hposted⟩ := h
    have hn := hteam r hidle
    refine ⟨r, e, he, hrun id hid hn, ?_⟩
    intro s' hmv hok hnot
    simp only [TeamOk, hmv.master, hm]
    refine ⟨hj0, he, hidle.moves hid hn hmv, ?_, by rw [hmv.sense, hsen], hmv.history _ henter, ?_⟩
    · intro i h0 hn'
      by_cases hii : i = id
      · rw [hii]
        exact hok
      · exact (hrun i h0 hn').keep (hmv.others i hii)
    · intro i h0 hij hn'
      by_cases hii : i = id
      · rw [hii] at hij
        exact absurd (hposted id hid hij hn) hnot
      · exact (hposted i h0 hij hn').keep (hmv.others i hii)

theorem slaveStep_inv (h : Inv plan s) (hid : 0 < id) (hs : slaveStep plan id s = some s') :
    Inv plan s' := by
  have hne : s.slave id ≠ .idle := by
    intro hidle
    simp [slaveStep, hidle] at hs
  obtain ⟨r, e, he, hok, hteam⟩ := slave_runs h.team hid hne
  unfold slaveStep at hs
  cases hok with
  | before hpc hflag =>
    simp only [hpc, Option.some.injEq] at hs
    have hnot : ¬ Posted plan s r e id := by
      rintro ⟨hp, -⟩
      rw [hpc] at hp
      split_ifs at hp
    rw [← hs]
    refine ⟨chronicle_cons h.chronicle trivial, flips_cons h (by simp), ?_⟩
    apply hteam
    · exact ⟨rfl, rfl, fun i hi => ⟨rfl, rfl, by simp [hi], fun _ hev =>
        List.mem_cons_of_mem _ hev⟩, fun _ hev => List.mem_cons_of_mem _ hev⟩
    · exact .entered (by simp) hflag (by simp)
    · exact hnot
  | entered hpc hflag henter =>
    simp only [hpc, Option.some.injEq] at hs
    have hnot : ¬ Posted plan s r e id := by
      rintro ⟨hp, -⟩
      rw [hpc] at hp
      split_ifs at hp
    rw [← hs]
    refine ⟨chronicle_cons h.chronicle trivial, flips_cons h (by simp), ?_⟩
    apply hteam
    · exact ⟨rfl, rfl, fun i hi => ⟨rfl, by simp [hi], by simp [hi], fun _ hev =>
        List.mem_cons_of_mem _ hev⟩, fun _ hev => List.mem_cons_of_mem _ hev⟩
    · exact .posted ⟨by simp, by simp, List.mem_cons_of_mem _ henter, by simp⟩
    · exact hnot
  | posted hp =>
    -- a posted slave waits for the flip or is done with the region
    have hpc := hp.1
    split_ifs at hpc with hlt
    · simp [hpc, (reverse_ne s.barrierSense).symm] at hs
    · exact absurd hpc hne
  | @behind e _ hpc hflag hflip =>
    simp only [hpc, if_true, Option.some.injEq] at hs
    have hnot : ¬ Posted plan s r (e + 1) id := by
      rintro ⟨hp, -⟩
      rw [hpc] at hp
      split_ifs at hp with hlt
      simp at hp
    rw [← hs]
    refine ⟨chronicle_cons h.chronicle ?_, flips_cons h (by simp), ?_⟩
    · exact ⟨hflip, h.flips r e hflip, fun h0 => absurd h0 hid.ne'⟩
    · apply hteam
      · exact ⟨rfl, rfl, fun i hi => ⟨rfl, rfl, by simp [hi], fun _ hev =>
          List.mem_cons_of_mem _ hev⟩, fun _ hev => List.mem_cons_of_mem _ hev⟩
      · exact .before (by simp) hflag
      · exact hnot

theorem inv_start (h : Start s) : Inv plan s := by
  obtain ⟨hm, hidle, hhist⟩ := h
  refine ⟨?_, ?_, ?_⟩
  · intro newer ev past heq
    rw [hhist] at heq
    simp at heq
  · intro r e hflip
    rw [hhist] at hflip
    cases hflip
  · rw [TeamOk, hm]
    exact ⟨hidle, fun i hi => absurd hi (Nat.not_lt_zero i)⟩

theorem inv_step (h : Inv plan s) (hs : step plan id s = some s') : Inv plan s' := by
  rw [step] at hs
  split_ifs at hs with hid
  · obtain ⟨h1, h2⟩ := masterStep_history h hs
    exact ⟨h1, h2, masterStep_team h hs⟩
  · exact slaveStep_inv h (Nat.pos_of_ne_zero hid) hs

/-- In every interleaving of every sequence of regions: a thread leaves an episode only after
all threads of the team have entered it and the master has turned the sense for it, the master
only after every slave has posted its flag, and each flag the master passes was posted for this
episode. -/
theorem barrier_separates (plan : Plan) {s : State} (h : Reachable Start (step plan) s) :
    Chronicle plan s.history := by
  have hinv : Inv plan s := by
    apply Reachable.invariant h
    · exact fun s hs => inv_start hs
    · exact fun id s s' hi hs => inv_step hi hs
  exact hinv.chronicle

/-- Two threads, one barrier in each region. -/
def twoThreads : Plan := ⟨fun _ => 2, fun _ => Nat.two_pos, fun _ => 1⟩

def twoStart : State := ⟨0, fun _ => 0, .setFlags 0 0, fun _ => .idle, []⟩

theorem barrier_separates_two : ∃ s,
    run (step twoThreads) [0, 0, 0, 0, 0, 0, 1, 1, 0, 0, 1] twoStart = some s ∧
      s.history = [.leave 1 0 0, .leave 0 0 0, .flip 0 0, .pass 1 0 0, .post 1 0 0, .enter 1 0 0,
        .enter 0 0 0] ∧ Chronicle twoThreads s.history :=
  ⟨_, rfl, rfl, barrier_separates twoThreads (@reachable_of_run _ _ Start _ _
    [0, 0, 0, 0, 0, 0, 1, 1, 0, 0, 1] twoStart ⟨rfl, fun _ => rfl, rfl⟩ rfl)⟩

end OmniCompiler.Omp.Barrier
