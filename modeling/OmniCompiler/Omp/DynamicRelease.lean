import OmniCompiler.Omp.DynamicTeam

/-!
# Release of the shared state after a dynamic or guided loop (`ompc_runtime.c`)

A thread is counted out only with a fetch that ends past the loop end. A thread
whose start index is past the end already, or which fetches an index past the
end that has wrapped around by the end of its chunk, gets `FALSE` without being
counted, and the counters and flags of the parent are never cleared.
-/
namespace OmniCompiler.Omp.Dynamic

open Interleaving

variable {n : ℕ} {L : DynLoop}

/-- When all threads are through with the loop, the counters and flags are clear. -/
def AlwaysReleased (L : DynLoop) (n : ℕ) : Prop :=
  ∀ s : Team n, Reachable Start (step (fun _ => L) 1) s → (∀ id, (s.thread id).loop = 1) →
    Released s

theorem alwaysReleased_of_ends {J : ℕ} (hn : 0 < n) (hends : L.Ends n J) : AlwaysReleased L n := by
  intro s h hall
  have hinv : ∃ F, Round L J s 0 F := by
    apply Reachable.invariant h
    · intro s hs
      have hp : Progress (fun _ => L) (fun _ => J) s 0 0 := Progress.ofStart hn hends.pos hs
      exact ⟨0, hp.round⟩
    · intro id s s' ⟨F, hr⟩ hs
      have hlt := (step_cases hs).1
      exact @Round.step _ (fun _ => L) _ (fun _ => J) _ _ _ _ _ hr hends hs (Or.inl (by omega))
  obtain ⟨F, hr⟩ := hinv
  obtain hb | ⟨hrel, -⟩ := hr.phase
  · have hcount : s.outCount = n := by
      rw [hb.outCount]
      simp [Thread.counted, hall, countSet]
    have := hb.lt
    omega
  · exact hrel

/-! ## A loop that too few fetches end -/

/-- A thread that makes fetch `j` gets no further chunk after it. -/
def Stops (L : DynLoop) (n j : ℕ) : Prop :=
  L.IsPast (L.index n j) ∨ L.IsPast (L.index n (j + 1))

instance : DecidablePred (Stops L n) := fun _ => inferInstanceAs (Decidable (_ ∨ _))

def Thread.halted (L : DynLoop) (tp : Thread) : Bool :=
  decide (0 < tp.loop) || match tp.pc with
    | .out _ _ => true
    | .fetch => decide (L.IsPast tp.schedIndex)
    | _ => false

theorem halted_of_counted {tp : Thread} (h : tp.counted L 0 = true) : tp.halted L = true := by
  unfold Thread.counted at h
  unfold Thread.halted
  cases hpc : tp.pc <;> simp_all

/-- Each thread that has halted made one of the fetches that stop a thread. -/
structure Rare (L : DynLoop) (s : Team n) (F : ℕ) : Prop where
  loop : ∀ id, 0 < (s.thread id).loop → (s.thread id).pc = .wait
  inCount : s.inCount = countSet fun id => (s.thread id).entered 0
  outCount : s.outCount ≤ countSet fun id => (s.thread id).counted L 0
  index : (∃ id, (s.thread id).entered 0 = true) → s.dynamicIndex = L.index n F
  idle : (∀ id, (s.thread id).entered 0 = false) → F = 0
  sched : ∀ id, (s.thread id).pc = .lock ∨ (s.thread id).pc = .flag →
    (s.thread id).schedIndex = L.lb
  out : ∀ id b e, (s.thread id).pc = .out b e → L.IsPast e
  halted : (countSet fun id => (s.thread id).halted L) ≤
    ((Finset.range F).filter (Stops L n)).card

section Rare

variable {s : Team n} {F : ℕ} {id : Fin n} (h : Rare L s F)
include h

theorem Rare.update {s' : Team n} {F' : ℕ} {tp : Thread}
    (hthread : s'.thread = Function.update s.thread id tp) (hin : s'.inCount = s.inCount)
    (hout : s'.outCount ≤ countSet fun j => (Function.update s.thread id tp j).counted L 0)
    (hindex : s'.dynamicIndex = L.index n F') (hent : (s.thread id).entered 0 = true)
    (hent' : tp.entered 0 = true) (hwait : 0 < tp.loop → tp.pc = .wait)
    (hlock : tp.pc ≠ .lock) (hflag : tp.pc ≠ .flag) (htp : ∀ b e, tp.pc = .out b e → L.IsPast e)
    (hhalt : (countSet fun j => (Function.update s.thread id tp j).halted L) ≤
      ((Finset.range F').filter (Stops L n)).card) : Rare L s' F' := by
  constructor
  · rw [hthread]
    intro j
    by_cases hj : j = id
    · rw [hj, Function.update_self]
      exact hwait
    · rw [Function.update_of_ne hj]
      exact h.loop j
  · rw [hthread, hin, h.inCount]
    exact (countSet_update_eq (p := Thread.entered 0) (hent'.trans hent.symm)).symm
  · rw [hthread]
    exact hout
  · intro _
    exact hindex
  · intro hall
    have := hall id
    rw [hthread, Function.update_self, hent'] at this
    cases this
  · rw [hthread]
    intro j
    by_cases hj : j = id
    · rw [hj, Function.update_self]
      intro hor
      obtain hl | hl := hor
      · exact absurd hl hlock
      · exact absurd hl hflag
    · rw [Function.update_of_ne hj]
      exact h.sched j
  · rw [hthread]
    intro j
    by_cases hj : j = id
    · rw [hj, Function.update_self]
      exact htp
    · rw [Function.update_of_ne hj]
      exact h.out j
  · rw [hthread]
    exact hhalt

omit h in
theorem card_stops_succ (j : ℕ) : ((Finset.range (j + 1)).filter (Stops L n)).card =
    ((Finset.range j).filter (Stops L n)).card + if Stops L n j then 1 else 0 := by
  rw [Finset.range_add_one, Finset.filter_insert]
  split_ifs with hs
  · rw [Finset.card_insert_of_notMem (by simp)]
  · rfl

omit h in
/-- Moving the thread of fetch `F`, which halts only if the fetch stops it. -/
theorem halted_update (hle : (countSet fun j => (s.thread j).halted L) ≤
      ((Finset.range F).filter (Stops L n)).card) {tp : Thread}
    (htp : tp.halted L = (s.thread id).halted L ∨ (s.thread id).halted L = false ∧ Stops L n F) :
    (countSet fun j => (Function.update s.thread id tp j).halted L) ≤
      ((Finset.range (F + 1)).filter (Stops L n)).card := by
  rw [card_stops_succ]
  obtain htp | ⟨hid, hstop⟩ := htp
  · rw [countSet_update_eq (p := Thread.halted L) htp]
    omega
  · rw [if_pos hstop]
    cases hnew : tp.halted L with
    | true =>
      rw [countSet_update_succ (p := Thread.halted L) hid hnew]
      omega
    | false =>
      rw [countSet_update_eq (p := Thread.halted L) (hnew.trans hid.symm)]
      omega

omit h in
theorem le_counted_update {c : ℕ} (hle : c ≤ countSet fun j => (s.thread j).counted L 0)
    {tp : Thread} (htp : (s.thread id).counted L 0 = true → tp.counted L 0 = true) :
    c ≤ countSet fun j => (Function.update s.thread id tp j).counted L 0 := by
  cases hid : (s.thread id).counted L 0 with
  | true =>
    rwa [countSet_update_eq (p := Thread.counted L 0) ((htp hid).trans hid.symm)]
  | false =>
    cases hnew : tp.counted L 0 with
    | true =>
      rw [countSet_update_succ (p := Thread.counted L 0) hid hnew]
      omega
    | false =>
      rwa [countSet_update_eq (p := Thread.counted L 0) (hnew.trans hid.symm)]

theorem Rare.fetch (hloop : (s.thread id).loop = 0) (hpc : (s.thread id).pc = .fetch) :
    Rare L (s.fetch L id) (F + 1) := by
  have hent : (s.thread id).entered 0 = true := by simp [Thread.entered, hpc]
  have hidx := h.index ⟨id, hent⟩
  unfold Team.fetch
  dsimp only
  rw [hidx, ← DynLoop.index_succ]
  split_ifs with hpast he
  · apply h.update
    · rfl
    · rfl
    · exact le_counted_update h.outCount (by simp [Thread.counted])
    · rfl
    · exact hent
    · simp [Thread.entered]
    · simp
    · simp
    · simp
    · simp
    · apply halted_update h.halted
      left
      simp [Thread.halted, hpc, hpast]
  · have hhalt : (s.thread id).halted L = false := by simp [Thread.halted, hpc, hloop, hpast]
    apply h.update
    · rfl
    · rfl
    · exact le_counted_update h.outCount (by simp [Thread.counted, hpc, hloop, hpast])
    · rfl
    · exact hent
    · simp [Thread.entered]
    · simp [hloop]
    · simp
    · simp
    · intro b e hbe
      cases hbe
      exact he
    · exact halted_update h.halted (Or.inr ⟨hhalt, Or.inr he⟩)
  · have hhalt : (s.thread id).halted L = false := by simp [Thread.halted, hpc, hloop, hpast]
    by_cases hb : L.IsPast (L.index n F)
    · rw [Team.finish_leave hb]
      apply h.update
      · rfl
      · rfl
      · exact le_counted_update h.outCount (by simp [Thread.counted])
      · rfl
      · exact hent
      · simp [Thread.entered]
      · simp
      · simp
      · simp
      · simp
      · exact halted_update h.halted (Or.inr ⟨hhalt, Or.inl hb⟩)
    · rw [Team.finish_take hb]
      apply h.update
      · rfl
      · rfl
      · exact le_counted_update h.outCount (by simp [Thread.counted, hpc, hloop, hpast])
      · rfl
      · exact hent
      · simp [Thread.entered]
      · simp [hloop]
      · simp
      · simp
      · simp
      · apply halted_update h.halted
        left
        simp [Thread.halted, hpc, hloop, hpast, he]

theorem Rare.out_step (hfew : ((Finset.range F).filter (Stops L n)).card < n)
    (hloop : (s.thread id).loop = 0) {b e : ℤ} (hpc : (s.thread id).pc = .out b e) :
    Rare L (s.countOut.finish L id b e) F := by
  have hent : (s.thread id).entered 0 = true := by simp [Thread.entered, hpc]
  have hhalt : (s.thread id).halted L = true := by simp [Thread.halted, hpc]
  have hcount : (s.thread id).counted L 0 = false := by simp [Thread.counted, hpc, hloop]
  have he := h.out id b e hpc
  have hlt : (countSet fun j => (s.thread j).counted L 0) < countSet fun j =>
    (s.thread j).halted L :=
    countSet_lt_countSet (fun j hj => halted_of_counted hj) hcount hhalt
  have hne : s.outCount + 1 ≠ n := by
    have := h.outCount
    have := h.halted
    omega
  have hout : s.countOut = { s with outCount := s.outCount + 1 } := by
    simp [Team.countOut, hne]
  have hstill : ∀ tp : Thread, tp.halted L = true →
      (countSet fun j => (Function.update s.thread id tp j).halted L) ≤
        ((Finset.range F).filter (Stops L n)).card := by
    intro tp htp
    rw [countSet_update_eq (p := Thread.halted L) (htp.trans hhalt.symm)]
    exact h.halted
  have hcounted : ∀ tp : Thread, tp.counted L 0 = true →
      s.outCount + 1 ≤ countSet fun j => (Function.update s.thread id tp j).counted L 0 := by
    intro tp htp
    have := h.outCount
    rw [countSet_update_succ (p := Thread.counted L 0) hcount htp]
    omega
  rw [hout]
  by_cases hb : L.IsPast b
  · rw [Team.finish_leave hb]
    apply h.update
    · rfl
    · rfl
    · exact hcounted _ (by simp [Thread.counted])
    · exact h.index ⟨id, hent⟩
    · exact hent
    · simp [Thread.entered]
    · simp
    · simp
    · simp
    · simp
    · exact hstill _ (by simp [Thread.halted])
  · rw [Team.finish_take hb]
    apply h.update
    · rfl
    · rfl
    · exact hcounted _ (by simp [Thread.counted, he])
    · exact h.index ⟨id, hent⟩
    · exact hent
    · simp [Thread.entered]
    · simp [hloop]
    · simp
    · simp
    · simp
    · exact hstill _ (by simp [Thread.halted, he])

theorem Rare.init {s' : Team n} {tp : Thread}
    (hthread : s'.thread = Function.update s.thread id tp) (hout : s'.outCount = s.outCount)
    (hin : s'.inCount = countSet fun j => (Function.update s.thread id tp j).entered 0)
    (hindex : (∃ j, (Function.update s.thread id tp j).entered 0 = true) →
      s'.dynamicIndex = L.index n F)
    (hidle : (∀ j, (Function.update s.thread id tp j).entered 0 = false) → F = 0)
    (hloop : tp.loop = 0) (hsched : tp.schedIndex = L.lb) (hlb : ¬ L.IsPast L.lb)
    (hcount : (s.thread id).counted L 0 = false) (hhalt : (s.thread id).halted L = false)
    (hpc : tp.pc = .lock ∨ tp.pc = .flag ∨ tp.pc = .fetch) : Rare L s' F := by
  have hcount' : tp.counted L 0 = false := by
    obtain hp | hp | hp := hpc <;> simp [Thread.counted, hp, hloop, hsched, hlb]
  have hhalt' : tp.halted L = false := by
    obtain hp | hp | hp := hpc <;> simp [Thread.halted, hp, hloop, hsched, hlb]
  constructor
  · rw [hthread]
    intro j
    by_cases hj : j = id
    · rw [hj, Function.update_self]
      omega
    · rw [Function.update_of_ne hj]
      exact h.loop j
  · rw [hthread]
    exact hin
  · rw [hthread, hout, countSet_update_eq (p := Thread.counted L 0) (hcount'.trans hcount.symm)]
    exact h.outCount
  · rw [hthread]
    exact hindex
  · rw [hthread]
    exact hidle
  · rw [hthread]
    intro j
    by_cases hj : j = id
    · rw [hj, Function.update_self]
      exact fun _ => hsched
    · rw [Function.update_of_ne hj]
      exact h.sched j
  · rw [hthread]
    intro j b e
    by_cases hj : j = id
    · rw [hj, Function.update_self]
      intro hbe
      rw [hbe] at hpc
      simp at hpc
    · rw [Function.update_of_ne hj]
      exact h.out j b e
  · rw [hthread, countSet_update_eq (p := Thread.halted L) (hhalt'.trans hhalt.symm)]
    exact h.halted

theorem Rare.step (hlb : ¬ L.IsPast L.lb)
    (hfew : ((Finset.range F).filter (Stops L n)).card < n) {s' : Team n}
    (hs : Dynamic.step (fun _ => L) 1 id s = some s') : ∃ F', Rare L s' F' := by
  obtain ⟨hlt, ⟨hpc, -, rfl⟩ | ⟨hpc, rfl⟩ | ⟨hpc, rfl⟩ | ⟨hpc, rfl⟩ | ⟨b, e, hpc, rfl⟩⟩ :=
    step_cases hs
  all_goals have hloop : (s.thread id).loop = 0 := by omega
  · have hent : (s.thread id).entered 0 = false := by simp [Thread.entered, hpc, hloop]
    have hkeep : ∀ j, (Function.update s.thread id
        { s.thread id with pc := .lock, schedIndex := L.lb, isLast := false } j).entered 0 =
          (s.thread j).entered 0 := by
      intro j
      by_cases hj : j = id
      · simp [hj, Thread.entered, hloop, hpc]
      · rw [Function.update_of_ne hj]
    refine ⟨F, h.init rfl rfl ?_ ?_ ?_ hloop rfl hlb ?_ ?_ (Or.inl rfl)⟩
    · simp only [hkeep]
      exact h.inCount
    · simp only [hkeep]
      exact h.index
    · simp only [hkeep]
      exact h.idle
    · simp [Thread.counted, hpc, hloop]
    · simp [Thread.halted, hpc, hloop]
  · have hent : (s.thread id).entered 0 = false := by simp [Thread.entered, hpc, hloop]
    refine ⟨F, h.init rfl rfl ?_ ?_ ?_ hloop (h.sched id (Or.inl hpc)) hlb ?_ ?_
      (Or.inr (Or.inl rfl))⟩
    · rw [countSet_update_succ (p := Thread.entered 0) hent (by simp [Thread.entered]), ← h.inCount]
      rfl
    · intro _
      change (if s.inCount = 0 then L.lb else s.dynamicIndex) = _
      split_ifs with h0
      · have hnone : ∀ j, (s.thread j).entered 0 = false := by
          intro j
          by_contra hj
          have := (countSet_pos_iff (f := fun i => (s.thread i).entered 0)).mpr
            ⟨j, eq_true_of_ne_false hj⟩
          rw [← h.inCount] at this
          omega
        rw [h.idle hnone]
        rfl
      · apply h.index
        apply countSet_pos_iff.mp
        rw [← h.inCount]
        omega
    · intro hall
      have := hall id
      simp [Thread.entered] at this
    · simp [Thread.counted, hpc, hloop]
    · simp [Thread.halted, hpc, hloop]
  · have hent : (s.thread id).entered 0 = true := by simp [Thread.entered, hpc]
    refine ⟨F, h.init rfl rfl ?_ ?_ ?_ hloop (h.sched id (Or.inr hpc)) hlb ?_ ?_
      (Or.inr (Or.inr rfl))⟩
    · rw [countSet_update_eq (p := Thread.entered 0) (by simp [Thread.entered, hpc]), ← h.inCount]
      rfl
    · exact fun _ => h.index ⟨id, hent⟩
    · intro hall
      have := hall id
      simp [Thread.entered] at this
    · simp [Thread.counted, hpc, hloop]
    · simp [Thread.halted, hpc, hloop]
  · exact ⟨F + 1, h.fetch hloop hpc⟩
  · exact ⟨F, h.out_step hfew hloop hpc⟩

end Rare

theorem alwaysReleased_of_few (hlb : ¬ L.IsPast L.lb)
    (hfew : ∀ S : Finset ℕ, (∀ j ∈ S, Stops L n j) → S.card < n) : AlwaysReleased L n := by
  intro s h hall
  have hcard : ∀ F, ((Finset.range F).filter (Stops L n)).card < n := by
    intro F
    apply hfew
    intro j hj
    exact (Finset.mem_filter.mp hj).2
  have hinv : ∃ F, Rare L s F := by
    apply Reachable.invariant h
    · intro s hs
      refine ⟨0, ?_, ?_, ?_, ?_, ?_, ?_, ?_, ?_⟩
      · intro id _
        exact hs.pc id
      · simp [Thread.entered, hs.loop, hs.pc, countSet_none, hs.inCount]
      · simp [hs.outCount]
      · simp [Thread.entered, hs.loop, hs.pc]
      · intro _
        rfl
      · simp [hs.pc]
      · simp [hs.pc]
      · simp [Thread.halted, hs.loop, hs.pc, countSet_none]
    · rintro id s s' ⟨F, hr⟩ hs
      exact hr.step hlb (hcard F) hs
  obtain ⟨F, hr⟩ := hinv
  have hhalt := hr.halted
  have := hcard F
  simp [Thread.halted, hall, countSet] at hhalt
  omega

/-! ## Runs that end without a release -/

/-- States reached in a run of the one loop. -/
def Reached (L : DynLoop) (s : Team n) : Prop := Reachable Start (step (fun _ => L) 1) s

structure Fetching (tp : Thread) : Prop where
  loop : tp.loop = 0
  pc : tp.pc = .fetch

section Runs

variable {s : Team n} {id : Fin n}

theorem Reached.step (id : Fin n) {s' : Team n} (h : Reached L s)
    (hs : Dynamic.step (fun _ => L) 1 id s = some s') : Reached L s' :=
  ReachableIf.step id h trivial hs

theorem Reached.lock (h : Reached L s) (hc : 1 ≤ L.chunkSize) (hloop : (s.thread id).loop = 0)
    (hpc : (s.thread id).pc = .wait) (hflag : s.inFlags id = false) :
    Reached L (s.set id { s.thread id with pc := .lock, schedIndex := L.lb, isLast := false }) := by
  have hc' : ¬ L.chunkSize ≤ 0 := by omega
  apply h.step id
  simp [Dynamic.step, hloop, hpc, hflag, hc']

theorem Reached.enter (h : Reached L s) (hloop : (s.thread id).loop = 0)
    (hpc : (s.thread id).pc = .lock) : Reached L (s.enter L id) := by
  apply h.step id
  simp [Dynamic.step, hloop, hpc]

theorem Reached.flag (h : Reached L s) (hloop : (s.thread id).loop = 0)
    (hpc : (s.thread id).pc = .flag) :
    Reached L { s.set id { s.thread id with pc := .fetch } with
      inFlags := Function.update s.inFlags id true } := by
  apply h.step id
  simp [Dynamic.step, hloop, hpc]

theorem Reached.fetch (h : Reached L s) (hid : Fetching (s.thread id)) :
    Reached L (s.fetch L id) := by
  apply h.step id
  simp [Dynamic.step, hid.loop, hid.pc]

theorem Reached.out (h : Reached L s) (hloop : (s.thread id).loop = 0) {b e : ℤ}
    (hpc : (s.thread id).pc = .out b e) : Reached L (s.countOut.finish L id b e) := by
  apply h.step id
  simp [Dynamic.step, hloop, hpc]

theorem exists_entered (h : Reached L s) (hc : 1 ≤ L.chunkSize) (hloop : (s.thread id).loop = 0)
    (hpc : (s.thread id).pc = .wait) (hflag : s.inFlags id = false) :
    ∃ s' : Team n, Reached L s' ∧ Fetching (s'.thread id) ∧ (s'.thread id).schedIndex = L.lb ∧
      (∀ j ≠ id, s'.thread j = s.thread j ∧ s'.inFlags j = s.inFlags j) ∧
      s'.inCount = s.inCount + 1 ∧ s'.outCount = s.outCount ∧
      s'.dynamicIndex = if s.inCount = 0 then L.lb else s.dynamicIndex := by
  have h1 := h.lock hc hloop hpc hflag
  have h2 := @Reached.enter _ _ _ id h1 (by simp [Team.set, hloop]) (by simp [Team.set])
  have h3 := @Reached.flag _ _ _ id h2 (by simp [Team.set, Team.enter, hloop])
    (by simp [Team.set, Team.enter])
  refine ⟨_, h3, ⟨?_, ?_⟩, ?_, ?_, ?_, ?_, ?_⟩
  · simp [Team.set, Team.enter, hloop]
  · simp [Team.set]
  · simp [Team.set, Team.enter]
  · intro j hj
    simp [Team.set, Team.enter, hj]
  · rfl
  · rfl
  · rfl

theorem exists_all_entered (h : Reached L s) (hc : 1 ≤ L.chunkSize) (ids : List (Fin n))
    (hnodup : ids.Nodup) (hfresh : ∀ id ∈ ids, (s.thread id).loop = 0 ∧ (s.thread id).pc = .wait ∧
      s.inFlags id = false) (hidx : s.inCount ≠ 0 → s.dynamicIndex = L.lb) :
    ∃ s' : Team n, Reached L s' ∧
      (∀ id ∈ ids, Fetching (s'.thread id) ∧ (s'.thread id).schedIndex = L.lb) ∧
      (∀ j ∉ ids, s'.thread j = s.thread j) ∧ s'.inCount = s.inCount + ids.length ∧
      s'.outCount = s.outCount ∧ (s'.inCount ≠ 0 → s'.dynamicIndex = L.lb) := by
  induction ids generalizing s with
  | nil => exact ⟨s, h, by simp, by simp, rfl, rfl, hidx⟩
  | cons id ids ih =>
    obtain ⟨hnotin, hnodup⟩ := List.nodup_cons.mp hnodup
    obtain ⟨hloop, hpc, hflag⟩ := hfresh id (by simp)
    obtain ⟨t, ht, hfetch, hsched, hother, hin, hout, hdyn⟩ := exists_entered h hc hloop hpc hflag
    have hne : ∀ j ∈ ids, j ≠ id := by
      intro j hj hji
      exact hnotin (hji ▸ hj)
    obtain ⟨s', hs', hall, hrest, hin', hout', hdyn'⟩ := ih ht hnodup
      (by
        intro j hj
        obtain ⟨hth, hfl⟩ := hother j (hne j hj)
        rw [hth, hfl]
        exact hfresh j (by simp [hj]))
      (by
        intro _
        rw [hdyn]
        split_ifs with h0
        · rfl
        · exact hidx h0)
    refine ⟨s', hs', ?_, ?_, ?_, hout'.trans hout, hdyn'⟩
    · intro j hj
      obtain rfl | hj := List.mem_cons.mp hj
      · rw [hrest j hnotin]
        exact ⟨hfetch, hsched⟩
      · exact hall j hj
    · intro j hj
      rw [List.mem_cons, not_or] at hj
      rw [hrest j hj.2, (hother j hj.1).1]
    · rw [hin', hin, List.length_cons]
      omega

theorem exists_all_left (h : Reached L s) (ids : List (Fin n))
    (hids : ∀ id ∈ ids, (s.thread id).loop = 1 ∨
      Fetching (s.thread id) ∧ L.IsPast (s.thread id).schedIndex) :
    ∃ s' : Team n, Reached L s' ∧ (∀ id ∈ ids, (s'.thread id).loop = 1) ∧
      (∀ j, (s.thread j).loop = 1 → (s'.thread j).loop = 1) ∧ s'.inCount = s.inCount := by
  induction ids generalizing s with
  | nil => exact ⟨s, h, by simp, fun _ hj => hj, rfl⟩
  | cons id ids ih =>
    obtain hl | ⟨hf, hpast⟩ := hids id (by simp)
    · obtain ⟨s', hs', hall, hkeep, hin⟩ := ih h fun j hj => hids j (by simp [hj])
      refine ⟨s', hs', ?_, hkeep, hin⟩
      intro j hj
      obtain rfl | hj := List.mem_cons.mp hj
      · exact hkeep j hl
      · exact hall j hj
    · have ht := h.fetch hf
      have hth : (s.fetch L id).thread = Function.update s.thread id
          { s.thread id with loop := (s.thread id).loop + 1, pc := .wait } := by
        simp [Team.fetch, hpast, Team.leave, Team.set]
      have hin : (s.fetch L id).inCount = s.inCount := by
        simp [Team.fetch, hpast, Team.leave, Team.set]
      have hself : ((s.fetch L id).thread id).loop = 1 := by
        rw [hth, Function.update_self]
        exact congrArg (· + 1) hf.loop
      have hother : ∀ j ≠ id, (s.fetch L id).thread j = s.thread j := by
        intro j hj
        rw [hth, Function.update_of_ne hj]
      obtain ⟨s', hs', hall, hkeep, hin'⟩ := ih ht (by
        intro j hj
        by_cases hji : j = id
        · rw [hji]
          exact Or.inl hself
        · rw [hother j hji]
          exact hids j (by simp [hj]))
      refine ⟨s', hs', ?_, ?_, hin'.trans hin⟩
      · intro j hj
        obtain rfl | hj := List.mem_cons.mp hj
        · exact hkeep j hself
        · exact hall j hj
      · intro j hj
        apply hkeep
        by_cases hji : j = id
        · rw [hji]
          exact hself
        · rw [hother j hji]
          exact hj

/-- The thread has halted: its next call, if any, returns `FALSE`. -/
def Halted (L : DynLoop) (tp : Thread) : Prop :=
  tp.loop = 1 ∨ Fetching tp ∧ L.IsPast tp.schedIndex

theorem exists_stopped (h : Reached L s) (hid : Fetching (s.thread id))
    (hsched : ¬ L.IsPast (s.thread id).schedIndex) {j : ℕ} (hidx : s.dynamicIndex = L.index n j)
    (hstop : Stops L n j) (hout : L.IsPast (L.index n (j + 1)) → s.outCount + 1 ≠ n) :
    ∃ s' : Team n, Reached L s' ∧ Halted L (s'.thread id) ∧
      (¬ L.IsPast (L.index n j) → (s'.thread id).loop ≠ 1) ∧
      (∀ i ≠ id, s'.thread i = s.thread i) ∧ s'.inCount = s.inCount ∧
      s'.outCount = s.outCount + (if L.IsPast (L.index n (j + 1)) then 1 else 0) ∧
      s'.dynamicIndex = L.index n (j + 1) := by
  have h1 := h.fetch hid
  unfold Team.fetch at h1
  dsimp only at h1
  rw [hidx, ← DynLoop.index_succ, if_neg hsched] at h1
  by_cases he : L.IsPast (L.index n (j + 1))
  · rw [if_pos he] at h1
    have h2 := @Reached.out n L _ id h1 (by simp [Team.set, hid.loop]) (L.index n j)
      (L.index n (j + 1)) (by simp [Team.set])
    have hcount : ({ s with dynamicIndex := L.index n (j + 1) }.set id
        { s.thread id with pc := .out (L.index n j) (L.index n (j + 1)) } : Team n).countOut =
        { s with
          dynamicIndex := L.index n (j + 1)
          thread := Function.update s.thread id
            { s.thread id with pc := .out (L.index n j) (L.index n (j + 1)) }
          outCount := s.outCount + 1 } := by
      simp [Team.countOut, Team.set, hout he]
    rw [hcount] at h2
    refine ⟨_, h2, ?_, ?_, ?_, ?_, ?_, ?_⟩
    all_goals by_cases hb : L.IsPast (L.index n j)
    all_goals simp +contextual [Team.finish_leave, Team.finish_take, hb, he, Team.set, Halted,
      hid.loop]
    exact ⟨rfl, rfl⟩
  · have hb : L.IsPast (L.index n j) := hstop.resolve_right he
    rw [if_neg he, Team.finish_leave hb] at h1
    refine ⟨_, h1, ?_, fun hnb => absurd hb hnb, ?_, rfl, ?_, rfl⟩
    · left
      simp [Team.set, hid.loop]
    · intro i hi
      simp [Team.set, hi]
    · simp [Team.set, he]

theorem exists_halted (h : Reached L s) (hid : Fetching (s.thread id))
    (hsched : ¬ L.IsPast (s.thread id).schedIndex) {j : ℕ} (hidx : s.dynamicIndex = L.index n j)
    {d : ℕ} (hgo : ∀ i, j ≤ i → i < j + d → ¬ Stops L n i) (hstop : Stops L n (j + d))
    (hout : L.IsPast (L.index n (j + d + 1)) → s.outCount + 1 ≠ n) :
    ∃ s' : Team n, Reached L s' ∧ Halted L (s'.thread id) ∧
      (¬ L.IsPast (L.index n (j + d)) → (s'.thread id).loop ≠ 1) ∧
      (∀ i ≠ id, s'.thread i = s.thread i) ∧ s'.inCount = s.inCount ∧
      s'.outCount = s.outCount + (if L.IsPast (L.index n (j + d + 1)) then 1 else 0) ∧
      s'.dynamicIndex = L.index n (j + d + 1) := by
  induction d generalizing s j with
  | zero => exact exists_stopped h hid hsched hidx hstop hout
  | succ d ih =>
    have hno := hgo j le_rfl (by omega)
    rw [Stops, not_or] at hno
    have h1 := h.fetch hid
    unfold Team.fetch at h1
    dsimp only at h1
    rw [hidx, ← DynLoop.index_succ, if_neg hsched, if_neg hno.2, Team.finish_take hno.1] at h1
    have hshift : j + 1 + d = j + (d + 1) := by omega
    have hlater : ∀ i, j + 1 ≤ i → i < j + 1 + d → ¬ Stops L n i := by
      intro i h1 h2
      exact hgo i (by omega) (by omega)
    obtain ⟨s', hs', hhalt, hstay, hother, hin, hout', hdyn⟩ := ih h1 (by
        simp only [Team.set, Function.update_self]
        exact ⟨hid.loop, rfl⟩) (by simpa [Team.set] using hno.2) rfl hlater
      (by rwa [hshift]) (by rwa [hshift])
    rw [hshift] at hout' hdyn hstay
    refine ⟨s', hs', hhalt, hstay, ?_, hin, hout', hdyn⟩
    intro i hi
    rw [hother i hi]
    simp [Team.set, hi]

def Wraps (L : DynLoop) (n p : ℕ) : Prop := L.IsPast (L.index n p) ∧ ¬ L.IsPast (L.index n (p + 1))

/-- As long as some fetches stop a thread without counting it, all threads halt and the loop is
not released. -/
theorem exists_all_halted (h : Reached L s) (ids : List (Fin n)) (hnodup : ids.Nodup)
    (hids : ∀ id ∈ ids, Fetching (s.thread id) ∧ ¬ L.IsPast (s.thread id).schedIndex) {j : ℕ}
    (hidx : s.dynamicIndex = L.index n j) (S : Finset ℕ) (hcard : ids.length ≤ S.card)
    (hS : ∀ i ∈ S, j ≤ i ∧ Stops L n i)
    (hsum : s.outCount + ids.length < n ∨ s.outCount + ids.length = n ∧
      ∃ p, j ≤ p ∧ Wraps L n p ∧ ((Finset.Ico j (p + 1)).filter (Stops L n)).card ≤ ids.length) :
    ∃ s' : Team n, Reached L s' ∧ (∀ id ∈ ids, Halted L (s'.thread id)) ∧
      (∀ i ∉ ids, s'.thread i = s.thread i) ∧ s'.inCount = s.inCount := by
  induction ids generalizing s j S with
  | nil => exact ⟨s, h, by simp, by simp, rfl⟩
  | cons id ids ih =>
    obtain ⟨hnotin, hnodup⟩ := List.nodup_cons.mp hnodup
    obtain ⟨hf, hlive⟩ := hids id (by simp)
    rw [List.length_cons] at hcard hsum
    have hex : ∃ d, Stops L n (j + d) := by
      obtain ⟨i, hi⟩ := Finset.card_pos.mp (show 0 < S.card by omega)
      obtain ⟨hji, hstop⟩ := hS i hi
      exact ⟨i - j, by rwa [Nat.add_sub_cancel' hji]⟩
    obtain ⟨d, hstop, hmin⟩ : ∃ d, Stops L n (j + d) ∧ ∀ i, j ≤ i → i < j + d → ¬ Stops L n i := by
      refine ⟨Nat.find hex, Nat.find_spec hex, ?_⟩
      intro i h1 h2
      have := Nat.find_min hex (m := i - j) (by omega)
      rwa [Nat.add_sub_cancel' h1] at this
    -- the wrapping fetch comes later when this one counts the thread out
    have hlater : ∀ p, j ≤ p → Wraps L n p → p ≠ j + d → j + d + 1 ≤ p ∧
        ((Finset.Ico (j + d + 1) (p + 1)).filter (Stops L n)).card + 1 ≤
          ((Finset.Ico j (p + 1)).filter (Stops L n)).card := by
      intro p hjp hw hne
      have hlt : j + d + 1 ≤ p := by
        by_contra hc
        exact hmin p hjp (by omega) (Or.inl hw.1)
      refine ⟨hlt, ?_⟩
      rw [← Finset.card_insert_of_notMem (a := j + d) (by simp)]
      apply Finset.card_le_card
      intro i hi
      rw [Finset.mem_insert, Finset.mem_filter, Finset.mem_Ico] at hi
      rw [Finset.mem_filter, Finset.mem_Ico]
      obtain rfl | ⟨⟨h1, h2⟩, h3⟩ := hi
      · exact ⟨⟨by omega, by omega⟩, hstop⟩
      · exact ⟨⟨by omega, h2⟩, h3⟩
    have hout : L.IsPast (L.index n (j + d + 1)) → s.outCount + 1 ≠ n := by
      intro he
      obtain hlt | ⟨heq, p, hjp, hw, hfew⟩ := hsum
      · omega
      · obtain ⟨hlt, hle⟩ := hlater p hjp hw (by
          rintro rfl
          exact hw.2 he)
        have hpos : 0 < ((Finset.Ico (j + d + 1) (p + 1)).filter (Stops L n)).card := by
          apply Finset.card_pos.mpr
          exact ⟨p, Finset.mem_filter.mpr ⟨Finset.mem_Ico.mpr ⟨hlt, by omega⟩, Or.inl hw.1⟩⟩
        omega
    obtain ⟨t, ht, hhalt, -, hother, hin, hcount, hdyn⟩ :=
      exists_halted h hf hlive hidx hmin hstop hout
    have hne : ∀ i ∈ ids, i ≠ id := by
      intro i hi hii
      exact hnotin (hii ▸ hi)
    obtain ⟨s', hs', hall, hrest, hin'⟩ := ih ht hnodup
      (by
        intro i hi
        rw [hother i (hne i hi)]
        exact hids i (by simp [hi]))
      hdyn (S.erase (j + d))
      (by
        have := Finset.pred_card_le_card_erase (s := S) (a := j + d)
        omega)
      (by
        intro i hi
        obtain ⟨hne', hi⟩ := Finset.mem_erase.mp hi
        obtain ⟨hji, hst⟩ := hS i hi
        refine ⟨?_, hst⟩
        by_contra hc
        exact hmin i hji (by omega) hst)
      (by
        rw [hcount]
        split_ifs with he
        · obtain hlt | ⟨heq, p, hjp, hw, hfew⟩ := hsum
          · left
            omega
          · right
            obtain ⟨hlt, hle⟩ := hlater p hjp hw (by
              rintro rfl
              exact hw.2 he)
            exact ⟨by omega, p, hlt, hw, by omega⟩
        · left
          obtain hlt | ⟨heq, -⟩ := hsum <;> omega)
    refine ⟨s', hs', ?_, ?_, hin'.trans hin⟩
    · intro i hi
      obtain rfl | hi := List.mem_cons.mp hi
      · rw [hrest i hnotin]
        exact hhalt
      · exact hall i hi
    · intro i hi
      rw [List.mem_cons, not_or] at hi
      rw [hrest i hi.2, hother i hi.1]

end Runs

theorem exists_team_entered (hc : 1 ≤ L.chunkSize) (hn : 0 < n) :
    ∃ s : Team n, Reached L s ∧
      (∀ id, Fetching (s.thread id) ∧ (s.thread id).schedIndex = L.lb) ∧
      s.inCount = n ∧ s.outCount = 0 ∧ s.dynamicIndex = L.lb := by
  have h0 : Reached L (startOf n) := ReachableIf.start (start_startOf n)
  obtain ⟨s, hs, hall, -, hin, hout, hdyn⟩ := exists_all_entered h0 hc (List.finRange n)
    (List.nodup_finRange n) (fun id _ => ⟨rfl, rfl, rfl⟩) (fun hne => absurd rfl hne)
  rw [List.length_finRange] at hin
  have hin' : s.inCount = n := by
    rw [hin]
    exact Nat.zero_add n
  exact ⟨s, hs, fun id => hall id (List.mem_finRange id), hin', hout, hdyn (by omega)⟩

/-- A team whose threads have all halted without a release ends without one. -/
theorem not_alwaysReleased_of_halted {s : Team n} (h : Reached L s)
    (hall : ∀ id, Halted L (s.thread id)) (hin : s.inCount ≠ 0) : ¬ AlwaysReleased L n := by
  intro hrel
  obtain ⟨s', hs', hleft, -, hin'⟩ := exists_all_left h (List.finRange n) fun id _ => hall id
  have := (hrel s' hs' fun id => hleft id (List.mem_finRange id)).inCount
  omega

theorem not_alwaysReleased_of_past (hc : 1 ≤ L.chunkSize) (hn : 0 < n) (hlb : L.IsPast L.lb) :
    ¬ AlwaysReleased L n := by
  obtain ⟨s, hs, hall, hin, -, -⟩ := @exists_team_entered n L hc hn
  apply not_alwaysReleased_of_halted hs ?_ (by omega)
  intro id
  right
  rw [(hall id).2]
  exact ⟨(hall id).1, hlb⟩

/-- A fetch that stops a thread comes at the end of the loop, or just before. -/
theorem Stops.le {J j : ℕ} (hj : Stops L n j) (hbefore : ∀ j < J, ¬ L.IsPast (L.index n j)) :
    J ≤ j + 1 := by
  by_contra hc
  obtain hp | hp := hj
  · exact hbefore j (by omega) hp
  · exact hbefore (j + 1) (by omega) hp

/-- The wrapping fetch is among the first `n` that stop a thread. -/
theorem not_alwaysReleased_of_early_wrap (hc : 1 ≤ L.chunkSize) (hn : 2 ≤ n)
    (hlb : ¬ L.IsPast L.lb) {S : Finset ℕ} (hS : ∀ j ∈ S, Stops L n j) (hcard : n ≤ S.card)
    {J i : ℕ} (hbefore : ∀ j < J, ¬ L.IsPast (L.index n j)) (hi0 : 0 < i) (hi : i < n)
    (hwrap : Wraps L n (J + i - 1)) : ¬ AlwaysReleased L n := by
  obtain ⟨s, hs, hall, hin, hout, hdyn⟩ := @exists_team_entered n L hc (by omega)
  obtain ⟨s', hs', hhalt, -, hin'⟩ := exists_all_halted hs (List.finRange n)
    (List.nodup_finRange n) (fun id _ => ⟨(hall id).1, by rwa [(hall id).2]⟩) (j := 0) hdyn S
    (by rwa [List.length_finRange]) (fun j hj => ⟨Nat.zero_le j, hS j hj⟩)
    (by
      right
      rw [hout, List.length_finRange]
      refine ⟨Nat.zero_add n, J + i - 1, Nat.zero_le _, hwrap, ?_⟩
      have hsub : (Finset.Ico 0 (J + i - 1 + 1)).filter (Stops L n) ⊆
          Finset.Ico (J - 1) (J + i) := by
        intro j hj
        rw [Finset.mem_filter, Finset.mem_Ico] at hj
        have := hj.2.le hbefore
        rw [Finset.mem_Ico]
        omega
      have hle := Finset.card_le_card hsub
      rw [Nat.card_Ico] at hle
      omega)
  exact not_alwaysReleased_of_halted hs' (fun id => hhalt id (List.mem_finRange id)) (by omega)

/-- The thread of the last chunk makes its last call before the others fetch. -/
theorem not_alwaysReleased_of_last_wrap (hc : 1 ≤ L.chunkSize) (hn : 2 ≤ n)
    (hlb : ¬ L.IsPast L.lb) {J : ℕ} (hpos : 0 < J) (hJ : L.IsPast (L.index n J))
    (hbefore : ∀ j < J, ¬ L.IsPast (L.index n j))
    (hmin : ∀ i < n, L.IsPast (L.index n (J + i))) (hwrap : Wraps L n (J + n - 1)) :
    ¬ AlwaysReleased L n := by
  obtain ⟨s, hs, hall, hin, hout, hdyn⟩ := @exists_team_entered n L hc (by omega)
  let first : Fin n := ⟨0, by omega⟩
  have hgo : ∀ j, 0 ≤ j → j < 0 + (J - 1) → ¬ Stops L n j := by
    intro j _ hj hst
    have := hst.le hbefore
    omega
  have hlast : 0 + (J - 1) + 1 = J := by omega
  obtain ⟨t, ht, hhalt, hstay, hother, hint, houtt, hdynt⟩ := exists_halted (j := 0)
    hs (hall first).1 (by rwa [(hall first).2]) hdyn hgo (Or.inr (by rwa [hlast]))
    (by
      intro _
      omega)
  rw [hlast] at houtt hdynt
  rw [if_pos hJ, hout] at houtt
  obtain ⟨hft, hpt⟩ := hhalt.resolve_left (hstay (hbefore (0 + (J - 1)) (by omega)))
  have hu := ht.fetch hft
  generalize hu' : t.fetch L first = u at hu
  have huth : u.thread = Function.update t.thread first
      { t.thread first with loop := (t.thread first).loop + 1, pc := .wait } := by
    rw [← hu']
    simp [Team.fetch, hpt, Team.leave, Team.set]
  have hurest : u.inCount = t.inCount ∧ u.outCount = t.outCount ∧
      u.dynamicIndex = L.index n (J + 1) := by
    rw [← hu', DynLoop.index_succ, ← hdynt]
    simp [Team.fetch, hpt, Team.leave, Team.set]
  obtain ⟨huin, huout, hudyn⟩ := hurest
  have hothers : ∀ id ∈ (List.finRange n).erase first, id ≠ first := by
    intro id hid
    exact ((List.nodup_finRange n).mem_erase_iff.mp hid).1
  have hlen : ((List.finRange n).erase first).length = n - 1 := by
    rw [List.length_erase_of_mem (List.mem_finRange first), List.length_finRange]
  obtain ⟨s', hs', hhalts, hrest, hin'⟩ := exists_all_halted hu ((List.finRange n).erase first)
    ((List.nodup_finRange n).erase first)
    (by
      intro id hid
      rw [huth, Function.update_of_ne (hothers id hid), hother id (hothers id hid), (hall id).2]
      exact ⟨(hall id).1, hlb⟩)
    hudyn (Finset.Ico (J + 1) (J + n)) (by rw [Nat.card_Ico, hlen]; omega)
    (by
      intro j hj
      rw [Finset.mem_Ico] at hj
      refine ⟨hj.1, Or.inl ?_⟩
      have := hmin (j - J) (by omega)
      rwa [Nat.add_sub_cancel' (by omega)] at this)
    (by
      right
      rw [huout, houtt, hlen]
      refine ⟨by omega, J + n - 1, by omega, hwrap, ?_⟩
      have hle := Finset.card_le_card
        (Finset.filter_subset (Stops L n) (Finset.Ico (J + 1) (J + n - 1 + 1)))
      rw [Nat.card_Ico] at hle
      omega)
  apply not_alwaysReleased_of_halted hs' ?_ (by omega)
  intro id
  by_cases hid : id = first
  · left
    rw [hid, hrest first (fun hmem => hothers first hmem rfl), huth, Function.update_self]
    exact congrArg (· + 1) hft.loop
  · exact hhalts id ((List.nodup_finRange n).mem_erase_iff.mpr ⟨hid, List.mem_finRange id⟩)

theorem not_alwaysReleased_of_wrap (hc : 1 ≤ L.chunkSize) (hn : 2 ≤ n) (hlb : ¬ L.IsPast L.lb)
    (hends : ¬ ∃ J, L.Ends n J) {S : Finset ℕ} (hS : ∀ j ∈ S, Stops L n j) (hcard : n ≤ S.card) :
    ¬ AlwaysReleased L n := by
  have hex : ∃ J, L.IsPast (L.index n J) := by
    obtain ⟨j, hj⟩ := Finset.card_pos.mp (show 0 < S.card by omega)
    obtain hp | hp := hS j hj
    · exact ⟨j, hp⟩
    · exact ⟨j + 1, hp⟩
  obtain ⟨J, hJ, hbefore⟩ : ∃ J, L.IsPast (L.index n J) ∧ ∀ j < J, ¬ L.IsPast (L.index n j) :=
    ⟨Nat.find hex, Nat.find_spec hex, fun j hj => Nat.find_min hex hj⟩
  have hpos : 0 < J := by
    apply Nat.pos_of_ne_zero
    rintro rfl
    exact hlb hJ
  have hexw : ∃ i, i ≤ n ∧ ¬ L.IsPast (L.index n (J + i)) := by
    by_contra hc
    push Not at hc
    exact hends ⟨J, hpos, hbefore, hc⟩
  obtain ⟨i, ⟨hi, hni⟩, hmin⟩ : ∃ i, (i ≤ n ∧ ¬ L.IsPast (L.index n (J + i))) ∧
      ∀ i' < i, L.IsPast (L.index n (J + i')) := by
    refine ⟨Nat.find hexw, Nat.find_spec hexw, ?_⟩
    intro i' hi'
    by_contra hc
    have := (Nat.find_spec hexw).1
    exact Nat.find_min hexw hi' ⟨by omega, hc⟩
  have hi0 : 0 < i := by
    apply Nat.pos_of_ne_zero
    rintro rfl
    exact hni hJ
  have hwrap : Wraps L n (J + i - 1) := by
    have h1 := hmin (i - 1) (by omega)
    rw [← Nat.add_sub_assoc hi0] at h1
    refine ⟨h1, ?_⟩
    rwa [Nat.sub_add_cancel (by omega)]
  obtain hlt | rfl := lt_or_eq_of_le hi
  · exact not_alwaysReleased_of_early_wrap hc hn hlb hS hcard hbefore hi0 hlt hwrap
  · exact not_alwaysReleased_of_last_wrap hc hn hlb hpos hJ hbefore hmin hwrap

/-- The shared state is released in every interleaving exactly when the start index is not past
the end and either the index stays past the end for a fetch of every thread or too few fetches
get past it for all threads to come to an end. -/
theorem alwaysReleased_iff (hn : 2 ≤ n) (hc : 1 ≤ L.chunkSize) :
    AlwaysReleased L n ↔ ¬ L.IsPast L.lb ∧
      ((∃ J, L.Ends n J) ∨ ∀ S : Finset ℕ, (∀ j ∈ S, Stops L n j) → S.card < n) := by
  constructor
  · intro hrel
    have hlb : ¬ L.IsPast L.lb := fun hp => not_alwaysReleased_of_past hc (by omega) hp hrel
    refine ⟨hlb, ?_⟩
    by_contra hno
    rw [not_or] at hno
    obtain ⟨hends, hfew⟩ := hno
    push Not at hfew
    obtain ⟨S, hS, hcard⟩ := hfew
    exact not_alwaysReleased_of_wrap hc hn hlb hends hS hcard hrel
  · rintro ⟨hlb, ⟨J, hends⟩ | hfew⟩
    · exact alwaysReleased_of_ends (by omega) hends
    · exact alwaysReleased_of_few hlb hfew

theorem alwaysReleased_once : AlwaysReleased (oneThenTwo 0) 2 ∧
    (¬ (oneThenTwo 0).IsPast (oneThenTwo 0).lb ∧ ((∃ J, (oneThenTwo 0).Ends 2 J) ∨
      ∀ S : Finset ℕ, (∀ j ∈ S, Stops (oneThenTwo 0) 2 j) → S.card < 2)) := by
  have hends : (oneThenTwo 0).Ends 2 1 := ⟨by decide, by decide, by decide⟩
  have hlb : ¬ (oneThenTwo 0).IsPast (oneThenTwo 0).lb := by decide
  exact ⟨(alwaysReleased_iff (by decide) (by decide)).mpr ⟨hlb, Or.inl ⟨1, hends⟩⟩, hlb,
    Or.inl ⟨1, hends⟩⟩

/-- A loop without iterations. -/
def emptyLoop : DynLoop :=
  { lb := 0, up := 0, ubofs := 0, step := 1, chunkSize := 1, guided := false }

/-- Both threads pass an empty loop and leave their flags set. -/
theorem emptyLoop_not_released : ∃ s : Team 2,
    Reachable Start (step (fun _ => emptyLoop) 1) s ∧ (∀ id, (s.thread id).loop = 1) ∧
      s.inCount = 2 ∧ ∀ id, s.inFlags id = true :=
  ⟨_, reachable_of_run [0, 0, 0, 0, 1, 1, 1, 1] (start_startOf 2) rfl, by decide, by decide,
    by decide⟩

end OmniCompiler.Omp.Dynamic
