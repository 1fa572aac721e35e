import OmniCompiler.Omp.ForkJoinRun

/-!
# No deadlock

A master waits for the processes of its team, and these may be masters that wait in regions inside.
The records of the regions inside lie deeper, so that of the masters that wait the deepest waits
for a process that can go on.
-/
namespace OmniCompiler.Omp.ForkJoin

open Barrier (reverse reverse_ne)
open Holding

/-- A process opens a region. -/
def Opens (s s' : State) : Prop :=
  ∃ p cthd max, (s.procs p).pc = .body ∧ (s'.procs p).pc = .getting cthd max 1 []

variable {s s' : State} {maxThreads p q d i j k m : ℕ} {P : Proc} {J : Job}
  {threads' : ℕ → Thread}

/-- What going on needs: the processes that have not been created do nothing, only process 0 runs
without a job, masters look at flags from number 1 on, no more barriers are left than there are,
and a record lies deeper than its parent. -/
structure Live (maxThreads : ℕ) (s : State) : Prop where
  outside : ∀ p, p ≠ 0 → maxThreads ≤ p → s.procs p = ⟨false, none, [], .idle, [], none⟩
  serial : ∀ p, (s.procs p).job = none ∧ (s.procs p).pc ≠ .idle ↔ p = 0
  waiting_pos : ∀ {p tpp j}, (s.procs p).pc = .waiting tpp j → 0 < j
  joining_pos : ∀ {p j}, (s.procs p).pc = .joining j → 0 < j
  passed_le : ∀ {m c}, c ∈ (s.procs m).calls →
    (s.threads c.cthd).passed ≤ (s.threads c.cthd).barriers
  depth : ∃ depth : ℕ → ℕ, ∀ p, ∀ t ∈ activeBy (s.procs p), ∀ d,
    (s.threads t).parent = some d → depth d < depth t

theorem getProc_fst_lt {isUsed : ℕ → Bool} {last hint last' : ℕ} (hlast : last < maxThreads)
    (hhint : hint < maxThreads)
    (h : getProc maxThreads isUsed last hint = (some q, last')) : q < maxThreads := by
  have hsearch : ∀ k last, last < maxThreads →
      searchProc maxThreads isUsed k last = (some q, last') → q < maxThreads := by
    intro k
    induction k with
    | zero => simp [searchProc]
    | succ k ih =>
      intro last hlast hs
      simp only [searchProc] at hs
      have hnext : (if maxThreads ≤ last + 1 then 0 else last + 1) < maxThreads := by
        split_ifs <;> omega
      generalize (if maxThreads ≤ last + 1 then 0 else last + 1) = next at hs hnext
      by_cases hu : isUsed next = true
      · rw [if_pos hu] at hs
        exact ih _ hnext hs
      · rw [if_neg hu] at hs
        obtain ⟨rfl, -⟩ : next = q ∧ next = last' := by simpa using hs
        exact hnext
  rw [getProc] at h
  split_ifs at h with hu
  · exact hsearch _ _ hlast h
  · obtain ⟨rfl, -⟩ : hint = q ∧ last = last' := by simpa using h
    exact hhint

theorem Teamed.parent_active (h : Teamed s) {t : ℕ} (ht : t ∈ activeBy (s.procs p))
    (hd : (s.threads t).parent = some d) : ∃ r, d ∈ activeBy (s.procs r) := by
  have hteam : ∀ {i}, (i, d) ∈ tasks s.threads (s.procs p) → ∃ r, d ∈ activeBy (s.procs r) := by
    intro i hi
    obtain ⟨-, m, k, hk, -⟩ := h.team hi
    exact ⟨m, mem_active_of_team h.owned hk⟩
  have hlinked : ∀ {top calls}, Linked s.threads (s.procs p).job top calls →
      (∀ c ∈ calls, c.cthd ∈ activeBy (s.procs p)) → t ∈ top :: calls.map Call.cthd →
      ∃ r, d ∈ activeBy (s.procs r) := by
    intro top calls hl hcalls htop
    induction calls generalizing top with
    | nil =>
      obtain rfl := List.mem_singleton.mp htop
      cases hjob : (s.procs p).job with
      | none =>
        rw [hjob] at hl
        have hnone : (s.threads t).parent = none := hl
        simp [hnone] at hd
      | some J =>
        rw [hjob] at hl
        obtain rfl : J.tp = d := Option.some.inj (hl.1.symm.trans hd)
        exact hteam (mem_tasks_of_job hjob)
    | cons c cs ih =>
      obtain ⟨-, hparent, -, hrest⟩ := hl
      obtain rfl | htop := List.mem_cons.mp htop
      · obtain rfl : c.cthd = d := Option.some.inj (hparent.symm.trans hd)
        exact ⟨p, hcalls c List.mem_cons_self⟩
      · exact ih hrest (fun c' hc' => hcalls c' (List.mem_cons_of_mem _ hc')) htop
  have hcalls : ∀ c ∈ (s.procs p).calls, c.cthd ∈ activeBy (s.procs p) := fun c hc =>
    List.mem_append_right _ (List.mem_map_of_mem hc)
  have hshape := h.owned.shaped p
  rw [Shaped] at hshape
  have hpending : (s.procs p).pc.resting = true → (s.procs p).calls = [] →
      ∃ r, d ∈ activeBy (s.procs r) := by
    intro hr hnil
    have hthr : (s.procs p).thr = some t := by
      cases hpc : (s.procs p).pc <;> simp_all [activeBy, Pc.resting]
    refine hteam (i := (s.threads t).num) (mem_tasks_of_pending ?_)
    simp [pendingTasks, hr, hthr, hd]
  cases hpc : (s.procs p).pc with
  | idle | freed | leaving =>
    rw [hpc] at hshape
    exact hpending (by simp [hpc, Pc.resting]) hshape.1
  | cleaned =>
    rw [hpc] at hshape
    simp [activeBy, hpc, hshape.1, hshape.2.2] at ht
  | body =>
    rw [hpc] at hshape
    obtain ⟨t', ht', hl⟩ := hshape
    exact hlinked hl hcalls (by simpa [activeBy, hpc, ht'] using ht)
  | entered | posted =>
    rw [hpc] at hshape
    obtain ⟨-, t', passed, ht', -, hl⟩ := hshape
    exact hlinked hl hcalls (by simpa [activeBy, hpc, ht'] using ht)
  | getting | starting =>
    rw [hpc] at hshape
    exact hlinked hshape.2.1 hcalls (by simpa [activeBy, hpc, hshape.1] using ht)
  | assigning =>
    rw [hpc] at hshape
    exact hlinked hshape.2.1 hcalls (by simpa [activeBy, hpc, hshape.1] using ht)
  | waiting =>
    rw [hpc] at hshape
    obtain ⟨t', c, cs, ht', -, -, hl⟩ := hshape
    exact hlinked hl hcalls (by simpa [activeBy, hpc, ht'] using ht)
  | joining | joined =>
    rw [hpc] at hshape
    obtain ⟨c, cs, hcs, hl⟩ := hshape
    rw [hcs] at hcalls
    refine hlinked hl (fun c' hc' => hcalls c' (List.mem_cons_of_mem _ hc')) ?_
    simpa [activeBy, hpc, hcs] using ht

/-! ## Steps keep it -/

theorem Live.inside (h : Live maxThreads s)
    (hp : s.procs p ≠ ⟨false, none, [], .idle, [], none⟩) : p = 0 ∨ p < maxThreads := by
  by_contra! hout
  exact hp (h.outside p hout.1 hout.2)

theorem Live.inside_of_pc (h : Live maxThreads s) (hp : (s.procs p).pc ≠ .idle) :
    p = 0 ∨ p < maxThreads :=
  h.inside fun heq => hp (by rw [heq])

theorem Live.update (h : Live maxThreads s) (hp : p = 0 ∨ p < maxThreads)
    (hparent : ∀ d, (threads' d).parent = (s.threads d).parent)
    (hle : ∀ d, (s.threads d).passed ≤ (s.threads d).barriers →
      (threads' d).passed ≤ (threads' d).barriers)
    (hserial : P.job = none ∧ P.pc ≠ .idle ↔ (s.procs p).job = none ∧ (s.procs p).pc ≠ .idle)
    (hwaiting : ∀ tpp j, P.pc = .waiting tpp j → 0 < j)
    (hjoining : ∀ j, P.pc = .joining j → 0 < j)
    (hactive : activeBy P ⊆ activeBy (s.procs p)) (hcalls : P.calls ⊆ (s.procs p).calls)
    (last : ℕ) : Live maxThreads ⟨Function.update s.procs p P, threads', last⟩ where
  outside r hr hmax := by
    have hne : r ≠ p := by
      rintro rfl
      exact hp.elim hr (Nat.not_lt.mpr hmax)
    simpa [hne] using h.outside r hr hmax
  serial r := by
    by_cases hr : r = p
    · subst hr
      simpa [hserial] using h.serial r
    · simpa [hr] using h.serial r
  waiting_pos := by
    intro r tpp j hpc
    by_cases hr : r = p
    · subst hr
      exact hwaiting tpp j (by simpa using hpc)
    · exact h.waiting_pos (p := r) (by simpa [hr] using hpc)
  joining_pos := by
    intro r j hpc
    by_cases hr : r = p
    · subst hr
      exact hjoining j (by simpa using hpc)
    · exact h.joining_pos (p := r) (by simpa [hr] using hpc)
  passed_le := by
    intro r c hc
    refine hle c.cthd (h.passed_le (m := r) ?_)
    by_cases hr : r = p
    · subst hr
      exact hcalls (by simpa using hc)
    · simpa [hr] using hc
  depth := by
    obtain ⟨depth, hdepth⟩ := h.depth
    refine ⟨depth, fun r t ht d hd => hdepth r t ?_ d (hparent t ▸ hd)⟩
    by_cases hr : r = p
    · subst hr
      exact hactive (by simpa using ht)
    · simpa [hr] using ht

theorem Live.alloc (h : Live maxThreads s) (hteamed : Teamed s) {q t cthd num r : ℕ}
    {rest : List ℕ} (hq : q = 0 ∨ q < maxThreads) (ht : s.Alloc q t rest)
    (hcthd : cthd ∈ activeBy (s.procs r))
    (hserial : P.job = none ∧ P.pc ≠ .idle ↔ (s.procs q).job = none ∧ (s.procs q).pc ≠ .idle)
    (hwaiting : ∀ tpp j, P.pc = .waiting tpp j → 0 < j)
    (hjoining : ∀ j, P.pc = .joining j → 0 < j)
    (hactive : activeBy P ⊆ t :: activeBy (s.procs q))
    (hcalls : ∀ c ∈ P.calls, (s.threads c.cthd).passed ≤ (s.threads c.cthd).barriers) :
    Live maxThreads ((s.setThread t { s.threads t with parent := some cthd, num := num }).setProc q
      P) where
  outside r hr hmax := by
    have hne : r ≠ q := by
      rintro rfl
      exact hq.elim hr (Nat.not_lt.mpr hmax)
    simpa [State.setProc, State.setThread, hne] using h.outside r hr hmax
  serial r := by
    by_cases hr : r = q
    · subst hr
      simpa [State.setProc, State.setThread, hserial] using h.serial r
    · simpa [State.setProc, State.setThread, hr] using h.serial r
  waiting_pos := by
    intro r tpp j hpc
    by_cases hr : r = q
    · subst hr
      exact hwaiting tpp j (by simpa [State.setProc, State.setThread] using hpc)
    · exact h.waiting_pos (p := r) (by simpa [State.setProc, State.setThread, hr] using hpc)
  joining_pos := by
    intro r j hpc
    by_cases hr : r = q
    · subst hr
      exact hjoining j (by simpa [State.setProc, State.setThread] using hpc)
    · exact h.joining_pos (p := r) (by simpa [State.setProc, State.setThread, hr] using hpc)
  passed_le := by
    intro r c hc
    have hle : (s.threads c.cthd).passed ≤ (s.threads c.cthd).barriers := by
      by_cases hr : r = q
      · subst hr
        exact hcalls c (by simpa [State.setProc, State.setThread] using hc)
      · exact h.passed_le (m := r) (by simpa [State.setProc, State.setThread, hr] using hc)
    by_cases hct : c.cthd = t
    · simpa [State.setProc, State.setThread, hct] using hct ▸ hle
    · simpa [State.setProc, State.setThread, hct] using hle
  depth := by
    obtain ⟨depth, hdepth⟩ := h.depth
    have hunused : ∀ r, t ∉ activeBy (s.procs r) := fun r => hteamed.owned.alloc_unused ht
    have hne : ∀ {r d}, d ∈ activeBy (s.procs r) → d ≠ t := fun hd heq => hunused _ (heq ▸ hd)
    refine ⟨Function.update depth t (depth cthd + 1), fun r' t' ht' d hd => ?_⟩
    by_cases htt : t' = t
    · subst htt
      obtain rfl : cthd = d := by simpa [State.setProc, State.setThread] using hd
      simp [Function.update_of_ne (hne hcthd)]
    · have ht'' : t' ∈ activeBy (s.procs r') := by
        by_cases hr : r' = q
        · subst hr
          have hP : t' ∈ activeBy P := by simpa [State.setProc, State.setThread] using ht'
          exact (List.mem_cons.mp (hactive hP)).resolve_left htt
        · simpa [State.setProc, State.setThread, hr] using ht'
      have hd' : (s.threads t').parent = some d := by
        simpa [State.setProc, State.setThread, htt] using hd
      obtain ⟨r'', hr''⟩ := hteamed.parent_active ht'' hd'
      rw [Function.update_of_ne (hne hr''), Function.update_of_ne htt]
      exact hdepth r' t' ht'' d hd'

theorem Live.go (h : Live maxThreads s) {pc : Pc} (hpc : (s.procs p).pc = pc) (hp : pc ≠ .idle)
    (hparent : ∀ d, (threads' d).parent = (s.threads d).parent)
    (hle : ∀ d, (s.threads d).passed ≤ (s.threads d).barriers →
      (threads' d).passed ≤ (threads' d).barriers)
    (hjob : P.job = none ∧ P.pc ≠ .idle ↔ (s.procs p).job = none)
    (hwaiting : ∀ tpp j, P.pc = .waiting tpp j → 0 < j)
    (hjoining : ∀ j, P.pc = .joining j → 0 < j)
    (hactive : activeBy P ⊆ activeBy (s.procs p)) (hcalls : P.calls ⊆ (s.procs p).calls)
    (last : ℕ) : Live maxThreads ⟨Function.update s.procs p P, threads', last⟩ :=
  h.update (h.inside_of_pc (hpc ▸ hp)) hparent hle (by simp [hjob, hpc, hp]) hwaiting hjoining
    hactive hcalls last

@[simp]
theorem State.setThread_procs (t : ℕ) (T : Thread) : (s.setThread t T).procs = s.procs := rfl

theorem parent_update {d : ℕ} {T : Thread} (h : T.parent = (s.threads d).parent) (t : ℕ) :
    (Function.update s.threads d T t).parent = (s.threads t).parent := by
  by_cases ht : t = d
  · subst ht
    simpa using h
  · rw [Function.update_of_ne ht]

theorem passed_le_update {d : ℕ} {T : Thread}
    (h : (s.threads d).passed ≤ (s.threads d).barriers → T.passed ≤ T.barriers) (t : ℕ)
    (ht : (s.threads t).passed ≤ (s.threads t).barriers) :
    (Function.update s.threads d T t).passed ≤ (Function.update s.threads d T t).barriers := by
  by_cases htd : t = d
  · subst htd
    simpa using h ht
  · rwa [Function.update_of_ne htd]

/-- A step that leaves the records alone. -/
theorem Live.stay (h : Live maxThreads s) {pc : Pc} (hpc : (s.procs p).pc = pc) (hp : pc ≠ .idle)
    (hjob : P.job = none ∧ P.pc ≠ .idle ↔ (s.procs p).job = none)
    (hwaiting : ∀ tpp j, P.pc = .waiting tpp j → 0 < j)
    (hjoining : ∀ j, P.pc = .joining j → 0 < j)
    (hactive : activeBy P ⊆ activeBy (s.procs p)) (hcalls : P.calls ⊆ (s.procs p).calls)
    (last : ℕ) : Live maxThreads ⟨Function.update s.procs p P, s.threads, last⟩ :=
  h.go hpc hp (fun _ => rfl) (fun _ hd => hd) hjob hwaiting hjoining hactive hcalls last

theorem Live.step_get (h : Live maxThreads s) (howned : Owned s) (hbounded : Bounded maxThreads s)
    {cthd max n last : ℕ} {l : List ℕ} (hpc : (s.procs p).pc = .getting cthd max n l)
    (hn : n < max)
    (hget : getProc maxThreads (fun r => (s.procs r).isUsed) s.lastUsed n = (some q, last)) :
    Live maxThreads { (s.setProc q { s.procs q with isUsed := true }).setPc p
      (.getting cthd max (n + 1) (q :: l)) with lastUsed := last } := by
  have hq : q = 0 ∨ q < maxThreads := .inr (getProc_fst_lt hbounded.lastUsed_lt
    (Nat.lt_of_lt_of_le hn (hbounded.max_le hpc)) hget)
  have hunused : (s.procs q).isUsed = false := getProc_some hget
  have hne : p ≠ q := by
    rintro rfl
    have hrest := (howned.unused hunused).pc
    simp [hpc, Pc.resting] at hrest
  have h1 : Live maxThreads (s.setProc q { s.procs q with isUsed := true }) :=
    h.update (P := { s.procs q with isUsed := true }) hq (fun _ => rfl) (fun _ hd => hd) Iff.rfl
      (fun _ _ => h.waiting_pos) (fun _ => h.joining_pos) (List.Subset.refl _)
      (List.Subset.refl _) _
  have hp : (s.setProc q { s.procs q with isUsed := true }).procs p = s.procs p :=
    Function.update_of_ne hne _ _
  refine h1.stay (hp ▸ hpc) (by simp) (by simp) (by simp) (by simp) ?_ (by simp [hp]) last
  simp [activeBy, hp, hpc]

theorem Live.step_assign (h : Live maxThreads s) (hteamed : Teamed s) {cthd n t : ℕ}
    {l rest : List ℕ} (hpc : (s.procs p).pc = .assigning cthd i n (q :: l))
    (ht : s.Alloc q t rest) :
    Live maxThreads (((s.setThread t { s.threads t with parent := some cthd, num := i }).setProc q
      { s.procs q with freeThr := rest, thr := some t }).setPc p
        (.assigning cthd (i + 1) n l)) := by
  obtain ⟨hused, hrest⟩ := hteamed.owned.listed (p := p) (q := q) (by simp [hpc, Pc.proclist])
  have hthr : (s.procs p).thr = some cthd := (hteamed.owned.shape hpc).1
  have hcthd : cthd ∈ activeBy (s.procs p) := by simp [activeBy, hpc, hthr]
  have hq : q = 0 ∨ q < maxThreads := h.inside fun heq => by simp [heq] at hused
  have h1 : Live maxThreads ((s.setThread t
      { s.threads t with parent := some cthd, num := i }).setProc q
        { s.procs q with freeThr := rest, thr := some t }) := by
    refine h.alloc hteamed hq ht hcthd Iff.rfl (fun _ _ => h.waiting_pos)
      (fun _ => h.joining_pos) ?_ fun c hc => h.passed_le hc
    have hpcq := hrest.pc
    cases hpc' : (s.procs q).pc <;> simp_all [activeBy, Pc.resting]
  have hp : ((s.setThread t { s.threads t with parent := some cthd, num := i }).setProc q
      { s.procs q with freeThr := rest, thr := some t }).procs p = s.procs p :=
    Function.update_of_ne (hteamed.assigned_ne hpc).symm _ _
  refine h1.stay (hp ▸ hpc) (by simp) (by simp) (by simp) (by simp) ?_ (by simp [hp]) _
  simp [activeBy, hp, hpc]

theorem Live.step (h : Live maxThreads s) (hteamed : Teamed s) (hbounded : Bounded maxThreads s)
    (hs : Step maxThreads s s') : Live maxThreads s' := by
  cases hs with
  | fork cond nested nthds hpc hthr hnum =>
    refine h.stay hpc (by simp) (by simp) (by simp) (by simp) ?_ (by simp) _
    simp [activeBy, hpc]
  | get hpc hn hget => exact h.step_get hteamed.owned hbounded hpc hn hget
  | getNone hpc hn hget =>
    refine h.stay hpc (by simp) (by simp) (by simp) (by simp) ?_ (by simp) _
    simp [activeBy, hpc]
  | getAll hpc hn =>
    refine h.stay hpc (by simp) (by simp) (by simp) (by simp) ?_ (by simp) _
    simp [activeBy, hpc]
  | start barriers hpc =>
    refine h.go hpc (by simp) (parent_update (by rfl)) (passed_le_update ?_) (by simp)
      (by simp) (by simp) ?_ (by simp) _
    · exact fun _ => Nat.zero_le _
    · simp [activeBy, hpc]
  | assign hpc hi ht => exact h.step_assign hteamed hpc ht
  | @lead p cthd i n t l rest hpc hi ht =>
    have hthr : (s.procs p).thr = some cthd := (hteamed.owned.shape hpc).1
    have hcthd : cthd ∈ activeBy (s.procs p) := by simp [activeBy, hpc, hthr]
    have hcoll := hteamed.collected p
    rw [Collected, hpc] at hcoll
    refine h.alloc hteamed (h.inside_of_pc (by simp [hpc])) ht hcthd (by simp [hpc]) (by simp)
      (by simp) ?_ ?_
    · simp [activeBy, hpc, hthr]
    · intro c hc
      obtain rfl | hc := List.mem_cons.mp hc
      · simp [hcoll.1]
      · exact h.passed_le hc
  | @load p t tp hpc hthr hparent =>
    refine h.update (h.inside fun heq => by simp [heq] at hthr) (fun _ => rfl) (fun _ hd => hd)
      (by simp [hpc]) (by simp) (by simp) ?_ (by simp) _
    simp [activeBy, hpc]
  | enter hpc hthr hparent hnum hjob hmore =>
    refine h.stay hpc (by simp) (by simp) (by simp) (by simp) ?_ (by simp) _
    simp [activeBy, hpc]
  | post hpc =>
    refine h.go hpc (by simp) (parent_update (by rfl)) (passed_le_update (by exact fun hd => hd))
      (by simp) (by simp) (by simp) ?_ (by simp) _
    simp [activeBy, hpc]
  | pass hpc hjob hsense =>
    refine h.stay hpc (by simp) (by simp [hjob]) (by simp) (by simp) ?_ (by simp) _
    simp [activeBy, hpc]
  | wait hpc hthr hparent hnum hmore =>
    refine h.stay hpc (by simp) (by simp) (by simp) (by simp) ?_ (by simp) _
    simp [activeBy, hpc]
  | waitFlag hpc hj hflag =>
    refine h.stay hpc (by simp) (by simp) (by simp) (by simp) ?_ (by simp) _
    simp [activeBy, hpc]
  | @flip p tpp j hpc hj =>
    have hcoll := hteamed.collected p
    rw [Collected, hpc] at hcoll
    refine h.go hpc (by simp) (parent_update (by rfl)) (passed_le_update ?_) (by simp)
      (by simp) (by simp) ?_ (by simp) _
    · exact fun _ => hcoll.1
    · simp [activeBy, hpc]
  | join hpc hcalls hdone =>
    refine h.stay hpc (by simp) (by simp) (by simp) (by simp) ?_ (by simp) _
    simp [activeBy, hpc]
  | joinFlag hpc hcalls hj hflag =>
    refine h.stay hpc (by simp) (by simp) (by simp) (by simp) ?_ (by simp) _
    simp [activeBy, hpc]
  | joined hpc hcalls hj =>
    refine h.go hpc (by simp) (parent_update (by rfl)) (passed_le_update (by exact fun hd => hd))
      (by simp) (by simp) (by simp) ?_ (by simp) _
    simp [activeBy, hpc]
  | back hpc hcalls =>
    refine h.stay hpc (by simp) (by simp) (by simp) (by simp) ?_ ?_ _
    · simp [activeBy, hpc, hcalls]
    · simp [hcalls]
  | clean hpc hthr hcalls hjob hdone =>
    refine h.stay hpc (by simp) (by simp) (by simp) (by simp) ?_ (by simp) _
    simp [activeBy, hpc]
  | free hpc =>
    refine h.stay hpc (by simp) (by simp) (by simp) (by simp) ?_ (by simp) _
    simp [activeBy, hpc]
  | read hpc hjob =>
    refine h.stay hpc (by simp) (by simp) (by simp) (by simp) ?_ (by simp) _
    simp [activeBy, hpc]
  | leave hpc hjob =>
    refine h.go hpc (by simp) (parent_update (by rfl)) (passed_le_update (by exact fun hd => hd))
      (by simp [hjob]) (by simp) (by simp) ?_ (by simp) _
    simp [activeBy, hpc]

theorem Start.live {root : ℕ} (h : Start root s) : Live maxThreads s where
  outside p hp _ := h.slaves p hp
  serial p := by
    by_cases hp : p = 0
    · simp [hp, h.master]
    · simp [hp, h.slaves p hp]
  waiting_pos := by
    intro p tpp j hpc
    by_cases hp : p = 0
    · simp [hp, h.master] at hpc
    · simp [h.slaves p hp] at hpc
  joining_pos := by
    intro p j hpc
    by_cases hp : p = 0
    · simp [hp, h.master] at hpc
    · simp [h.slaves p hp] at hpc
  passed_le := by
    intro p c hc
    by_cases hp : p = 0
    · simp [hp, h.master] at hc
    · simp [h.slaves p hp] at hc
  depth := by
    refine ⟨fun _ => 0, fun p t ht d hd => ?_⟩
    by_cases hp : p = 0
    · obtain rfl : t = root := by simpa [hp, h.master, activeBy] using ht
      simp [h.root] at hd
    · simp [h.slaves p hp, activeBy] at ht

theorem Reachable.live {root : ℕ} (h : Reachable maxThreads root s) (hpos : 0 < maxThreads) :
    Live maxThreads s := by
  obtain ⟨s₀, h₀, hs⟩ := h
  induction hs with
  | refl => exact h₀.live
  | tail hrun hstep ih =>
    have hreach : Reachable maxThreads root _ := ⟨s₀, h₀, hrun⟩
    exact ih.step hreach.teamed (hreach.bounded hpos) hstep

/-! ## What a process waits for -/

/-- Only the serial part of the program runs. -/
structure Serial (s : State) : Prop where
  master : (s.procs 0).pc = .body ∧ (s.procs 0).calls = []
  slaves : ∀ p, p ≠ 0 → (s.procs p).pc = .idle ∧ (s.procs p).thr = none

/-- The regions for which a process waits as their master, and the number that it waits for. -/
def Awaits (s : State) (m d j : ℕ) : Prop :=
  ((s.procs m).pc = .waiting d j ∨
    (s.procs m).pc = .joining j ∧ ∃ c cs, (s.procs m).calls = c :: cs ∧ c.cthd = d) ∧
  j < (s.threads d).numThds ∧
  (s.threads d).barrierFlags j ≠ reverse (s.threads d).barrierSense

def Held (s : State) (p : ℕ) : Prop :=
  ∃ id tpp sen0, (s.procs p).pc = .posted id tpp sen0 ∧ (s.threads tpp).barrierSense ≠ sen0

theorem not_opens (p : ℕ) (hother : ∀ r, r ≠ p → (s'.procs r).pc = (s.procs r).pc)
    (hself : (s.procs p).pc = .body → ∀ cthd max, (s'.procs p).pc ≠ .getting cthd max 1 []) :
    ¬ Opens s s' := by
  rintro ⟨r, cthd, max, hbody, hgetting⟩
  by_cases hr : r = p
  · subst hr
    exact hself hbody cthd max hgetting
  · cases (hother r hr).symm.trans hgetting |>.symm.trans hbody

theorem not_opens_update {last : ℕ}
    (hself : (s.procs p).pc = .body → ∀ cthd max, P.pc ≠ .getting cthd max 1 []) :
    ¬ Opens s ⟨Function.update s.procs p P, threads', last⟩ :=
  not_opens p (fun r hr => by simp [hr]) (by simpa using hself)

theorem Live.exists_alloc (h : Live maxThreads s) (q : ℕ) : ∃ t rest, s.Alloc q t rest := by
  cases hfree : (s.procs q).freeThr with
  | cons t rest => exact ⟨t, rest, .reuse hfree⟩
  | nil =>
    obtain ⟨t, ht⟩ := Infinite.exists_notMem_finset
      ((Finset.range (maxThreads + 1)).biUnion fun r => (s.held r).toFinset)
    refine ⟨t, [], .malloc hfree rfl fun r hr => ht ?_⟩
    have hin : r = 0 ∨ r < maxThreads := h.inside fun heq => by
      simp [State.held, heq, heldBy, activeBy] at hr
    refine Finset.mem_biUnion.mpr ⟨r, ?_, List.mem_toFinset.mpr hr⟩
    exact Finset.mem_range.mpr (by omega)

theorem Live.team_passed_le (h : Live maxThreads s) (hteamed : Teamed s)
    (hk : (d, k) ∈ teams s.threads (s.procs m)) :
    (s.threads d).passed ≤ (s.threads d).barriers := by
  rw [teams, List.mem_append] at hk
  obtain hk | hk := hk
  · cases hpc : (s.procs m).pc with
    | assigning cthd i n l =>
      obtain ⟨rfl, -⟩ : d = cthd ∧ k = i := by simpa [hpc] using hk
      have hcoll := hteamed.collected m
      rw [Collected, hpc] at hcoll
      exact hcoll.1 ▸ Nat.zero_le _
    | _ => simp [hpc] at hk
  · obtain ⟨c, hc, heq⟩ := List.mem_map.mp hk
    obtain rfl : c.cthd = d := congrArg Prod.fst heq
    refine h.passed_le (m := m) ?_
    rw [openCalls] at hc
    split at hc
    · exact List.mem_of_mem_tail hc
    · exact hc

/-- A process that cannot go on without a new region runs nothing, or waits. -/
theorem Live.stuck (h : Live maxThreads s) (hteamed : Teamed s)
    (hstop : ∀ s', Step maxThreads s s' → Opens s s') (p : ℕ) :
    (s.procs p).pc = .idle ∧ (s.procs p).thr = none ∨
      p = 0 ∧ (s.procs p).pc = .body ∧ (s.procs p).calls = [] ∨
      Held s p ∨ ∃ d j, Awaits s p d j := by
  have howned := hteamed.owned
  cases hpc : (s.procs p).pc with
  | idle =>
    refine .inl ⟨rfl, ?_⟩
    obtain ⟨-, -, hassigned⟩ := howned.shape hpc
    by_contra hthr
    obtain ⟨t, hthr⟩ := Option.ne_none_iff_exists'.mp hthr
    obtain ⟨⟨d, hd⟩, -⟩ := hassigned t hthr
    exact not_opens_update (by simp [hpc]) (hstop _ (.load hpc hthr hd))
  | body =>
    obtain ⟨t, hthr, hl⟩ := howned.shape hpc
    have hthr' : (s.procs p).thr = some t := hthr
    cases hcalls : (s.procs p).calls with
    | nil =>
      have hl' : Linked s.threads (s.procs p).job t [] := hcalls ▸ hl
      cases hjob : (s.procs p).job with
      | none => exact .inr (.inl ⟨(h.serial p).mp ⟨hjob, by simp [hpc]⟩, rfl, rfl⟩)
      | some J =>
        rw [hjob] at hl'
        obtain ⟨hparent, hnum, hi⟩ := hl'
        have hnum' : (s.threads t).num ≠ 0 := Nat.ne_of_gt (hnum ▸ hi)
        obtain ⟨-, m, k, hk, -⟩ := hteamed.team (mem_tasks_of_job hjob)
        have hpassed : J.passed = (s.threads J.tp).passed := by
          have hposting := hteamed.posting hjob
          rw [Posting, hpc] at hposting
          exact hposting.2
        have hle := hpassed ▸ h.team_passed_le hteamed hk
        obtain hmore | hdone := Nat.lt_or_eq_of_le hle
        · exact absurd (hstop _ (.enter hpc hthr' hparent hnum' hjob hmore))
            (not_opens_update (by simp))
        · exact absurd (hstop _ (.clean hpc hthr' hcalls hjob hdone)) (not_opens_update (by simp))
    | cons c cs =>
      have hl' : Linked s.threads (s.procs p).job t (c :: cs) := hcalls ▸ hl
      obtain ⟨-, hparent, hnum, -⟩ := hl'
      have hle := h.passed_le (m := p) (c := c) (by simp [hcalls])
      obtain hmore | hdone := Nat.lt_or_eq_of_le hle
      · exact absurd (hstop _ (.wait hpc hthr' hparent hnum hmore)) (not_opens_update (by simp))
      · exact absurd (hstop _ (.join hpc hcalls hdone)) (not_opens_update (by simp))
  | getting cthd max n l =>
    exfalso
    by_cases hn : n < max
    · cases hget : getProc maxThreads (fun r => (s.procs r).isUsed) s.lastUsed n with
      | mk found last =>
        cases found with
        | none => exact not_opens_update (by simp [hpc]) (hstop _ (.getNone hpc hn hget))
        | some q =>
          refine not_opens p (fun r hr => ?_) (by simp [hpc]) (hstop _ (.get hpc hn hget))
          by_cases hrq : r = q
          · subst hrq
            simp [State.setPc, State.setProc, hr]
          · simp [State.setPc, State.setProc, hr, hrq]
    · exact not_opens_update (by simp [hpc]) (hstop _ (.getAll hpc (Nat.not_lt.mp hn)))
  | starting cthd n l =>
    exact absurd (hstop _ (.start 0 hpc)) (not_opens_update (by simp [hpc]))
  | assigning cthd i n l =>
    exfalso
    by_cases hi : i < n
    · cases l with
      | nil =>
        obtain ⟨-, -, -, hlen, -⟩ := howned.shape hpc
        exact Nat.ne_of_lt hi hlen
      | cons q l =>
        obtain ⟨t, rest, ht⟩ := h.exists_alloc q
        refine not_opens p (fun r hr => ?_) (by simp [hpc]) (hstop _ (.assign hpc hi ht))
        by_cases hrq : r = q
        · subst hrq
          simp [State.setPc, State.setProc, hr]
        · simp [State.setPc, State.setProc, hr, hrq]
    · obtain ⟨t, rest, ht⟩ := h.exists_alloc p
      exact not_opens_update (by simp [hpc]) (hstop _ (.lead hpc (Nat.not_lt.mp hi) ht))
  | entered id tpp sen0 =>
    exact absurd (hstop _ (.post hpc)) (not_opens_update (by simp [hpc]))
  | posted id tpp sen0 =>
    obtain ⟨-, t, passed, -, hjob, -⟩ := howned.shape hpc
    by_cases hsense : (s.threads tpp).barrierSense = sen0
    · exact absurd (hstop _ (.pass hpc hjob hsense)) (not_opens_update (by simp [hpc]))
    · exact .inr (.inr (.inl ⟨id, tpp, sen0, hpc, hsense⟩))
  | waiting tpp j =>
    by_cases hj : j < (s.threads tpp).numThds
    · by_cases hflag : (s.threads tpp).barrierFlags j = reverse (s.threads tpp).barrierSense
      · exact absurd (hstop _ (.waitFlag hpc hj hflag)) (not_opens_update (by simp [hpc]))
      · exact .inr (.inr (.inr ⟨tpp, j, .inl hpc, hj, hflag⟩))
    · exact absurd (hstop _ (.flip hpc (Nat.not_lt.mp hj))) (not_opens_update (by simp [hpc]))
  | joining j =>
    obtain ⟨c, cs, hcalls, -⟩ := howned.shape hpc
    have hcalls' : (s.procs p).calls = c :: cs := hcalls
    by_cases hj : j < (s.threads c.cthd).numThds
    · by_cases hflag : (s.threads c.cthd).barrierFlags j = reverse (s.threads c.cthd).barrierSense
      · exact absurd (hstop _ (.joinFlag hpc hcalls' hj hflag)) (not_opens_update (by simp [hpc]))
      · exact .inr (.inr (.inr ⟨c.cthd, j, .inr ⟨hpc, c, cs, hcalls', rfl⟩, hj, hflag⟩))
    · exact absurd (hstop _ (.joined hpc hcalls' (Nat.not_lt.mp hj)))
        (not_opens_update (by simp [hpc]))
  | joined =>
    obtain ⟨c, cs, hcalls, -⟩ := howned.shape hpc
    exact absurd (hstop _ (.back hpc hcalls)) (not_opens_update (by simp [hpc]))
  | cleaned =>
    exact absurd (hstop _ (.free hpc)) (not_opens_update (by simp [hpc]))
  | freed =>
    obtain ⟨-, hjob, -⟩ := howned.shape hpc
    obtain ⟨J, hjob⟩ := Option.isSome_iff_exists.mp hjob
    exact absurd (hstop _ (.read hpc hjob)) (not_opens_update (by simp [hpc]))
  | leaving sen0 =>
    obtain ⟨-, hjob, -⟩ := howned.shape hpc
    obtain ⟨J, hjob⟩ := Option.isSome_iff_exists.mp hjob
    exact absurd (hstop _ (.leave hpc hjob)) (not_opens_update (by simp [hpc]))

/-! ## The deepest master goes on -/

theorem Linked.depth_lt {threads : ℕ → Thread} {top : ℕ} {calls : List Call} {depth : ℕ → ℕ}
    (h : Linked threads (some J) top calls)
    (hdepth : ∀ t ∈ top :: calls.map Call.cthd, ∀ d, (threads t).parent = some d →
      depth d < depth t) : depth J.tp < depth top := by
  induction calls generalizing top with
  | nil => exact hdepth top List.mem_cons_self J.tp h.1
  | cons c cs ih =>
    obtain ⟨-, hparent, -, hrest⟩ := h
    have hlt := hdepth top List.mem_cons_self c.cthd hparent
    exact (ih hrest fun t ht => hdepth t (List.mem_cons_of_mem _ ht)).trans hlt

theorem Awaits.team (h : Awaits s m d j) (howned : Owned s) :
    (d, (s.threads d).numThds) ∈ teams s.threads (s.procs m) := by
  obtain ⟨hpc | ⟨hpc, c, cs, hcalls, rfl⟩, -, -⟩ := h
  · obtain ⟨t, c, cs, -, hcalls, rfl, -⟩ := howned.shape hpc
    have hcalls' : (s.procs m).calls = c :: cs := hcalls
    simp [teams, openCalls, hpc, hcalls']
  · simp [teams, openCalls, hpc, hcalls]

/-- The region for which a master waits lies deeper than the one for which it works. -/
theorem Awaits.depth_lt (h : Awaits s m d j) (howned : Owned s) {depth : ℕ → ℕ}
    (hdepth : ∀ p, ∀ t ∈ activeBy (s.procs p), ∀ d, (s.threads t).parent = some d →
      depth d < depth t) (hjob : (s.procs m).job = some J) : depth J.tp < depth d := by
  have hcall : ∀ {c cs}, (s.procs m).calls = c :: cs →
      Linked s.threads (s.procs m).job c.cthd cs → depth J.tp < depth c.cthd := by
    intro c cs hcalls hl
    rw [hjob] at hl
    refine hl.depth_lt fun t ht => hdepth m t (List.mem_append_right _ ?_)
    simpa [hcalls] using ht
  obtain ⟨hpc | ⟨hpc, c, cs, hcalls, rfl⟩, -, -⟩ := h
  · obtain ⟨t, c, cs, -, hcalls, rfl, hl⟩ := howned.shape hpc
    have hcalls' : (s.procs m).calls = c :: cs := hcalls
    have hl' : Linked s.threads (s.procs m).job t (c :: cs) := hcalls' ▸ hl
    exact hcall hcalls' hl'.2.2.2
  · obtain ⟨c', cs', hcalls', hl⟩ := howned.shape hpc
    obtain ⟨rfl, rfl⟩ : c = c' ∧ cs = cs' := List.cons.inj (hcalls.symm.trans hcalls')
    exact hcall hcalls hl

theorem Live.awaits_pos (h : Live maxThreads s) (hm : Awaits s m d j) : 0 < j := by
  obtain ⟨hpc | ⟨hpc, -⟩, -, -⟩ := hm
  · exact h.waiting_pos hpc
  · exact h.joining_pos hpc

/-- A master that waits has a process below it that waits as a master, too. -/
theorem Live.awaits_below (h : Live maxThreads s) (hteamed : Teamed s)
    (hstop : ∀ s', Step maxThreads s s' → Opens s s') (hm : Awaits s m d j) :
    ∃ q J d' j', (s.procs q).job = some J ∧ J.tp = d ∧ Awaits s q d' j' := by
  have howned := hteamed.owned
  obtain ⟨q, hq⟩ | ⟨hflag, -⟩ := hteamed.served (hm.team howned) (h.awaits_pos hm) hm.2.1
  · obtain ⟨hidle, hthr⟩ | ⟨rfl, hbody, hcalls⟩ | ⟨id, tpp, sen0, hpc, hsense⟩ | ⟨d', j', hq'⟩ :=
      h.stuck hteamed hstop q
    · obtain ⟨-, hjob, -⟩ := howned.shape hidle
      have hjob' : (s.procs q).job = none := hjob
      simp [tasks, pendingTasks, hjob', hthr] at hq
    · have hjob := ((h.serial 0).mpr rfl).1
      simp [tasks, pendingTasks, hjob, hbody, Pc.resting] at hq
    · -- the flag of the process is up, or the master has set its sense
      obtain ⟨-, t, passed, -, hjob, -⟩ := howned.shape hpc
      have hjob' : (s.procs q).job = some ⟨id, tpp, passed⟩ := hjob
      obtain ⟨rfl, rfl⟩ : j = id ∧ d = tpp := by
        simpa [tasks, pendingTasks, hjob', hpc, Pc.resting] using hq
      have hposting := hteamed.posting hjob'
      rw [Posting, hpc] at hposting
      obtain ⟨hflag, -, ⟨rfl, -⟩ | ⟨rfl, -⟩⟩ := hposting
      · exact absurd hflag hm.2.2
      · exact absurd rfl hsense
    · have hbusy : (s.procs q).pc.resting = false := by
        obtain ⟨hpc | ⟨hpc, -⟩, -, -⟩ := hq' <;> simp [hpc, Pc.resting]
      obtain ⟨J, hJ, heq⟩ | hpending := mem_tasks_iff.mp hq
      · exact ⟨q, J, d', j', hJ, (congrArg Prod.snd heq).symm, hq'⟩
      · simp [pendingTasks_of_busy hbusy] at hpending
  · exact absurd hflag hm.2.2

theorem Live.not_awaits (h : Live maxThreads s) (hteamed : Teamed s)
    (hstop : ∀ s', Step maxThreads s s' → Opens s s') (m d j : ℕ) : ¬ Awaits s m d j := by
  classical
  intro hm
  obtain ⟨depth, hdepth⟩ := h.depth
  let records := (Finset.range (maxThreads + 1)).biUnion fun r => (activeBy (s.procs r)).toFinset
  have hmem : ∀ {m d j}, Awaits s m d j →
      d ∈ records.filter fun d => ∃ m j, Awaits s m d j := by
    intro m d j hm
    have hin : m = 0 ∨ m < maxThreads := by
      refine h.inside_of_pc ?_
      obtain ⟨hpc | ⟨hpc, -⟩, -, -⟩ := hm <;> simp [hpc]
    refine Finset.mem_filter.mpr ⟨Finset.mem_biUnion.mpr ⟨m, ?_, ?_⟩, m, j, hm⟩
    · exact Finset.mem_range.mpr (by omega)
    · exact List.mem_toFinset.mpr (mem_active_of_team hteamed.owned (hm.team hteamed.owned))
  obtain ⟨d₀, hd₀, hmax⟩ := Finset.exists_max_image _ depth ⟨d, hmem hm⟩
  obtain ⟨m₀, j₀, hm₀⟩ := (Finset.mem_filter.mp hd₀).2
  obtain ⟨q, J, d', j', hJ, rfl, hq⟩ := h.awaits_below hteamed hstop hm₀
  have hdeeper := hq.depth_lt hteamed.owned hdepth hJ
  exact absurd (hmax d' (hmem hq)) (Nat.not_le.mpr hdeeper)

theorem Live.not_held (h : Live maxThreads s) (hteamed : Teamed s)
    (hstop : ∀ s', Step maxThreads s s' → Opens s s') (p : ℕ) : ¬ Held s p := by
  rintro ⟨id, tpp, sen0, hpc, -⟩
  obtain ⟨-, t, passed, -, hjob, -⟩ := hteamed.owned.shape hpc
  obtain ⟨-, m, k, hk, -⟩ := hteamed.team (mem_tasks_of_job hjob)
  have hteam := mem_active_of_team hteamed.owned hk
  obtain ⟨hidle, hthr⟩ | ⟨rfl, hbody, hcalls⟩ | ⟨_, _, _, hposted, -⟩ | ⟨d, j, hm⟩ :=
    h.stuck hteamed hstop m
  · obtain ⟨hcalls, -⟩ := hteamed.owned.shape hidle
    have hcalls' : (s.procs m).calls = [] := hcalls
    simp [teams, openCalls, hidle, hcalls'] at hk
  · simp [teams, openCalls, hbody, hcalls] at hk
  · obtain ⟨hcalls, -⟩ := hteamed.owned.shape hposted
    have hcalls' : (s.procs m).calls = [] := hcalls
    simp [teams, openCalls, hposted, hcalls'] at hk
  · exact h.not_awaits hteamed hstop m d j hm

/-- Regions cannot block each other, however they are nested and whatever processes they have got:
until only the serial part of the program runs, some process can go on with the regions that are
open. -/
theorem Reachable.serial_or_step {root : ℕ} (h : Reachable maxThreads root s)
    (hpos : 0 < maxThreads) : Serial s ∨ ∃ s', Step maxThreads s s' ∧ ¬ Opens s s' := by
  have hlive := h.live hpos
  have hteamed := h.teamed
  by_contra! hcon
  obtain ⟨hserial, hstop⟩ := hcon
  have hrest : ∀ p, (s.procs p).pc = .idle ∧ (s.procs p).thr = none ∨
      p = 0 ∧ (s.procs p).pc = .body ∧ (s.procs p).calls = [] := by
    intro p
    obtain hp | hp | hp | ⟨d, j, hp⟩ := hlive.stuck hteamed hstop p
    · exact .inl hp
    · exact .inr hp
    · exact absurd hp (hlive.not_held hteamed hstop p)
    · exact absurd hp (hlive.not_awaits hteamed hstop p d j)
  refine hserial ⟨?_, fun p hp => ?_⟩
  · obtain hidle | hbody := hrest 0
    · exact absurd hidle.1 ((hlive.serial 0).mpr rfl).2
    · exact hbody.2
  · exact (hrest p).resolve_right fun hbody => hp hbody.1

theorem serial_or_step_region : ∃ s, Reachable 2 100 s ∧
    (Serial s ∨ ∃ s', Step 2 s s' ∧ ¬ Opens s s') := by
  obtain ⟨s, -, -, hs, -⟩ := exists_region
  exact ⟨s, hs, Reachable.serial_or_step hs Nat.two_pos⟩

end OmniCompiler.Omp.ForkJoin
