import OmniCompiler.Omp.ForkJoinTeam

/-!
# Runs of regions

A region starts with no process that works for its parent, each number is given once, and what
holds for the teams is kept by all steps.
-/
namespace OmniCompiler.Omp.ForkJoin

open Barrier (reverse reverse_ne)
open Holding

variable {s s' : State} {maxThreads p q d i k m : ℕ} {P : Proc} {J : Job}

/-! ## A region starts -/

section Start

variable {cthd n : ℕ} {l : List ℕ}

/-- The state in which the record `cthd` leads the team of a new region. -/
def State.startTeam (s : State) (p cthd n : ℕ) (l : List ℕ) (barriers : ℕ) : State :=
  ⟨Function.update s.procs p { s.procs p with pc := .assigning cthd 1 n l },
    Function.update s.threads cthd { s.threads cthd with
      numThds := n
      barrierFlags := fun i =>
        if i < n then (s.threads cthd).barrierSense else (s.threads cthd).barrierFlags i
      barriers := barriers
      passed := 0 }, s.lastUsed⟩

/-- What the start of a region changes: the record `cthd`, which led no team, leads a team of
process `p` alone. -/
structure Started (s s' : State) (p cthd : ℕ) : Prop where
  unled : ∀ m k, (cthd, k) ∉ teams s.threads (s.procs m)
  data : ∀ {d}, d ≠ cthd → SameData (s.threads d) (s'.threads d)
  pending_eq : ∀ r, pendingTasks s'.threads (s'.procs r) = pendingTasks s.threads (s.procs r)
  tasks_eq : ∀ r, tasks s'.threads (s'.procs r) = tasks s.threads (s.procs r)
  teams_eq : ∀ r, teams s'.threads (s'.procs r) =
    if r = p then (cthd, 1) :: teams s.threads (s.procs p) else teams s.threads (s.procs r)

theorem Teamed.unled (h : Teamed s) (hpc : (s.procs p).pc = .starting cthd n l) (m k : ℕ) :
    (cthd, k) ∉ teams s.threads (s.procs m) := by
  intro hk
  obtain ⟨hthr, -, -⟩ := h.owned.shape hpc
  have hthr' : (s.procs p).thr = some cthd := hthr
  have hactive : activeBy (s.procs p) = cthd :: (s.procs p).calls.map Call.cthd := by
    simp [activeBy, hpc, hthr']
  have hfree : cthd ∉ (s.procs p).calls.map Call.cthd := by
    have hnodup := nodup_active h.owned p
    rw [hactive, List.nodup_cons] at hnodup
    exact hnodup.1
  obtain rfl : m = p := eq_of_active h.owned (mem_active_of_team h.owned hk)
    (hactive ▸ List.mem_cons_self)
  simp only [teams, openCalls, hpc, List.nil_append] at hk
  obtain ⟨c, hc, heq⟩ := List.mem_map.mp hk
  exact hfree (List.mem_map.mpr ⟨c, hc, congrArg Prod.fst heq⟩)

theorem startTeam_ids (barriers t : ℕ) :
    SameId (s.threads t) ((s.startTeam p cthd n l barriers).threads t) := by
  by_cases ht : t = cthd
  · subst ht
    simpa [State.startTeam] using ⟨rfl, rfl⟩
  · simpa [State.startTeam, ht] using ⟨rfl, rfl⟩

theorem Teamed.started (h : Teamed s) (barriers : ℕ)
    (hpc : (s.procs p).pc = .starting cthd n l) :
    Started s (s.startTeam p cthd n l barriers) p cthd := by
  have hdata : ∀ {d}, d ≠ cthd →
      SameData (s.threads d) ((s.startTeam p cthd n l barriers).threads d) := fun hd =>
    sameData_update_of_ne _ hd
  have hpending : ∀ r, pendingTasks (s.startTeam p cthd n l barriers).threads
      ((s.startTeam p cthd n l barriers).procs r) = pendingTasks s.threads (s.procs r) := by
    intro r
    rw [pendingTasks_congr fun t _ => startTeam_ids barriers t]
    by_cases hr : r = p
    · subst hr
      simp [State.startTeam, pendingTasks, hpc, Pc.resting]
    · simp [State.startTeam, hr]
  have hnum : ∀ r, ∀ c ∈ openCalls (s.procs r),
      ((s.startTeam p cthd n l barriers).threads c.cthd).numThds =
        (s.threads c.cthd).numThds := by
    intro r c hc
    refine (hdata ?_).numThds
    rintro rfl
    exact h.unled hpc r _ (List.mem_append_right _ (List.mem_map_of_mem hc))
  refine ⟨h.unled hpc, hdata, hpending, fun r => ?_, fun r => ?_⟩
  · rw [tasks, tasks, hpending]
    by_cases hr : r = p
    · subst hr
      simp [State.startTeam]
    · simp [State.startTeam, hr]
  · split_ifs with hr
    · subst hr
      have hopen : openCalls ((s.startTeam r cthd n l barriers).procs r) =
          openCalls (s.procs r) := by
        simp [State.startTeam, openCalls, hpc]
      rw [teams_congr fun c hc => hnum r c (hopen ▸ hc)]
      simp [State.startTeam, teams, openCalls, hpc]
    · have hprocs : (s.startTeam p cthd n l barriers).procs r = s.procs r :=
        Function.update_of_ne hr _ _
      rw [hprocs, teams_congr (hnum r)]

theorem Started.unserved (hst : Started s s' p cthd) (h : Teamed s) (r i : ℕ) :
    (i, cthd) ∉ tasks s.threads (s.procs r) := by
  intro hi
  obtain ⟨-, m, k, hk, -⟩ := h.team hi
  exact hst.unled m k hk

theorem Started.team (hst : Started s s' p cthd) (h : Teamed s)
    (hi : (i, d) ∈ tasks s'.threads (s'.procs q)) :
    0 < i ∧ ∃ m k, (d, k) ∈ teams s'.threads (s'.procs m) ∧ i < k := by
  rw [hst.tasks_eq] at hi
  obtain ⟨hpos, m, k, hk, hlt⟩ := h.team hi
  refine ⟨hpos, m, k, ?_, hlt⟩
  rw [hst.teams_eq]
  split_ifs with hm
  · subst hm
    exact List.mem_cons_of_mem _ hk
  · exact hk

theorem Started.pending (hst : Started s s' p cthd) (h : Teamed s)
    (hi : (i, d) ∈ pendingTasks s'.threads (s'.procs q)) :
    (s'.threads d).barrierFlags i = (s'.threads d).barrierSense ∧ (s'.threads d).passed = 0 := by
  rw [hst.pending_eq] at hi
  have hne : d ≠ cthd := by
    rintro rfl
    exact hst.unserved h q i (mem_tasks_of_pending hi)
  rw [(hst.data hne).flags, (hst.data hne).sense, (hst.data hne).passed]
  exact h.pending hi

/-- The new team has its leader alone, who is not served by another process. -/
theorem Started.served (hst : Started s s' p cthd) (h : Teamed s)
    (hk : (d, k) ∈ teams s'.threads (s'.procs m)) (hi : 0 < i) (hlt : i < k) :
    (∃ r, (i, d) ∈ tasks s'.threads (s'.procs r)) ∨
      (s'.threads d).barrierFlags i = reverse (s'.threads d).barrierSense ∧
        (s'.threads d).passed = (s'.threads d).barriers := by
  have hk' : (d, k) ∈ teams s.threads (s.procs m) := by
    rw [hst.teams_eq] at hk
    split_ifs at hk with hm
    · subst hm
      obtain heq | hk := List.mem_cons.mp hk
      · obtain ⟨-, rfl⟩ := Prod.mk.inj heq
        omega
      · exact hk
    · exact hk
  have hne : d ≠ cthd := by
    rintro rfl
    exact hst.unled m k hk'
  rw [(hst.data hne).flags, (hst.data hne).sense, (hst.data hne).passed, (hst.data hne).barriers]
  obtain ⟨r, hr⟩ | hposted := h.served hk' hi hlt
  · exact .inl ⟨r, (hst.tasks_eq r).symm ▸ hr⟩
  · exact .inr hposted

theorem Teamed.step_start (h : Teamed s) (barriers : ℕ)
    (hpc : (s.procs p).pc = .starting cthd n l) : Teamed (s.startTeam p cthd n l barriers) := by
  have hst := h.started barriers hpc
  refine ⟨h.owned.step (Step.start barriers hpc : Step 0 s _), h.apart.congr hst.tasks_eq,
    hst.team h, ?_, hst.pending h, ?_, hst.served h⟩
  · intro r J hJ
    have hJ' : (s.procs r).job = some J := by
      by_cases hr : r = p
      · subst hr
        simpa [State.startTeam] using hJ
      · simpa [State.startTeam, hr] using hJ
    have hne : J.tp ≠ cthd := fun heq => hst.unserved h r J.i (heq ▸ mem_tasks_of_job hJ')
    have hpost := (h.posting hJ').same (hst.data hne)
    by_cases hr : r = p
    · subst hr
      simpa [State.startTeam, Posting, hpc] using hpost
    · simpa [State.startTeam, hr] using hpost
  · intro r
    by_cases hr : r = p
    · subst hr
      simp only [State.startTeam, Function.update_self, Collected]
      exact ⟨trivial, fun j _ hj => if_pos hj⟩
    · have hteam : ∀ d k, (d, k) ∈ teams s.threads (s.procs r) →
          SameData (s.threads d) ((s.startTeam p cthd n l barriers).threads d) := by
        intro d k hd
        refine hst.data ?_
        rintro rfl
        exact hst.unled r k hd
      simpa [State.startTeam, hr] using (h.collected r).congr (h.owned.shaped r) hteam

end Start

/-! ## A number is given -/

section Assign

variable {cthd n t : ℕ} {l rest : List ℕ} {ts : List (ℕ × ℕ)}

theorem sameData_ids (t : ℕ) (parent : Option ℕ) (num : ℕ) (t' : ℕ) :
    SameData (s.threads t') (Function.update s.threads t
      { s.threads t with parent := parent, num := num } t') := by
  by_cases ht : t' = t
  · subst ht
    simpa using ⟨rfl, rfl, rfl, rfl, rfl⟩
  · rw [Function.update_of_ne ht]
    exact sameData_refl t'

/-- The state in which process `q` has number `i` in the team of process `p`. -/
def State.assignProc (s : State) (p q cthd i n t : ℕ) (l rest : List ℕ) : State :=
  ⟨Function.update (Function.update s.procs q { s.procs q with freeThr := rest, thr := some t }) p
      { s.procs p with pc := .assigning cthd (i + 1) n l },
    Function.update s.threads t { s.threads t with parent := some cthd, num := i }, s.lastUsed⟩

/-- What it changes to give number `i` to process `q`: it is the next number of the team that
process `p` leads with the record `cthd`, besides the teams `ts`. -/
structure Recruited (s s' : State) (p q cthd i : ℕ) (ts : List (ℕ × ℕ)) : Prop where
  teams_old : teams s.threads (s.procs p) = (cthd, i) :: ts
  data : ∀ d, SameData (s.threads d) (s'.threads d)
  pending_eq : ∀ r, pendingTasks s'.threads (s'.procs r) =
    if r = q then [(i, cthd)] else pendingTasks s.threads (s.procs r)
  tasks_eq : ∀ r, tasks s'.threads (s'.procs r) =
    if r = q then tasks s.threads (s.procs q) ++ [(i, cthd)] else tasks s.threads (s.procs r)
  teams_eq : ∀ r, teams s'.threads (s'.procs r) =
    if r = p then (cthd, i + 1) :: ts else teams s.threads (s.procs r)

theorem assignProc_job (hqp : q ≠ p) (r : ℕ) :
    ((s.assignProc p q cthd i n t l rest).procs r).job = (s.procs r).job := by
  by_cases hrp : r = p
  · subst hrp
    simp [State.assignProc]
  · by_cases hrq : r = q
    · subst hrq
      simp [State.assignProc, hqp]
    · simp [State.assignProc, hrp, hrq]

theorem Teamed.assigned_ne (h : Teamed s) (hpc : (s.procs p).pc = .assigning cthd i n (q :: l)) :
    q ≠ p := by
  rintro rfl
  obtain ⟨-, hrest⟩ := h.owned.listed (p := q) (q := q) (by simp [hpc, Pc.proclist])
  simpa [hpc, Pc.resting] using hrest.pc

theorem Teamed.assigned (h : Teamed s) (hpc : (s.procs p).pc = .assigning cthd i n (q :: l))
    (ht : s.Alloc q t rest) :
    Recruited s (s.assignProc p q cthd i n t l rest) p q cthd i
      ((openCalls (s.procs p)).map fun c => (c.cthd, (s.threads c.cthd).numThds)) := by
  obtain ⟨-, hrest⟩ := h.owned.listed (p := p) (q := q) (by simp [hpc, Pc.proclist])
  have hqp := h.assigned_ne hpc
  have hids : ∀ {r}, ∀ t' ∈ activeBy (s.procs r),
      SameId (s.threads t') ((s.assignProc p q cthd i n t l rest).threads t') := by
    intro r t' ht'
    refine (sameTeam_update_of_ne _ ?_).toSameId
    rintro rfl
    exact h.owned.alloc_unused ht ht'
  have hdata : ∀ d, SameData (s.threads d) ((s.assignProc p q cthd i n t l rest).threads d) :=
    sameData_ids t (some cthd) i
  have hpending : ∀ r, pendingTasks (s.assignProc p q cthd i n t l rest).threads
      ((s.assignProc p q cthd i n t l rest).procs r) =
        if r = q then [(i, cthd)] else pendingTasks s.threads (s.procs r) := by
    intro r
    split_ifs with hr
    · subst hr
      simp [State.assignProc, hqp, pendingTasks, hrest.pc]
    · by_cases hrp : r = p
      · subst hrp
        simp [State.assignProc, pendingTasks, hpc, Pc.resting]
      · have hprocs : (s.assignProc p q cthd i n t l rest).procs r = s.procs r := by
          simp [State.assignProc, hr, hrp]
        rw [hprocs, pendingTasks_congr hids]
  have hnil : pendingTasks s.threads (s.procs q) = [] := by simp [pendingTasks, hrest.thr]
  refine ⟨by simp [teams, hpc], hdata, hpending, fun r => ?_, fun r => ?_⟩
  · rw [tasks, hpending, assignProc_job hqp]
    split_ifs with hr
    · subst hr
      rw [tasks, hnil, List.append_nil]
    · rfl
  · rw [teams_congr fun c _ => (hdata c.cthd).numThds]
    split_ifs with hr
    · subst hr
      simp [State.assignProc, teams, openCalls, hpc]
    · by_cases hrq : r = q
      · subst hrq
        simp [State.assignProc, hr, teams, openCalls]
      · simp [State.assignProc, hr, hrq]

/-- The number that is given is nobody's. -/
theorem Recruited.fresh (ha : Recruited s s' p q cthd i ts) (h : Teamed s) (r : ℕ) :
    (i, cthd) ∉ tasks s.threads (s.procs r) := by
  intro hr
  obtain ⟨-, m, k, hk, hlt⟩ := h.team hr
  obtain ⟨-, rfl⟩ := team_unique h.owned (ha.teams_old ▸ List.mem_cons_self) hk
  exact Nat.lt_irrefl _ hlt

/-- A team stays, and the one of the record `cthd` gets one process more. -/
theorem Recruited.team_mem (ha : Recruited s s' p q cthd i ts)
    (hk : (d, k) ∈ teams s.threads (s.procs m)) :
    ∃ k', (d, k') ∈ teams s'.threads (s'.procs m) ∧ k ≤ k' := by
  rw [ha.teams_eq]
  split_ifs with hm
  · subst hm
    rw [ha.teams_old] at hk
    obtain heq | hk := List.mem_cons.mp hk
    · obtain ⟨rfl, rfl⟩ := Prod.mk.inj heq
      exact ⟨k + 1, List.mem_cons_self, Nat.le_succ k⟩
    · exact ⟨k, List.mem_cons_of_mem _ hk, le_rfl⟩
  · exact ⟨k, hk, le_rfl⟩

theorem Recruited.team (ha : Recruited s s' p q cthd i ts) (h : Teamed s) (hpos : 0 < i) {j r : ℕ}
    (hj : (j, d) ∈ tasks s'.threads (s'.procs r)) :
    0 < j ∧ ∃ m k, (d, k) ∈ teams s'.threads (s'.procs m) ∧ j < k := by
  have hcases : (j, d) ∈ tasks s.threads (s.procs r) ∨ (j, d) = (i, cthd) := by
    rw [ha.tasks_eq] at hj
    split_ifs at hj with hr
    · subst hr
      exact (List.mem_append.mp hj).imp_right List.mem_singleton.mp
    · exact .inl hj
  obtain hj | heq := hcases
  · obtain ⟨hjpos, m, k, hk, hlt⟩ := h.team hj
    obtain ⟨k', hk', hle⟩ := ha.team_mem hk
    exact ⟨hjpos, m, k', hk', Nat.lt_of_lt_of_le hlt hle⟩
  · obtain ⟨rfl, rfl⟩ := Prod.mk.inj heq
    refine ⟨hpos, p, j + 1, ?_, Nat.lt_succ_self j⟩
    rw [ha.teams_eq, if_pos rfl]
    exact List.mem_cons_self

theorem Recruited.served (ha : Recruited s s' p q cthd i ts) (h : Teamed s) {j : ℕ}
    (hk : (d, k) ∈ teams s'.threads (s'.procs m)) (hj : 0 < j) (hlt : j < k) :
    (∃ r, (j, d) ∈ tasks s'.threads (s'.procs r)) ∨
      (s'.threads d).barrierFlags j = reverse (s'.threads d).barrierSense ∧
        (s'.threads d).passed = (s'.threads d).barriers := by
  have hserved : ∀ {m k}, (d, k) ∈ teams s.threads (s.procs m) → j < k →
      (∃ r, (j, d) ∈ tasks s'.threads (s'.procs r)) ∨
        (s'.threads d).barrierFlags j = reverse (s'.threads d).barrierSense ∧
          (s'.threads d).passed = (s'.threads d).barriers := by
    intro m k hk hlt
    rw [(ha.data d).flags, (ha.data d).sense, (ha.data d).passed, (ha.data d).barriers]
    refine (h.served hk hj hlt).imp ?_ id
    rintro ⟨r, hr⟩
    refine ⟨r, ?_⟩
    rw [ha.tasks_eq]
    split_ifs with hrq
    · subst hrq
      exact List.mem_append_left _ hr
    · exact hr
  rw [ha.teams_eq] at hk
  split_ifs at hk with hm
  · subst hm
    obtain heq | hk := List.mem_cons.mp hk
    · obtain ⟨rfl, rfl⟩ := Prod.mk.inj heq
      -- the new number is that of process `q`, and the others are those of the old team
      obtain rfl | hne := eq_or_ne j i
      · refine .inl ⟨q, ?_⟩
        rw [ha.tasks_eq, if_pos rfl]
        exact List.mem_append_right _ List.mem_cons_self
      · exact hserved (ha.teams_old ▸ List.mem_cons_self) (by omega)
    · exact hserved (ha.teams_old ▸ List.mem_cons_of_mem _ hk) hlt
  · exact hserved hk hlt

theorem Teamed.step_assign (h : Teamed s)
    (hpc : (s.procs p).pc = .assigning cthd i n (q :: l)) (hi : i < n) (ht : s.Alloc q t rest) :
    Teamed (((s.setThread t { s.threads t with parent := some cthd, num := i }).setProc q
      { s.procs q with freeThr := rest, thr := some t }).setPc p
        (.assigning cthd (i + 1) n l)) := by
  obtain ⟨-, -, hpos, -, -⟩ := h.owned.shape hpc
  have hqp := h.assigned_ne hpc
  have ha := h.assigned hpc ht
  have hcoll := h.collected p
  rw [Collected, hpc] at hcoll
  have hs' : ((s.setThread t { s.threads t with parent := some cthd, num := i }).setProc q
      { s.procs q with freeThr := rest, thr := some t }).setPc p (.assigning cthd (i + 1) n l) =
      s.assignProc p q cthd i n t l rest := by
    simp only [State.assignProc, State.setPc, State.setProc, State.setThread]
    rw [Function.update_of_ne hqp.symm]
  rw [hs']
  refine ⟨hs' ▸ h.owned.step (Step.assign hpc hi ht : Step 0 s _), ?_, ha.team h hpos, ?_, ?_, ?_,
    ha.served h⟩
  · refine h.apart.add q (ha.fresh h) ?_ fun r hr => by rw [ha.tasks_eq, if_neg hr]
    rw [ha.tasks_eq, if_pos rfl]
    exact List.perm_append_singleton _ _
  · intro r J hJ
    rw [assignProc_job hqp] at hJ
    have hpost := (h.posting hJ).same (ha.data J.tp)
    by_cases hrp : r = p
    · subst hrp
      simpa [State.assignProc, Posting, hpc] using hpost
    · by_cases hrq : r = q
      · subst hrq
        simpa [State.assignProc, hrp, Posting] using hpost
      · simpa [State.assignProc, hrp, hrq] using hpost
  · intro r j d hj
    rw [(ha.data d).flags, (ha.data d).sense, (ha.data d).passed]
    rw [ha.pending_eq] at hj
    split_ifs at hj with hr
    · obtain ⟨rfl, rfl⟩ := Prod.mk.inj (List.mem_singleton.mp hj)
      exact ⟨hcoll.2 j le_rfl hi, hcoll.1⟩
    · exact h.pending hj
  · intro r
    by_cases hrp : r = p
    · subst hrp
      have hp : ((s.assignProc r q cthd i n t l rest).procs r).pc =
          .assigning cthd (i + 1) n l := by simp [State.assignProc]
      rw [Collected, hp]
      refine ⟨(ha.data cthd).passed.trans hcoll.1, fun j hj hjn => ?_⟩
      rw [(ha.data cthd).flags, (ha.data cthd).sense]
      exact hcoll.2 j (by omega) hjn
    · have hcongr := (h.collected r).congr (h.owned.shaped r) fun d _ _ => ha.data d
      by_cases hrq : r = q
      · subst hrq
        simpa [State.assignProc, hrp, Collected] using hcongr
      · simpa [State.assignProc, hrp, hrq] using hcongr

end Assign

/-! ## The other steps -/

theorem Teamed.step_lead (h : Teamed s) {cthd i n t : ℕ} {l rest : List ℕ}
    (hpc : (s.procs p).pc = .assigning cthd i n l) (hi : n ≤ i) (ht : s.Alloc p t rest) :
    Teamed ((s.setThread t { s.threads t with parent := some cthd, num := 0 }).setProc p
      { s.procs p with
        freeThr := rest
        thr := some t
        calls := ⟨cthd, t⟩ :: (s.procs p).calls
        pc := .body }) := by
  obtain ⟨hthr, hl, hpos, hlen, hn⟩ := h.owned.shape hpc
  obtain rfl : i = n := by omega
  have hunused : ∀ {r}, t ∉ activeBy (s.procs r) := h.owned.alloc_unused ht
  refine h.go (h.owned.step (Step.lead hpc hi ht : Step 0 s _)) (sameData_ids t (some cthd) 0)
    (fun r _ t' ht' => ?_) ?_ ?_ ?_ (fun J hJ => ?_) ?_
  · refine (sameTeam_update_of_ne _ ?_).toSameId
    rintro rfl
    exact hunused ht'
  · simp [tasks, pendingTasks, hpc, Pc.resting]
  · simp [pendingTasks, Pc.resting]
  · simp [teams, openCalls, hpc, hn]
  · have hpost := h.posting (p := p) hJ
    simpa [Posting, hpc] using hpost
  · trivial

theorem Teamed.step_load (h : Teamed s) {t tp : ℕ} (hpc : (s.procs p).pc = .idle)
    (hthr : (s.procs p).thr = some t) (hparent : (s.threads t).parent = some tp) :
    Teamed (s.setProc p { s.procs p with
      job := some ⟨(s.threads t).num, tp, 0⟩, pc := .body }) := by
  obtain ⟨-, hjob, -⟩ := h.owned.shape hpc
  have hjob' : (s.procs p).job = none := hjob
  have hmem : ((s.threads t).num, tp) ∈ pendingTasks s.threads (s.procs p) := by
    simp [pendingTasks, hpc, Pc.resting, hthr, hparent]
  refine h.go (h.owned.step (Step.load hpc hthr hparent : Step 0 s _)) sameData_refl
    (fun _ _ t _ => (sameTeam_refl t).toSameId) ?_ ?_ ?_ (fun J hJ => ?_) ?_
  · simp [tasks, pendingTasks, hpc, Pc.resting, hthr, hparent, hjob']
  · simp [pendingTasks, Pc.resting]
  · simp [teams, openCalls, hpc]
  · obtain rfl : J = ⟨(s.threads t).num, tp, 0⟩ := by simpa using hJ.symm
    obtain ⟨hflag, hpassed⟩ := h.pending hmem
    exact ⟨hflag, hpassed.symm⟩
  · trivial

theorem Teamed.step_get (h : Teamed s) {cthd max n last : ℕ} {l : List ℕ}
    (hpc : (s.procs p).pc = .getting cthd max n l) (hn : n < max)
    (hget : getProc maxThreads (fun r => (s.procs r).isUsed) s.lastUsed n = (some q, last)) :
    Teamed { (s.setProc q { s.procs q with isUsed := true }).setPc p
      (.getting cthd max (n + 1) (q :: l)) with lastUsed := last } := by
  have hrest := h.owned.unused (getProc_some hget)
  have hqp : q ≠ p := by
    rintro rfl
    simpa [hpc, Pc.resting] using hrest.pc
  let s' : State := ⟨Function.update (Function.update s.procs q
      { s.procs q with isUsed := true }) p
        { s.procs p with pc := .getting cthd max (n + 1) (q :: l) }, s.threads, last⟩
  have hs' : { (s.setProc q { s.procs q with isUsed := true }).setPc p
      (.getting cthd max (n + 1) (q :: l)) with lastUsed := last } = s' := by
    simp only [s', State.setPc, State.setProc]
    rw [Function.update_of_ne hqp.symm]
  rw [hs']
  have hprocs : ∀ r, r ≠ p → s'.procs r =
      { s.procs r with isUsed := if r = q then true else (s.procs r).isUsed } := by
    intro r hr
    by_cases hrq : r = q
    · subst hrq
      simp [s', hr]
    · simp [s', hr, hrq]
  refine h.keep (hs' ▸ h.owned.step (Step.get hpc hn hget : Step maxThreads s _)) (fun r => ?_)
    (fun r => ?_) ?_ ?_ (fun r => ?_) fun _ _ _ hflag hpassed => ⟨hflag, hpassed⟩
  · by_cases hr : r = p
    · subst hr
      simp [s', tasks, pendingTasks, hpc, Pc.resting]
    · rw [hprocs r hr]
      rfl
  · by_cases hr : r = p
    · subst hr
      simp [s', teams, openCalls, hpc]
    · rw [hprocs r hr]
      rfl
  · intro r J hJ
    by_cases hr : r = p
    · subst hr
      have hpost := h.posting (p := r) (J := J) (by simpa [s'] using hJ)
      simpa [s', Posting, hpc] using hpost
    · rw [hprocs r hr] at hJ ⊢
      exact h.posting (p := r) hJ
  · intro r i d hi
    by_cases hr : r = p
    · subst hr
      simp [s', pendingTasks, Pc.resting] at hi
    · rw [hprocs r hr] at hi
      exact h.pending (p := r) hi
  · by_cases hr : r = p
    · subst hr
      simp [s', Collected]
    · rw [hprocs r hr]
      exact h.collected r

theorem Teamed.step_enter (h : Teamed s) {t tpp : ℕ} (hpc : (s.procs p).pc = .body)
    (hthr : (s.procs p).thr = some t) (hparent : (s.threads t).parent = some tpp)
    (hnum : (s.threads t).num ≠ 0) (hjob : (s.procs p).job = some J)
    (hmore : J.passed < (s.threads tpp).barriers) :
    Teamed (s.setPc p
      (.entered (s.threads t).num tpp (reverse (s.threads tpp).barrierSense))) := by
  have howned := h.owned.step (Step.enter hpc hthr hparent hnum hjob hmore : Step 0 s _)
  have hpc' : ((s.setPc p (.entered (s.threads t).num tpp
      (reverse (s.threads tpp).barrierSense))).procs p).pc =
      .entered (s.threads t).num tpp (reverse (s.threads tpp).barrierSense) := by
    simp [State.setPc, State.setProc]
  obtain ⟨-, t', passed, -, hjob', -⟩ := howned.shape hpc'
  have hJ : J = ⟨(s.threads t).num, tpp, passed⟩ := by
    simpa [State.setPc, State.setProc, hjob] using hjob'
  refine h.alone howned (by simp [hpc, Pc.resting]) (.inl rfl) rfl ?_ (fun J' hJ' => ?_) ?_
  · simp [teams, openCalls, hpc]
  · obtain rfl : J = J' := Option.some.inj (hjob.symm.trans hJ')
    obtain ⟨hflag, hpassed⟩ : (s.threads J.tp).barrierFlags J.i =
        (s.threads J.tp).barrierSense ∧ J.passed = (s.threads J.tp).passed := by
      simpa [Posting, hpc] using h.posting hjob
    subst hJ
    exact ⟨hflag, hpassed, rfl, hmore⟩
  · trivial

theorem Teamed.step (h : Teamed s) (hs : Step maxThreads s s') : Teamed s' := by
  have howned := h.owned.step hs
  cases hs with
  | @fork p cthd cond nested nthds numThreads hpc hthr hnum =>
    refine h.alone howned (by simp [hpc, Pc.resting]) (.inl rfl) rfl ?_ (fun J hJ => ?_) trivial
    · simp [teams, openCalls, hpc]
    · simpa [Posting, hpc] using h.posting (p := p) hJ
  | get hpc hn hget => exact h.step_get hpc hn hget
  | @getNone p cthd max n last l hpc hn hget =>
    refine h.alone howned (by simp [hpc, Pc.resting]) (.inl rfl) rfl ?_ (fun J hJ => ?_) trivial
    · simp [teams, openCalls, hpc]
    · simpa [Posting, hpc] using h.posting (p := p) hJ
  | @getAll p cthd max n l hpc hn =>
    refine h.alone howned (by simp [hpc, Pc.resting]) (.inl rfl) rfl ?_ (fun J hJ => ?_) trivial
    · simp [teams, openCalls, hpc]
    · simpa [Posting, hpc] using h.posting (p := p) hJ
  | start barriers hpc => exact h.step_start barriers hpc
  | assign hpc hi ht => exact h.step_assign hpc hi ht
  | lead hpc hi ht => exact h.step_lead hpc hi ht
  | load hpc hthr hparent => exact h.step_load hpc hthr hparent
  | enter hpc hthr hparent hnum hjob hmore => exact h.step_enter hpc hthr hparent hnum hjob hmore
  | post hpc => exact h.step_post hpc
  | @pass p id tpp sen0 J hpc hjob hsense =>
    obtain ⟨-, t, passed, -, hjob', -⟩ := h.owned.shape hpc
    obtain rfl : J = ⟨id, tpp, passed⟩ := Option.some.inj (hjob.symm.trans hjob')
    refine h.alone howned (by simp [hpc, Pc.resting]) (.inl rfl) (by simp [hjob]) ?_
      (fun J' hJ' => ?_) trivial
    · simp [teams, openCalls, hpc]
    · obtain rfl : J' = ⟨id, tpp, passed + 1⟩ := by simpa using hJ'.symm
      have hpost := h.posting hjob
      simp only [Posting, hpc] at hpost
      obtain ⟨hflag, -, ⟨hsen, -⟩ | ⟨-, hpassed⟩⟩ := hpost
      · exact absurd (hsen.symm.trans hsense.symm) (reverse_ne _)
      · exact ⟨hflag.trans hsense.symm, hpassed⟩
  | @wait p t tpp hpc hthr hparent hnum hmore =>
    refine h.alone howned (by simp [hpc, Pc.resting]) (.inl rfl) rfl ?_ (fun J hJ => ?_) ?_
    · simp [teams, openCalls, hpc]
    · simpa [Posting, hpc] using h.posting (p := p) hJ
    · exact ⟨hmore, fun j' hj' hlt => by omega⟩
  | @waitFlag p tpp j hpc hj hflag =>
    have hcoll := h.collected p
    rw [Collected, hpc] at hcoll
    refine h.alone howned (by simp [hpc, Pc.resting]) (.inl rfl) rfl ?_ (fun J hJ => ?_) ?_
    · simp [teams, openCalls, hpc]
    · simpa [Posting, hpc] using h.posting (p := p) hJ
    · refine ⟨hcoll.1, fun j' hj' hlt => ?_⟩
      obtain hlt | rfl := Nat.lt_succ_iff_lt_or_eq.mp hlt
      · exact hcoll.2 j' hj' hlt
      · exact hflag
  | flip hpc hj => exact h.step_flip hpc hj
  | @join p c cs hpc hcalls hdone =>
    refine h.alone howned (by simp [hpc, Pc.resting]) (.inl rfl) rfl ?_ (fun J hJ => ?_) ?_
    · simp [teams, openCalls, hpc]
    · simpa [Posting, hpc] using h.posting (p := p) hJ
    · intro c' cs' hcalls'
      obtain ⟨rfl, -⟩ : c = c' ∧ cs = cs' := by simpa using hcalls.symm.trans hcalls'
      exact ⟨hdone, fun j' hj' hlt => by omega⟩
  | @joinFlag p j c cs hpc hcalls hj hflag =>
    have hcoll := h.collected p
    rw [Collected, hpc] at hcoll
    refine h.alone howned (by simp [hpc, Pc.resting]) (.inl rfl) rfl ?_ (fun J hJ => ?_) ?_
    · simp [teams, openCalls, hpc]
    · simpa [Posting, hpc] using h.posting (p := p) hJ
    · intro c' cs' hcalls'
      obtain ⟨rfl, -⟩ : c = c' ∧ cs = cs' := by simpa using hcalls.symm.trans hcalls'
      obtain ⟨hdone, hflags⟩ := hcoll c cs hcalls
      refine ⟨hdone, fun j' hj' hlt => ?_⟩
      obtain hlt | rfl := Nat.lt_succ_iff_lt_or_eq.mp hlt
      · exact hflags j' hj' hlt
      · exact hflag
  | joined hpc hcalls hj => exact h.step_joined hpc hcalls hj
  | @back p c cs hpc hcalls =>
    refine h.alone howned (by simp [hpc, Pc.resting]) (.inl rfl) rfl ?_ (fun J hJ => ?_) trivial
    · simp [teams, openCalls, hpc, hcalls]
    · simpa [Posting, hpc] using h.posting (p := p) hJ
  | @clean p me J hpc hthr hcalls hjob hdone =>
    refine h.alone howned (by simp [hpc, Pc.resting]) (.inl rfl) rfl ?_ (fun J' hJ' => ?_) trivial
    · simp [teams, openCalls, hpc]
    · obtain rfl : J = J' := Option.some.inj (hjob.symm.trans hJ')
      obtain ⟨hflag, hpassed⟩ : (s.threads J.tp).barrierFlags J.i =
          (s.threads J.tp).barrierSense ∧ J.passed = (s.threads J.tp).passed := by
        simpa [Posting, hpc] using h.posting hjob
      exact ⟨hflag, hpassed, hdone⟩
  | @free p hpc =>
    obtain ⟨-, -, hthr⟩ := h.owned.shape hpc
    refine h.alone howned (by simp [hpc, Pc.resting]) (.inr hthr) rfl ?_ (fun J hJ => ?_) trivial
    · simp [teams, openCalls, hpc]
    · simpa [Posting, hpc] using h.posting (p := p) hJ
  | @read p J hpc hjob =>
    refine h.go howned sameData_refl (fun _ _ t _ => (sameTeam_refl t).toSameId) ?_ ?_ ?_
      (fun J' hJ' => ?_) trivial
    · simp [tasks, pendingTasks, hpc, Pc.resting]
    · simp [pendingTasks, hpc, Pc.resting]
    · simp [teams, openCalls, hpc]
    · obtain rfl : J = J' := Option.some.inj (hjob.symm.trans hJ')
      have hpost := h.posting hjob
      simp only [Posting, hpc] at hpost
      exact ⟨hpost.1, hpost.2.1, rfl, hpost.2.2⟩
  | leave hpc hjob => exact h.step_leave hpc hjob

theorem Start.teamed {root : ℕ} (h : Start root s) : Teamed s := by
  have hjob : ∀ p, (s.procs p).job = none := by
    intro p
    by_cases hp : p = 0
    · simp [hp, h.master]
    · simp [h.slaves p hp]
  have hpending : ∀ p, pendingTasks s.threads (s.procs p) = [] := by
    intro p
    by_cases hp : p = 0
    · simp [hp, h.master, pendingTasks, Pc.resting]
    · simp [h.slaves p hp, pendingTasks]
  have htasks : ∀ p, tasks s.threads (s.procs p) = [] := fun p => by
    simp [tasks, hjob, hpending]
  have hteams : ∀ p, teams s.threads (s.procs p) = [] := by
    intro p
    by_cases hp : p = 0
    · simp [hp, h.master, teams, openCalls]
    · simp [h.slaves p hp, teams, openCalls]
  constructor
  · exact h.owned
  · exact ⟨fun p => by simp [htasks], fun hx => by simp [htasks] at hx⟩
  · intro p i d hi
    simp [htasks] at hi
  · intro p J hJ
    simp [hjob] at hJ
  · intro p i d hi
    simp [hpending] at hi
  · intro p
    by_cases hp : p = 0
    · simp [hp, h.master, Collected]
    · simp [h.slaves p hp, Collected]
  · intro m d k i hk
    simp [hteams] at hk

theorem Reachable.teamed {root : ℕ} (h : Reachable maxThreads root s) : Teamed s := by
  obtain ⟨s₀, h₀, hs⟩ := h
  induction hs with
  | refl => exact h₀.teamed
  | tail _ hstep ih => exact ih.step hstep

/-! ## A run with one region of two threads -/

open Relation (ReflTransGen)

def twoProcs : State where
  procs p := if p = 0 then ⟨true, some 100, [], .body, [], none⟩
    else ⟨false, none, [], .idle, [], none⟩
  threads _ := ⟨none, 0, 0, 0, fun _ => 0, 0, 0⟩
  lastUsed := 0

theorem start_twoProcs : Start 100 twoProcs where
  master := rfl
  slaves _ hp := if_neg hp
  root := rfl
  lastUsed := rfl

/-- The region runs; then its master has left the last barrier, or it opens a region in the region
while the other process is in use. -/
theorem exists_region : ∃ s s' s'', Reachable 2 100 s ∧ ⟨100, 102⟩ ∈ openCalls (s.procs 0) ∧
    Reachable 2 100 s' ∧ (s'.procs 0).pc = .joined ∧ (s'.procs 0).calls = [⟨100, 102⟩] ∧
    Reachable 2 100 s'' ∧ (s''.procs 0).pc = .getting 102 2 1 [] ∧
      (getProc 2 (fun r => (s''.procs r).isUsed) s''.lastUsed 1).1 = none := by
  have h0 : ReflTransGen (Step 2) twoProcs twoProcs := .refl
  have h1 := h0.tail (.fork (p := 0) true false 2 rfl rfl le_rfl)
  have h2 := h1.tail (.get (p := 0) rfl (by decide) rfl)
  have h3 := h2.tail (.getAll (p := 0) rfl (by decide))
  have h4 := h3.tail (.start (p := 0) 0 rfl)
  have h5 := h4.tail (.assign (p := 0) (t := 101) rfl (by decide) (.malloc rfl rfl fun r => by
    by_cases h : r = 0 <;> by_cases h' : r = 1 <;>
      simp [State.held, heldBy, activeBy, State.setPc, State.setProc, State.setThread,
        twoProcs, *]))
  have h6 := h5.tail (.lead (p := 0) (t := 102) rfl (by decide) (.malloc rfl rfl fun r => by
    by_cases h : r = 0 <;> by_cases h' : r = 1 <;>
      simp [State.held, heldBy, activeBy, State.setPc, State.setProc, State.setThread,
        twoProcs, *]))
  have h7 := h6.tail (.load (p := 1) rfl rfl rfl)
  have h8 := h7.tail (.clean (p := 1) rfl rfl rfl rfl rfl)
  have h9 := h8.tail (.free (p := 1) rfl)
  have h10 := h9.tail (.read (p := 1) rfl rfl)
  have h11 := h10.tail (.leave (p := 1) rfl rfl)
  have h12 := h11.tail (.join (p := 0) rfl rfl rfl)
  have h13 := h12.tail (.joinFlag (p := 0) rfl rfl (by decide) rfl)
  have h14 := h13.tail (.joined (p := 0) rfl rfl (by decide))
  have h7' := h6.tail (.fork (p := 0) true true 2 rfl rfl le_rfl)
  exact ⟨_, _, _, ⟨_, start_twoProcs, h6⟩, List.mem_cons_self, ⟨_, start_twoProcs, h14⟩, rfl, rfl,
    ⟨_, start_twoProcs, h7'⟩, rfl, rfl⟩

/-! ## What holds in every state -/

/-- A process works for a region that has not ended only with a number of its team. Each number is
with one process, unless the last flag has been posted for it. -/
theorem Reachable.existsUnique_member {root : ℕ} (h : Reachable maxThreads root s) {c : Call}
    (hc : c ∈ openCalls (s.procs m)) :
    (∀ q i, (i, c.cthd) ∈ tasks s.threads (s.procs q) →
      0 < i ∧ i < (s.threads c.cthd).numThds) ∧
    ∀ i, 0 < i → i < (s.threads c.cthd).numThds →
      (∃! q, (i, c.cthd) ∈ tasks s.threads (s.procs q)) ∨
        (∀ q, (i, c.cthd) ∉ tasks s.threads (s.procs q)) ∧
          (s.threads c.cthd).barrierFlags i = reverse (s.threads c.cthd).barrierSense ∧
            (s.threads c.cthd).passed = (s.threads c.cthd).barriers := by
  have ht := h.teamed
  have hteam : (c.cthd, (s.threads c.cthd).numThds) ∈ teams s.threads (s.procs m) :=
    List.mem_append_right _ (List.mem_map_of_mem hc)
  constructor
  · intro q i hi
    obtain ⟨hpos, m', k, hk, hlt⟩ := ht.team hi
    obtain ⟨-, rfl⟩ := team_unique ht.owned hteam hk
    exact ⟨hpos, hlt⟩
  · intro i hi hlt
    by_cases hq : ∃ q, (i, c.cthd) ∈ tasks s.threads (s.procs q)
    · obtain ⟨q, hq⟩ := hq
      exact .inl ⟨q, hq, fun q' hq' => ht.apart.holder hq' hq⟩
    · refine .inr ⟨fun q hq' => hq ⟨q, hq'⟩, ?_⟩
      exact (ht.served hteam hi hlt).resolve_left hq

theorem existsUnique_member_region : ∃ s, Reachable 2 100 s ∧
    (∀ q i, (i, 100) ∈ tasks s.threads (s.procs q) → 0 < i ∧ i < (s.threads 100).numThds) ∧
    ∀ i, 0 < i → i < (s.threads 100).numThds →
      (∃! q, (i, 100) ∈ tasks s.threads (s.procs q)) ∨
        (∀ q, (i, 100) ∉ tasks s.threads (s.procs q)) ∧
          (s.threads 100).barrierFlags i = reverse (s.threads 100).barrierSense ∧
            (s.threads 100).passed = (s.threads 100).barriers := by
  obtain ⟨s, -, -, hs, hc, -⟩ := exists_region
  exact ⟨s, hs, Reachable.existsUnique_member hs hc⟩

/-- When the master has left the last barrier of a region, no process works for the region any
more: none has it as its job and none has been started for it. -/
theorem Reachable.joined_free {root : ℕ} (h : Reachable maxThreads root s) {c : Call}
    {cs : List Call} (hpc : (s.procs p).pc = .joined) (hcalls : (s.procs p).calls = c :: cs)
    (q : ℕ) :
    (∀ J, (s.procs q).job = some J → J.tp ≠ c.cthd) ∧
      ∀ t, (s.procs q).pc.resting = true → (s.procs q).thr = some t →
        (s.threads t).parent ≠ some c.cthd := by
  have ht := h.teamed
  have hactive : c.cthd ∈ activeBy (s.procs p) := by simp [activeBy, hpc, hcalls]
  have hno : ∀ i, (i, c.cthd) ∉ tasks s.threads (s.procs q) := by
    intro i hi
    obtain ⟨-, m, k, hk, -⟩ := ht.team hi
    obtain rfl : m = p := eq_of_active ht.owned (mem_active_of_team ht.owned hk) hactive
    have hnodup := nodup_active ht.owned m
    simp only [activeBy, hpc, hcalls, List.nil_append, List.map_cons, List.nodup_cons] at hnodup
    simp only [teams, openCalls, hpc, hcalls, List.nil_append, List.tail_cons] at hk
    obtain ⟨c', hc', heq⟩ := List.mem_map.mp hk
    exact hnodup.1 (List.mem_map.mpr ⟨c', hc', congrArg Prod.fst heq⟩)
  constructor
  · rintro J hJ heq
    exact hno J.i (heq ▸ mem_tasks_of_job hJ)
  · intro t hr hthr hparent
    refine hno (s.threads t).num (mem_tasks_of_pending ?_)
    simp [pendingTasks, hr, hthr, hparent]

theorem joined_free_region : ∃ s, Reachable 2 100 s ∧ ∀ q,
    (∀ J, (s.procs q).job = some J → J.tp ≠ 100) ∧
      ∀ t, (s.procs q).pc.resting = true → (s.procs q).thr = some t →
        (s.threads t).parent ≠ some 100 := by
  obtain ⟨-, s, -, -, -, hs, hpc, hcalls, -⟩ := exists_region
  exact ⟨s, hs, fun q => Reachable.joined_free hs hpc hcalls q⟩

/-- What a region takes is used by nobody. A process that is free, or that has been found, has no
record and waits or has only its last flag to post; the one found is found by one region. A record
that is allocated is none of those for which a process runs. -/
theorem Reachable.taken_unused {root : ℕ} (h : Reachable maxThreads root s) :
    (∀ q, (s.procs q).isUsed = false ∨ (∃ p, q ∈ (s.procs p).pc.proclist) →
      (s.procs q).thr = none ∧ (s.procs q).pc.resting = true) ∧
    (∀ p p' q, q ∈ (s.procs p).pc.proclist → q ∈ (s.procs p').pc.proclist →
      (s.procs q).isUsed = true ∧ p = p') ∧
    ∀ q t rest, s.Alloc q t rest → ∀ r, t ∉ activeBy (s.procs r) := by
  have howned := h.teamed.owned
  refine ⟨fun q hq => ?_, fun _ _ q hp hp' => ?_, fun q t rest ht r => howned.alloc_unused ht⟩
  · have hrest : Resting (s.procs q) := by
      obtain hq | ⟨p, hq⟩ := hq
      · exact howned.unused hq
      · exact (howned.listed hq).2
    exact ⟨hrest.thr, hrest.pc⟩
  · exact ⟨(howned.listed hp).1, howned.lists.holder hp hp'⟩

theorem taken_unused_region : ∃ s, Reachable 2 100 s ∧
    (∀ q, (s.procs q).isUsed = false ∨ (∃ p, q ∈ (s.procs p).pc.proclist) →
      (s.procs q).thr = none ∧ (s.procs q).pc.resting = true) ∧
    (∀ p p' q, q ∈ (s.procs p).pc.proclist → q ∈ (s.procs p').pc.proclist →
      (s.procs q).isUsed = true ∧ p = p') ∧
    ∀ q t rest, s.Alloc q t rest → ∀ r, t ∉ activeBy (s.procs r) := by
  obtain ⟨s, -, -, hs, -⟩ := exists_region
  exact ⟨s, hs, Reachable.taken_unused hs⟩

/-! ## A region gets what is free -/

theorem searchProc_eq_none_iff {isUsed : ℕ → Bool} (k : ℕ) {last : ℕ} (hlast : last < maxThreads) :
    (searchProc maxThreads isUsed k last).1 = none ↔
      ∀ j, 0 < j → j ≤ k → isUsed ((last + j) % maxThreads) = true := by
  induction k generalizing last with
  | zero =>
    refine ⟨fun _ j hj hjk => by omega, fun _ => rfl⟩
  | succ k ih =>
    have hnext : (if maxThreads ≤ last + 1 then 0 else last + 1) = (last + 1) % maxThreads := by
      split_ifs with h
      · rw [show last + 1 = maxThreads by omega, Nat.mod_self]
      · rw [Nat.mod_eq_of_lt (by omega)]
    have hstep : ∀ j, ((last + 1) % maxThreads + j) % maxThreads =
      (last + (j + 1)) % maxThreads := by
      intro j
      rw [Nat.mod_add_mod, Nat.add_right_comm, Nat.add_assoc]
    simp only [searchProc, hnext]
    by_cases hu : isUsed ((last + 1) % maxThreads) = true
    · rw [if_pos hu, ih (Nat.mod_lt _ (by omega))]
      constructor
      · intro h j hj hjk
        obtain rfl | ⟨j, rfl⟩ : j = 1 ∨ ∃ i, j = i + 1 + 1 := by
          rcases j with _ | _ | j
          · omega
          · exact .inl rfl
          · exact .inr ⟨j, rfl⟩
        · exact hu
        · exact hstep (j + 1) ▸ h (j + 1) (Nat.succ_pos j) (by omega)
      · intro h j hj hjk
        exact (hstep j).symm ▸ h (j + 1) (Nat.succ_pos j) (by omega)
    · rw [if_neg hu]
      exact ⟨fun h => (by cases h), fun h => absurd (h 1 Nat.one_pos (by omega)) hu⟩

theorem getProc_eq_none_iff {isUsed : ℕ → Bool} {last hint : ℕ} (hlast : last < maxThreads)
    (hhint : hint < maxThreads) :
    (getProc maxThreads isUsed last hint).1 = none ↔ ∀ q < maxThreads, isUsed q = true := by
  rw [getProc]
  split_ifs with hu
  · rw [searchProc_eq_none_iff maxThreads hlast]
    constructor
    · intro h q hq
      by_cases hle : q ≤ last
      · have hj := h (q + maxThreads - last) (by omega) (by omega)
        rwa [show last + (q + maxThreads - last) = q + maxThreads by omega, Nat.add_mod_right,
          Nat.mod_eq_of_lt hq] at hj
      · have hj := h (q - last) (by omega) (by omega)
        rwa [show last + (q - last) = q by omega, Nat.mod_eq_of_lt hq] at hj
    · exact fun h j _ _ => h _ (Nat.mod_lt _ (by omega))
  · exact ⟨fun h => (by cases h), fun h => absurd (h hint hhint) hu⟩

theorem searchProc_snd_lt {isUsed : ℕ → Bool} (k : ℕ) {last : ℕ} (hlast : last < maxThreads) :
    (searchProc maxThreads isUsed k last).2 < maxThreads := by
  induction k generalizing last with
  | zero => exact hlast
  | succ k ih =>
    have hnext : (if maxThreads ≤ last + 1 then 0 else last + 1) < maxThreads := by
      split_ifs <;> omega
    simp only [searchProc]
    split_ifs
    · exact ih (by omega)
    · omega
    · exact ih (by omega)
    · omega

theorem getProc_snd_lt {isUsed : ℕ → Bool} {last : ℕ} (hint : ℕ) (hlast : last < maxThreads) :
    (getProc maxThreads isUsed last hint).2 < maxThreads := by
  rw [getProc]
  split_ifs
  · exact searchProc_snd_lt maxThreads hlast
  · exact hlast

structure Bounded (maxThreads : ℕ) (s : State) : Prop where
  lastUsed_lt : s.lastUsed < maxThreads
  max_le : ∀ {p cthd max n l}, (s.procs p).pc = .getting cthd max n l → max ≤ maxThreads

theorem maxThds_le {cond nested : Bool} {parent : Option ℕ} {nthds numThreads : ℕ}
    (hpos : 0 < maxThreads) (hnum : numThreads ≤ maxThreads) :
    maxThds cond nested parent nthds numThreads ≤ maxThreads := by
  rw [maxThds]
  split_ifs <;> omega

theorem Bounded.setProc (h : Bounded maxThreads s) {threads' : ℕ → Thread} {last : ℕ}
    (hlast : last < maxThreads)
    (hP : ∀ {cthd max n l}, P.pc = .getting cthd max n l → max ≤ maxThreads) :
    Bounded maxThreads ⟨Function.update s.procs p P, threads', last⟩ where
  lastUsed_lt := hlast
  max_le := by
    intro q cthd max n l hpc
    by_cases hq : q = p
    · subst hq
      exact hP (by simpa using hpc)
    · exact h.max_le (p := q) (by simpa [hq] using hpc)

theorem Bounded.step (h : Bounded maxThreads s) (hs : Step maxThreads s s') :
    Bounded maxThreads s' := by
  have hlast := h.lastUsed_lt
  cases hs with
  | fork cond nested nthds hpc hthr hnum =>
    refine h.setProc hlast fun heq => ?_
    obtain ⟨rfl, rfl, rfl, rfl⟩ := Pc.getting.inj heq
    exact maxThds_le (Nat.zero_lt_of_lt hlast) hnum
  | @get p cthd max n q last l hpc hn hget =>
    have hlast' : last < maxThreads := by
      have hsnd : (getProc maxThreads (fun r => (s.procs r).isUsed) s.lastUsed n).2 < maxThreads :=
        getProc_snd_lt n hlast
      rwa [hget] at hsnd
    have h1 : Bounded maxThreads (s.setProc q { s.procs q with isUsed := true }) :=
      h.setProc hlast fun heq => h.max_le (p := q) heq
    refine h1.setProc hlast' fun heq => ?_
    obtain ⟨rfl, rfl, rfl, rfl⟩ := Pc.getting.inj heq
    exact h.max_le hpc
  | @getNone p cthd max n last l hpc hn hget =>
    have hlast' : last < maxThreads := by
      have hsnd : (getProc maxThreads (fun r => (s.procs r).isUsed) s.lastUsed n).2 < maxThreads :=
        getProc_snd_lt n hlast
      rwa [hget] at hsnd
    exact h.setProc hlast' fun heq => by cases heq
  | @assign p cthd i n q t l rest hpc hi ht =>
    have h1 : Bounded maxThreads ((s.setThread t
        { s.threads t with parent := some cthd, num := i }).setProc q
          { s.procs q with freeThr := rest, thr := some t }) :=
      h.setProc hlast fun heq => h.max_le (p := q) heq
    exact h1.setProc hlast fun heq => by cases heq
  | _ => exact h.setProc hlast fun heq => by cases heq

theorem Reachable.bounded {root : ℕ} (h : Reachable maxThreads root s) (hpos : 0 < maxThreads) :
    Bounded maxThreads s := by
  obtain ⟨s₀, h₀, hs⟩ := h
  induction hs with
  | refl =>
    refine ⟨h₀.lastUsed ▸ hpos, fun {p cthd max n l} hpc => ?_⟩
    by_cases hp : p = 0
    · simp [hp, h₀.master] at hpc
    · simp [h₀.slaves p hp] at hpc
  | tail _ hstep ih => exact ih.step hstep

/-- A region has less processes than it may have only when all processes are in use. -/
theorem Reachable.isUsed_of_getProc_none {root : ℕ} (h : Reachable maxThreads root s)
    (hpos : 0 < maxThreads) {cthd max n : ℕ} {l : List ℕ}
    (hpc : (s.procs p).pc = .getting cthd max n l) (hn : n < max)
    (hget : (getProc maxThreads (fun r => (s.procs r).isUsed) s.lastUsed n).1 = none) :
    ∀ q < maxThreads, (s.procs q).isUsed = true := by
  have hbounded := h.bounded hpos
  exact (getProc_eq_none_iff hbounded.lastUsed_lt
    (Nat.lt_of_lt_of_le hn (hbounded.max_le hpc))).mp hget

theorem isUsed_of_getProc_none_region :
    ∃ s, Reachable 2 100 s ∧ ∀ q < 2, (s.procs q).isUsed = true := by
  obtain ⟨-, -, s, -, -, -, -, -, hs, hpc, hget⟩ := exists_region
  exact ⟨s, hs, Reachable.isUsed_of_getProc_none hs Nat.two_pos hpc Nat.one_lt_two hget⟩

end OmniCompiler.Omp.ForkJoin
