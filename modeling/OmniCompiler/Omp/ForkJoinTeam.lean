import OmniCompiler.Omp.ForkJoinOwner

/-!
# The members of a team

While a region runs, each number of its team is with one process, which has the number as its job,
has still to take it up, or has posted its flag at the end. So the parent goes on after the region
only when no process works for it any more.
-/
namespace OmniCompiler.Omp.ForkJoin

open Barrier (reverse reverse_ne)
open Holding

def pendingTasks (threads : ℕ → Thread) (P : Proc) : List (ℕ × ℕ) :=
  if P.pc.resting then
    P.thr.toList.flatMap fun t => (threads t).parent.toList.map fun d => ((threads t).num, d)
  else []

/-- The numbers and teams for which a process works or will work. -/
def tasks (threads : ℕ → Thread) (P : Proc) : List (ℕ × ℕ) :=
  P.job.toList.map (fun J => (J.i, J.tp)) ++ pendingTasks threads P

/-- The regions that have not ended. -/
def openCalls (P : Proc) : List Call :=
  match P.pc with
  | .joined => P.calls.tail
  | _ => P.calls

/-- The teams of a process as their master, with the numbers that have been given below them. -/
def teams (threads : ℕ → Thread) (P : Proc) : List (ℕ × ℕ) :=
  (match P.pc with
    | .assigning cthd i _ _ => [(cthd, i)]
    | _ => []) ++ (openCalls P).map fun c => (c.cthd, (threads c.cthd).numThds)

/-- How the flag of a slave and the number of barriers that it has left agree with the sense and
the number of the master. -/
def Posting (threads : ℕ → Thread) (P : Proc) (J : Job) : Prop :=
  match P.pc with
  | .posted _ _ sen0 => (threads J.tp).barrierFlags J.i = sen0 ∧
      J.passed < (threads J.tp).barriers ∧
      (sen0 = reverse (threads J.tp).barrierSense ∧ J.passed = (threads J.tp).passed ∨
        sen0 = (threads J.tp).barrierSense ∧ J.passed + 1 = (threads J.tp).passed)
  | .entered _ _ sen0 => (threads J.tp).barrierFlags J.i = (threads J.tp).barrierSense ∧
      J.passed = (threads J.tp).passed ∧ sen0 = reverse (threads J.tp).barrierSense ∧
      J.passed < (threads J.tp).barriers
  | .cleaned | .freed => (threads J.tp).barrierFlags J.i = (threads J.tp).barrierSense ∧
      J.passed = (threads J.tp).passed ∧ J.passed = (threads J.tp).barriers
  | .leaving sen0 => (threads J.tp).barrierFlags J.i = (threads J.tp).barrierSense ∧
      J.passed = (threads J.tp).passed ∧ sen0 = reverse (threads J.tp).barrierSense ∧
      J.passed = (threads J.tp).barriers
  | _ => (threads J.tp).barrierFlags J.i = (threads J.tp).barrierSense ∧
      J.passed = (threads J.tp).passed

def Collected (threads : ℕ → Thread) (P : Proc) : Prop :=
  match P.pc with
  | .assigning cthd i n _ => (threads cthd).passed = 0 ∧
      ∀ j, i ≤ j → j < n → (threads cthd).barrierFlags j = (threads cthd).barrierSense
  | .waiting tpp j => (threads tpp).passed < (threads tpp).barriers ∧
      ∀ j', 0 < j' → j' < j → (threads tpp).barrierFlags j' = reverse (threads tpp).barrierSense
  | .joining j => ∀ c cs, P.calls = c :: cs →
      (threads c.cthd).passed = (threads c.cthd).barriers ∧
      ∀ j', 0 < j' → j' < j →
        (threads c.cthd).barrierFlags j' = reverse (threads c.cthd).barrierSense
  | _ => True

structure SameData (T T' : Thread) : Prop where
  numThds : T'.numThds = T.numThds
  sense : T'.barrierSense = T.barrierSense
  flags : T'.barrierFlags = T.barrierFlags
  barriers : T'.barriers = T.barriers
  passed : T'.passed = T.passed

structure Teamed (s : State) : Prop where
  owned : Owned s
  apart : Apart fun p => tasks s.threads (s.procs p)
  team : ∀ {p i d}, (i, d) ∈ tasks s.threads (s.procs p) →
    0 < i ∧ ∃ m k, (d, k) ∈ teams s.threads (s.procs m) ∧ i < k
  posting : ∀ {p J}, (s.procs p).job = some J → Posting s.threads (s.procs p) J
  pending : ∀ {p i d}, (i, d) ∈ pendingTasks s.threads (s.procs p) →
    (s.threads d).barrierFlags i = (s.threads d).barrierSense ∧ (s.threads d).passed = 0
  collected : ∀ p, Collected s.threads (s.procs p)
  served : ∀ {m d k i}, (d, k) ∈ teams s.threads (s.procs m) → 0 < i → i < k →
    (∃ p, (i, d) ∈ tasks s.threads (s.procs p)) ∨
      (s.threads d).barrierFlags i = reverse (s.threads d).barrierSense ∧
        (s.threads d).passed = (s.threads d).barriers

variable {s s' : State} {maxThreads p q d i k m : ℕ} {P : Proc} {J : Job}
  {threads threads' : ℕ → Thread}

theorem Posting.congr (h : Posting threads P J)
    (hs : (threads' J.tp).barrierSense = (threads J.tp).barrierSense)
    (hf : (threads' J.tp).barrierFlags J.i = (threads J.tp).barrierFlags J.i)
    (hb : (threads' J.tp).barriers = (threads J.tp).barriers)
    (hp : (threads' J.tp).passed = (threads J.tp).passed) : Posting threads' P J := by
  simpa only [Posting, hs, hf, hb, hp] using h

theorem Posting.same (h : Posting threads P J) (hd : SameData (threads J.tp) (threads' J.tp)) :
    Posting threads' P J :=
  h.congr hd.sense (congrFun hd.flags J.i) hd.barriers hd.passed

theorem Collected.congr (h : Collected threads P) (hshape : Shaped threads P)
    (hd : ∀ d k, (d, k) ∈ teams threads P → SameData (threads d) (threads' d)) :
    Collected threads' P := by
  obtain ⟨isUsed, thr, freeThr, pc, calls, job⟩ := P
  have hcall : ∀ c ∈ calls, pc ≠ .joined → SameData (threads c.cthd) (threads' c.cthd) := by
    intro c hc hpc
    refine hd c.cthd (threads c.cthd).numThds (List.mem_append_right _ ?_)
    have hopen : openCalls ⟨isUsed, thr, freeThr, pc, calls, job⟩ = calls := by
      cases pc <;> first | rfl | exact absurd rfl hpc
    rw [hopen]
    exact List.mem_map_of_mem hc
  cases pc with
  | assigning cthd i n l =>
    have hsame := hd cthd i (List.mem_append_left _ List.mem_cons_self)
    exact ⟨hsame.passed.trans h.1, fun j hj hjn => by rw [hsame.flags, hsame.sense, h.2 j hj hjn]⟩
  | waiting tpp j =>
    obtain ⟨t, c, cs, -, rfl, rfl, -⟩ := hshape
    have hsame := hcall c List.mem_cons_self (by simp)
    refine ⟨?_, fun j' hj' hjj => ?_⟩
    · rw [hsame.passed, hsame.barriers]
      exact h.1
    · rw [hsame.flags, hsame.sense]
      exact h.2 j' hj' hjj
  | joining j =>
    rintro c cs rfl
    have hsame := hcall c List.mem_cons_self (by simp)
    refine ⟨?_, fun j' hj' hjj => ?_⟩
    · rw [hsame.passed, hsame.barriers]
      exact (h c cs rfl).1
    · rw [hsame.flags, hsame.sense]
      exact (h c cs rfl).2 j' hj' hjj
  | _ => trivial

theorem teams_congr (hn : ∀ c ∈ openCalls P, (threads' c.cthd).numThds = (threads c.cthd).numThds) :
    teams threads' P = teams threads P := by
  rw [teams, teams, List.map_congr_left fun c hc => by rw [hn c hc]]

theorem mem_active_of_resting (hp : P.pc.resting = true) {t : ℕ} (ht : P.thr = some t) :
    t ∈ activeBy P := by
  cases hpc : P.pc <;> simp_all [activeBy, Pc.resting]

theorem pendingTasks_congr (h : ∀ t ∈ activeBy P, SameId (threads t) (threads' t)) :
    pendingTasks threads' P = pendingTasks threads P := by
  by_cases hr : P.pc.resting = true
  · cases hthr : P.thr with
    | none => simp [pendingTasks, hthr]
    | some t =>
      have hsame := h t (mem_active_of_resting hr hthr)
      simp [pendingTasks, hthr, hsame.parent, hsame.num]
  · simp [pendingTasks, hr]

theorem tasks_congr (h : ∀ t ∈ activeBy P, SameId (threads t) (threads' t)) :
    tasks threads' P = tasks threads P := by
  rw [tasks, tasks, pendingTasks_congr h]

theorem mem_tasks_iff {x : ℕ × ℕ} :
    x ∈ tasks threads P ↔ (∃ J, P.job = some J ∧ x = (J.i, J.tp)) ∨
      x ∈ pendingTasks threads P := by
  rw [tasks, List.mem_append]
  refine or_congr ?_ Iff.rfl
  cases P.job <;> simp

theorem pendingTasks_of_busy (h : P.pc.resting = false) : pendingTasks threads P = [] := by
  simp [pendingTasks, h]

/-! ## A team has one master -/

theorem mem_active_of_team (h : Owned s) (hd : (d, k) ∈ teams s.threads (s.procs m)) :
    d ∈ activeBy (s.procs m) := by
  rw [teams, List.mem_append] at hd
  obtain hd | hd := hd
  · cases hpc : (s.procs m).pc with
    | assigning cthd i n l =>
      obtain ⟨rfl, rfl⟩ : d = cthd ∧ k = i := by simpa [hpc] using hd
      have hthr : (s.procs m).thr = some d := (h.shape hpc).1
      simp [activeBy, hpc, hthr]
    | _ => simp [hpc] at hd
  · obtain ⟨c, hc, heq⟩ := List.mem_map.mp hd
    obtain rfl : c.cthd = d := congrArg Prod.fst heq
    have hmem : c ∈ (s.procs m).calls := by
      rw [openCalls] at hc
      split at hc
      · exact List.mem_of_mem_tail hc
      · exact hc
    exact List.mem_append_right _ (List.mem_map_of_mem hmem)

theorem nodup_active (h : Owned s) (p : ℕ) : (activeBy (s.procs p)).Nodup :=
  (List.nodup_append.mp (h.held.nodup p)).2.1

theorem eq_of_active (h : Owned s) {t : ℕ} (hp : t ∈ activeBy (s.procs p))
    (hq : t ∈ activeBy (s.procs q)) : p = q :=
  h.held.holder (List.mem_append_right _ hp) (List.mem_append_right _ hq)

theorem nodup_openCalls (h : Owned s) (p : ℕ) :
    ((openCalls (s.procs p)).map Call.cthd).Nodup := by
  have hcalls : ((s.procs p).calls.map Call.cthd).Nodup :=
    (List.nodup_append.mp (nodup_active h p)).2.1
  rw [openCalls]
  split
  · exact (hcalls.sublist ((List.tail_sublist _).map _))
  · exact hcalls

theorem team_unique (h : Owned s) {k' m' : ℕ} (hd : (d, k) ∈ teams s.threads (s.procs m))
    (hd' : (d, k') ∈ teams s.threads (s.procs m')) : m = m' ∧ k = k' := by
  obtain rfl : m = m' := eq_of_active h (mem_active_of_team h hd) (mem_active_of_team h hd')
  refine ⟨rfl, ?_⟩
  have hcall : ∀ {k}, (d, k) ∈ (openCalls (s.procs m)).map
      (fun c => (c.cthd, (s.threads c.cthd).numThds)) → k = (s.threads d).numThds := by
    intro k hk
    obtain ⟨c, -, heq⟩ := List.mem_map.mp hk
    obtain ⟨rfl, rfl⟩ : c.cthd = d ∧ _ = k := by simpa using heq
    rfl
  rw [teams, List.mem_append] at hd hd'
  cases hpc : (s.procs m).pc with
  | assigning cthd i n l =>
    have hthr : (s.procs m).thr = some cthd := (h.shape hpc).1
    have hnodup := nodup_active h m
    simp only [activeBy, hpc, hthr, Option.toList_some, List.singleton_append,
      List.nodup_cons] at hnodup
    have hnot : ∀ {k}, (d, k) ∈ (openCalls (s.procs m)).map
        (fun c => (c.cthd, (s.threads c.cthd).numThds)) → d ≠ cthd := by
      rintro k hk rfl
      obtain ⟨c, hc, heq⟩ := List.mem_map.mp hk
      obtain rfl : c.cthd = d := congrArg Prod.fst heq
      exact hnodup.1 (List.mem_map_of_mem (by simpa [openCalls, hpc] using hc))
    simp only [hpc, List.mem_singleton, Prod.mk.injEq] at hd hd'
    obtain ⟨rfl, rfl⟩ | hd := hd
    · obtain ⟨-, rfl⟩ | hd' := hd'
      · rfl
      · exact absurd rfl (hnot hd')
    · obtain ⟨rfl, rfl⟩ | hd' := hd'
      · exact absurd rfl (hnot hd)
      · rw [hcall hd, hcall hd']
  | _ =>
    simp only [hpc, List.not_mem_nil, false_or] at hd hd'
    rw [hcall hd, hcall hd']

/-! ## Steps that leave the teams -/

/-- The numbers stay with their processes and the teams with their masters. -/
theorem Teamed.keep (h : Teamed s) (howned : Owned s')
    (htasks : ∀ r, tasks s'.threads (s'.procs r) = tasks s.threads (s.procs r))
    (hteams : ∀ r, teams s'.threads (s'.procs r) = teams s.threads (s.procs r))
    (hposting : ∀ {p J}, (s'.procs p).job = some J → Posting s'.threads (s'.procs p) J)
    (hpending : ∀ {p i d}, (i, d) ∈ pendingTasks s'.threads (s'.procs p) →
      (s'.threads d).barrierFlags i = (s'.threads d).barrierSense ∧ (s'.threads d).passed = 0)
    (hcollected : ∀ p, Collected s'.threads (s'.procs p))
    (hserved : ∀ {m d k i}, (d, k) ∈ teams s.threads (s.procs m) → 0 < i → i < k →
      (s.threads d).barrierFlags i = reverse (s.threads d).barrierSense →
      (s.threads d).passed = (s.threads d).barriers →
      (s'.threads d).barrierFlags i = reverse (s'.threads d).barrierSense ∧
        (s'.threads d).passed = (s'.threads d).barriers) : Teamed s' where
  owned := howned
  apart := h.apart.congr htasks
  team := by
    intro p i d hi
    obtain ⟨hpos, m, k, hk, hlt⟩ := h.team (htasks p ▸ hi)
    exact ⟨hpos, m, k, (hteams m).symm ▸ hk, hlt⟩
  posting := hposting
  pending := hpending
  collected := hcollected
  served := by
    intro m d k i hk hi hlt
    have hk' : (d, k) ∈ teams s.threads (s.procs m) := hteams m ▸ hk
    obtain ⟨p, hp⟩ | ⟨hflag, hpassed⟩ := h.served hk' hi hlt
    · exact .inl ⟨p, (htasks p).symm ▸ hp⟩
    · exact .inr (hserved hk' hi hlt hflag hpassed)

theorem Teamed.go (h : Teamed s) {last : ℕ}
    (howned : Owned ⟨Function.update s.procs p P, threads', last⟩)
    (hdata : ∀ t, SameData (s.threads t) (threads' t))
    (hids : ∀ r, r ≠ p → ∀ t ∈ activeBy (s.procs r), SameId (s.threads t) (threads' t))
    (htasks : tasks threads' P = tasks s.threads (s.procs p))
    (hpending : pendingTasks threads' P ⊆ pendingTasks s.threads (s.procs p))
    (hteams : teams s.threads P = teams s.threads (s.procs p))
    (hposting : ∀ J, P.job = some J → Posting s.threads P J)
    (hcollected : Collected threads' P) :
    Teamed ⟨Function.update s.procs p P, threads', last⟩ := by
  refine h.keep howned (fun r => ?_) (fun r => ?_) ?_ ?_ (fun r => ?_) ?_
  · by_cases hr : r = p
    · subst hr
      simpa using htasks
    · simpa [hr] using tasks_congr (hids r hr)
  · rw [teams_congr fun c _ => (hdata c.cthd).numThds]
    by_cases hr : r = p
    · subst hr
      simpa using hteams
    · simp [hr]
  · intro r J hJ
    by_cases hr : r = p
    · subst hr
      have hJ' : P.job = some J := by simpa using hJ
      simpa using (hposting J hJ').same (hdata J.tp)
    · have hJ' : (s.procs r).job = some J := by simpa [hr] using hJ
      simpa [hr] using (h.posting hJ').same (hdata J.tp)
  · intro r i d hi
    have hi' : (i, d) ∈ pendingTasks s.threads (s.procs r) := by
      by_cases hr : r = p
      · subst hr
        exact hpending (by simpa using hi)
      · have hcongr := pendingTasks_congr (hids r hr)
        simpa [hr, hcongr] using hi
    simpa only [(hdata d).flags, (hdata d).sense, (hdata d).passed] using h.pending hi'
  · by_cases hr : r = p
    · subst hr
      simpa using hcollected
    · simpa [hr] using (h.collected r).congr (h.owned.shaped r) fun d _ _ => hdata d
  · intro m d k i _ _ _ hflag hpassed
    exact ⟨by rw [(hdata d).flags, (hdata d).sense, hflag],
      by rw [(hdata d).passed, (hdata d).barriers, hpassed]⟩

theorem sameData_refl (t : ℕ) : SameData (s.threads t) (s.threads t) := ⟨rfl, rfl, rfl, rfl, rfl⟩

/-- A process that does not rest goes on alone, to where its regions and its flag are the same. -/
theorem Teamed.alone (h : Teamed s) {last : ℕ}
    (howned : Owned ⟨Function.update s.procs p P, s.threads, last⟩)
    (hp : (s.procs p).pc.resting = false) (hP : P.pc.resting = false ∨ P.thr = none)
    (hjob : P.job.map (fun J => (J.i, J.tp)) = (s.procs p).job.map fun J => (J.i, J.tp))
    (hteams : teams s.threads P = teams s.threads (s.procs p))
    (hposting : ∀ J, P.job = some J → Posting s.threads P J)
    (hcollected : Collected s.threads P) :
    Teamed ⟨Function.update s.procs p P, s.threads, last⟩ := by
  have hnil : pendingTasks s.threads P = [] := by
    obtain hP | hP := hP
    · exact pendingTasks_of_busy hP
    · simp [pendingTasks, hP]
  refine h.go howned sameData_refl (fun _ _ t _ => (sameTeam_refl t).toSameId) ?_ ?_ hteams hposting
    hcollected
  · rw [tasks, tasks, hnil, pendingTasks_of_busy hp, ← Option.toList_map, ← Option.toList_map, hjob]
  · simp [hnil]

theorem mem_tasks_of_job (hJ : (s.procs p).job = some J) :
    (J.i, J.tp) ∈ tasks s.threads (s.procs p) :=
  mem_tasks_iff.mpr (.inl ⟨J, hJ, rfl⟩)

theorem mem_tasks_of_pending {x : ℕ × ℕ} (hx : x ∈ pendingTasks s.threads (s.procs p)) :
    x ∈ tasks s.threads (s.procs p) :=
  mem_tasks_iff.mpr (.inr hx)

theorem Teamed.pending_ne (h : Teamed s) (hJ : (s.procs p).job = some J) {x : ℕ × ℕ}
    (hx : x ∈ pendingTasks s.threads (s.procs q)) : x ≠ (J.i, J.tp) := by
  rintro rfl
  obtain rfl := h.apart.holder (mem_tasks_of_pending hx) (mem_tasks_of_job hJ)
  have hnodup : (tasks s.threads (s.procs q)).Nodup := h.apart.nodup q
  rw [tasks, hJ] at hnodup
  exact (List.nodup_append.mp hnodup).2.2 _ (List.mem_singleton_self _) _ hx rfl

/-! ## A slave posts its flag -/

/-- The records when thread `id` of team `d` has posted its flag. -/
def postFlag (threads : ℕ → Thread) (d id : ℕ) (sen0 : BitVec 32) : ℕ → Thread :=
  Function.update threads d { threads d with
    barrierFlags := Function.update (threads d).barrierFlags id sen0 }

theorem postFlag_sameTeam (d id : ℕ) (sen0 : BitVec 32) (t : ℕ) :
    SameTeam (s.threads t) (postFlag s.threads d id sen0 t) :=
  sameTeam_update (T := { s.threads d with
    barrierFlags := Function.update (s.threads d).barrierFlags id sen0 }) ⟨⟨rfl, rfl⟩, rfl⟩ t

section PostFlag

variable {id : ℕ} {sen0 : BitVec 32}

theorem postFlag_sense (d id : ℕ) (sen0 : BitVec 32) (t : ℕ) :
    (postFlag threads d id sen0 t).barrierSense = (threads t).barrierSense := by
  by_cases ht : t = d
  · subst ht
    simp [postFlag]
  · simp [postFlag, ht]

theorem postFlag_barriers (d id : ℕ) (sen0 : BitVec 32) (t : ℕ) :
    (postFlag threads d id sen0 t).barriers = (threads t).barriers := by
  by_cases ht : t = d
  · subst ht
    simp [postFlag]
  · simp [postFlag, ht]

theorem postFlag_passed (d id : ℕ) (sen0 : BitVec 32) (t : ℕ) :
    (postFlag threads d id sen0 t).passed = (threads t).passed := by
  by_cases ht : t = d
  · subst ht
    simp [postFlag]
  · simp [postFlag, ht]

theorem postFlag_flags (t i : ℕ) : (postFlag threads d id sen0 t).barrierFlags i =
    if (i, t) = (id, d) then sen0 else (threads t).barrierFlags i := by
  by_cases ht : t = d
  · subst ht
    by_cases hi : i = id
    · simp [postFlag, hi]
    · simp [postFlag, hi]
  · simp [postFlag, ht]

theorem Teamed.posting_postFlag (h : Teamed s) (hid : (id, d) ∈ tasks s.threads (s.procs p))
    (hq : q ≠ p) (hJ : (s.procs q).job = some J) :
    Posting (postFlag s.threads d id sen0) (s.procs q) J := by
  refine (h.posting hJ).congr (postFlag_sense _ _ _ _) ?_ (postFlag_barriers _ _ _ _)
    (postFlag_passed _ _ _ _)
  rw [postFlag_flags, if_neg]
  intro heq
  exact hq (h.apart.holder (mem_tasks_of_job hJ) (heq ▸ hid))

theorem Teamed.pending_postFlag (h : Teamed s) {e : ℕ}
    (hx : (i, e) ∈ pendingTasks s.threads (s.procs q)) (hne : (i, e) ≠ (id, d)) :
    (postFlag s.threads d id sen0 e).barrierFlags i =
        (postFlag s.threads d id sen0 e).barrierSense ∧
      (postFlag s.threads d id sen0 e).passed = 0 := by
  rw [postFlag_flags, if_neg hne, postFlag_sense, postFlag_passed]
  exact h.pending hx

theorem reverse_postFlag (hsen : sen0 = reverse (s.threads d).barrierSense) {e j : ℕ}
    (hj : (s.threads e).barrierFlags j = reverse (s.threads e).barrierSense) :
    (postFlag s.threads d id sen0 e).barrierFlags j =
      reverse (postFlag s.threads d id sen0 e).barrierSense := by
  rw [postFlag_flags, postFlag_sense]
  split_ifs with heq
  · obtain ⟨-, rfl⟩ := Prod.mk.inj heq
    exact hsen
  · exact hj

theorem Teamed.collected_postFlag (h : Teamed s) (hid : (id, d) ∈ tasks s.threads (s.procs p))
    (hsen : sen0 = reverse (s.threads d).barrierSense) (q : ℕ) :
    Collected (postFlag s.threads d id sen0) (s.procs q) := by
  have hcoll := h.collected q
  rw [Collected] at hcoll ⊢
  cases hpc : (s.procs q).pc with
  | assigning cthd i n l =>
    rw [hpc] at hcoll
    refine ⟨(postFlag_passed _ _ _ _).trans hcoll.1, fun j hj hjn => ?_⟩
    rw [postFlag_flags, postFlag_sense, if_neg, hcoll.2 j hj hjn]
    intro heq
    obtain ⟨rfl, rfl⟩ := Prod.mk.inj heq
    obtain ⟨-, m, k, hk, hlt⟩ := h.team hid
    have hq : (cthd, i) ∈ teams s.threads (s.procs q) := by simp [teams, hpc]
    obtain ⟨-, rfl⟩ := team_unique h.owned hk hq
    omega
  | waiting tpp j =>
    rw [hpc] at hcoll
    refine ⟨?_, fun j' hj' hjj => reverse_postFlag hsen (hcoll.2 j' hj' hjj)⟩
    rw [postFlag_passed, postFlag_barriers]
    exact hcoll.1
  | joining j =>
    rw [hpc] at hcoll
    intro c cs hcs
    refine ⟨?_, fun j' hj' hjj => reverse_postFlag hsen ((hcoll c cs hcs).2 j' hj' hjj)⟩
    rw [postFlag_passed, postFlag_barriers]
    exact (hcoll c cs hcs).1
  | _ => trivial

end PostFlag

theorem Teamed.step_post (h : Teamed s) {id tpp : ℕ} {sen0 : BitVec 32}
    (hpc : (s.procs p).pc = .entered id tpp sen0) :
    Teamed ((s.setThread tpp { s.threads tpp with
      barrierFlags := Function.update (s.threads tpp).barrierFlags id sen0 }).setPc p
        (.posted id tpp sen0)) := by
  obtain ⟨hcalls, t, passed, hthr, hjob, hl⟩ := h.owned.shape hpc
  have hjob' : (s.procs p).job = some ⟨id, tpp, passed⟩ := hjob
  have hid := mem_tasks_of_job hjob'
  obtain ⟨hflag, hpassed, hsen, hmore⟩ : (s.threads tpp).barrierFlags id =
      (s.threads tpp).barrierSense ∧ passed = (s.threads tpp).passed ∧
        sen0 = reverse (s.threads tpp).barrierSense ∧ passed < (s.threads tpp).barriers := by
    simpa [Posting, hpc] using h.posting hjob'
  have hids := postFlag_sameTeam (s := s) tpp id sen0
  have howned : Owned ⟨Function.update s.procs p { s.procs p with pc := .posted id tpp sen0 },
      postFlag s.threads tpp id sen0, s.lastUsed⟩ := h.owned.step (Step.post hpc : Step 0 s _)
  change Teamed ⟨Function.update s.procs p { s.procs p with pc := .posted id tpp sen0 },
    postFlag s.threads tpp id sen0, s.lastUsed⟩
  refine h.keep howned (fun r => ?_) (fun r => ?_) ?_ ?_ (fun r => ?_) ?_
  · rw [tasks_congr fun t _ => (hids t).toSameId]
    by_cases hr : r = p
    · subst hr
      simp [tasks, pendingTasks, hpc, Pc.resting]
    · simp [hr]
  · rw [teams_congr fun c _ => (hids c.cthd).numThds]
    by_cases hr : r = p
    · subst hr
      simp [teams, openCalls, hpc]
    · simp [hr]
  · intro r J hJ
    by_cases hr : r = p
    · subst hr
      obtain rfl : J = ⟨id, tpp, passed⟩ := by simpa [hjob'] using hJ.symm
      simp only [Function.update_self, Posting, postFlag_flags, postFlag_sense, postFlag_barriers,
        postFlag_passed, if_true]
      exact ⟨trivial, hmore, .inl ⟨hsen, hpassed⟩⟩
    · simpa [hr] using h.posting_postFlag hid hr (by simpa [hr] using hJ)
  · intro r i d hi
    rw [pendingTasks_congr fun t _ => (hids t).toSameId] at hi
    have hi' : (i, d) ∈ pendingTasks s.threads (s.procs r) := by
      by_cases hr : r = p
      · subst hr
        simp [pendingTasks, Pc.resting] at hi
      · simpa [hr] using hi
    exact h.pending_postFlag hi' (h.pending_ne hjob' hi')
  · by_cases hr : r = p
    · subst hr
      simp [Collected]
    · simpa [hr] using h.collected_postFlag hid hsen r
  · intro m d k i _ _ _ hflag' hpassed'
    refine ⟨reverse_postFlag hsen hflag', ?_⟩
    rw [postFlag_passed, postFlag_barriers, hpassed']

theorem Teamed.step_leave (h : Teamed s) {sen0 : BitVec 32} (hpc : (s.procs p).pc = .leaving sen0)
    (hjob : (s.procs p).job = some J) :
    Teamed ((s.setThread J.tp { s.threads J.tp with
      barrierFlags := Function.update (s.threads J.tp).barrierFlags J.i sen0 }).setProc p
        { s.procs p with job := none, pc := .idle }) := by
  have hid := mem_tasks_of_job hjob
  obtain ⟨hflag, hpassed, hsen, hdone⟩ : (s.threads J.tp).barrierFlags J.i =
      (s.threads J.tp).barrierSense ∧ J.passed = (s.threads J.tp).passed ∧
        sen0 = reverse (s.threads J.tp).barrierSense ∧ J.passed = (s.threads J.tp).barriers := by
    simpa [Posting, hpc] using h.posting hjob
  have hids := postFlag_sameTeam (s := s) J.tp J.i sen0
  let s' : State := ⟨Function.update s.procs p { s.procs p with job := none, pc := .idle },
    postFlag s.threads J.tp J.i sen0, s.lastUsed⟩
  have hpending : ∀ r, pendingTasks s'.threads (s'.procs r) =
      pendingTasks s.threads (s.procs r) := by
    intro r
    rw [pendingTasks_congr fun t _ => (hids t).toSameId]
    by_cases hr : r = p
    · subst hr
      simp [s', pendingTasks, hpc, Pc.resting]
    · simp [s', hr]
  have htasks : ∀ r, tasks s'.threads (s'.procs r) = if r = p then
      pendingTasks s.threads (s.procs p) else tasks s.threads (s.procs r) := by
    intro r
    rw [tasks, hpending]
    split_ifs with hr
    · subst hr
      simp [s']
    · simp [s', hr, tasks]
  have hteams : ∀ r, teams s'.threads (s'.procs r) = teams s.threads (s.procs r) := by
    intro r
    rw [teams_congr fun c _ => (hids c.cthd).numThds]
    by_cases hr : r = p
    · subst hr
      simp [s', teams, openCalls, hpc]
    · simp [s', hr]
  have hmem : ∀ {r x}, x ∈ tasks s'.threads (s'.procs r) → x ∈ tasks s.threads (s.procs r) := by
    intro r x hx
    rw [htasks] at hx
    split_ifs at hx with hr
    · subst hr
      exact mem_tasks_of_pending hx
    · exact hx
  change Teamed s'
  constructor
  · exact h.owned.step (Step.leave hpc hjob : Step 0 s _)
  · refine h.apart.shrink p ?_ fun r hr => by rw [htasks, if_neg hr]
    rw [htasks, if_pos rfl, tasks]
    exact (List.sublist_append_right _ _).subperm
  · intro r i d hi
    obtain ⟨hpos, m, k, hk, hlt⟩ := h.team (hmem hi)
    exact ⟨hpos, m, k, (hteams m).symm ▸ hk, hlt⟩
  · intro r J' hJ'
    by_cases hr : r = p
    · subst hr
      simp [s'] at hJ'
    · simpa [s', hr] using h.posting_postFlag hid hr (by simpa [s', hr] using hJ')
  · intro r i d hi
    rw [hpending] at hi
    exact h.pending_postFlag hi (h.pending_ne hjob hi)
  · intro r
    by_cases hr : r = p
    · subst hr
      simp [s', Collected]
    · simpa [s', hr] using h.collected_postFlag hid hsen r
  · intro m d k i hk hi hlt
    rw [hteams] at hk
    by_cases heq : (i, d) = (J.i, J.tp)
    · -- the number that has just been given up
      obtain ⟨rfl, rfl⟩ := Prod.mk.inj heq
      right
      rw [postFlag_flags, if_pos rfl, postFlag_sense, postFlag_passed, postFlag_barriers]
      exact ⟨hsen, hpassed.symm.trans hdone⟩
    · obtain ⟨r, hr⟩ | ⟨hflag', hpassed'⟩ := h.served hk hi hlt
      · refine .inl ⟨r, ?_⟩
        rw [htasks]
        split_ifs with hrp
        · subst hrp
          obtain ⟨J', hJ', hx⟩ | hx := mem_tasks_iff.mp hr
          · obtain rfl : J' = J := Option.some.inj (hJ'.symm.trans hjob)
            exact absurd hx heq
          · exact hx
        · exact hr
      · refine .inr ⟨reverse_postFlag hsen hflag', ?_⟩
        rw [postFlag_passed, postFlag_barriers, hpassed']

/-! ## The master has seen all flags -/

/-- Slaves whose flags are all posted wait for the sense to change; no number is still to be
taken up. -/
theorem Teamed.all_posted (h : Teamed s) (hk : (d, k) ∈ teams s.threads (s.procs m))
    (hall : ∀ i, 0 < i → i < k →
      (s.threads d).barrierFlags i = reverse (s.threads d).barrierSense) :
    (∀ {r J}, (s.procs r).job = some J → J.tp = d →
      ∃ id tpp, (s.procs r).pc = .posted id tpp (reverse (s.threads d).barrierSense) ∧
        J.passed = (s.threads d).passed ∧ J.passed < (s.threads d).barriers) ∧
      ∀ {r i}, (i, d) ∉ pendingTasks s.threads (s.procs r) := by
  have hflag : ∀ {r i}, (i, d) ∈ tasks s.threads (s.procs r) →
      (s.threads d).barrierFlags i = reverse (s.threads d).barrierSense := by
    intro r i hi
    obtain ⟨hpos, m', k', hk', hlt⟩ := h.team hi
    obtain ⟨-, rfl⟩ := team_unique h.owned hk hk'
    exact hall i hpos hlt
  constructor
  · rintro r J hJ rfl
    have hrev := hflag (mem_tasks_of_job hJ)
    have hne : (s.threads J.tp).barrierFlags J.i ≠ (s.threads J.tp).barrierSense := fun heq =>
      reverse_ne _ (hrev.symm.trans heq)
    have hposting := h.posting hJ
    rw [Posting] at hposting
    cases hpc : (s.procs r).pc with
    | posted id tpp sen0 =>
      rw [hpc] at hposting
      obtain ⟨hf, hmore, ⟨rfl, hp⟩ | ⟨rfl, -⟩⟩ := hposting
      · exact ⟨id, tpp, rfl, hp, hmore⟩
      · exact absurd hf hne
    | _ =>
      rw [hpc] at hposting
      exact absurd hposting.1 hne
  · intro r i hi
    exact reverse_ne _ ((hflag (mem_tasks_of_pending hi)).symm.trans (h.pending hi).1)

theorem sameData_update_of_ne {d t : ℕ} (T : Thread) (h : t ≠ d) :
    SameData (s.threads t) (Function.update s.threads d T t) := by
  rw [Function.update_of_ne h]
  exact sameData_refl t

theorem Teamed.step_flip (h : Teamed s) {tpp j : ℕ} (hpc : (s.procs p).pc = .waiting tpp j)
    (hj : (s.threads tpp).numThds ≤ j) :
    Teamed ((s.setThread tpp { s.threads tpp with
      barrierSense := reverse (s.threads tpp).barrierSense
      passed := (s.threads tpp).passed + 1 }).setPc p .body) := by
  obtain ⟨t, c, cs, hthr, hcalls, rfl, hl⟩ := h.owned.shape hpc
  have hcalls' : (s.procs p).calls = c :: cs := hcalls
  have hcoll := h.collected p
  rw [Collected, hpc] at hcoll
  have hk : (c.cthd, (s.threads c.cthd).numThds) ∈ teams s.threads (s.procs p) := by
    simp [teams, openCalls, hpc, hcalls']
  obtain ⟨hposted, hnone⟩ := h.all_posted hk fun i hi hlt => hcoll.2 i hi (by omega)
  let T : Thread := { s.threads c.cthd with
    barrierSense := reverse (s.threads c.cthd).barrierSense
    passed := (s.threads c.cthd).passed + 1 }
  have hids : ∀ t, SameTeam (s.threads t) (Function.update s.threads c.cthd T t) :=
    sameTeam_update ⟨⟨rfl, rfl⟩, rfl⟩
  have howned : Owned ⟨Function.update s.procs p { s.procs p with pc := .body },
      Function.update s.threads c.cthd T, s.lastUsed⟩ :=
    h.owned.step (Step.flip hpc hj : Step 0 s _)
  change Teamed ⟨Function.update s.procs p { s.procs p with pc := .body },
    Function.update s.threads c.cthd T, s.lastUsed⟩
  refine h.keep howned (fun r => ?_) (fun r => ?_) ?_ ?_ (fun r => ?_) ?_
  · rw [tasks_congr fun t _ => (hids t).toSameId]
    by_cases hr : r = p
    · subst hr
      simp [tasks, pendingTasks, hpc, Pc.resting]
    · simp [hr]
  · rw [teams_congr fun c _ => (hids c.cthd).numThds]
    by_cases hr : r = p
    · subst hr
      simp [teams, openCalls, hpc]
    · simp [hr]
  · intro r J hJ
    by_cases hr : r = p
    · subst hr
      have hJ' : (s.procs r).job = some J := by simpa using hJ
      have hne : J.tp ≠ c.cthd := by
        intro heq
        obtain ⟨id, tpp, hp, -⟩ := hposted hJ' heq
        cases hpc.symm.trans hp
      have hpost := (h.posting hJ').same (sameData_update_of_ne T hne)
      simpa [Posting, hpc] using hpost
    · have hJ' : (s.procs r).job = some J := by simpa [hr] using hJ
      by_cases heq : J.tp = c.cthd
      · -- the slave waits for the sense that the master sets here
        obtain ⟨id, tpp, hp, hpassed, hmore⟩ := hposted hJ' heq
        have hpost := h.posting hJ'
        simp only [Posting, hp, heq] at hpost
        simp only [Function.update_of_ne hr, Posting, hp, heq, Function.update_self, T]
        exact ⟨hpost.1, hmore, .inr ⟨trivial, by rw [hpassed]⟩⟩
      · simpa [hr] using (h.posting hJ').same (sameData_update_of_ne T heq)
  · intro r i d hi
    rw [pendingTasks_congr fun t _ => (hids t).toSameId] at hi
    have hi' : (i, d) ∈ pendingTasks s.threads (s.procs r) := by
      by_cases hr : r = p
      · subst hr
        simp [pendingTasks, Pc.resting] at hi
      · simpa [hr] using hi
    have hne : d ≠ c.cthd := by
      rintro rfl
      exact hnone hi'
    simpa [Function.update_of_ne hne] using h.pending hi'
  · by_cases hr : r = p
    · subst hr
      simp [Collected]
    · have hteam : ∀ d k, (d, k) ∈ teams s.threads (s.procs r) →
          SameData (s.threads d) (Function.update s.threads c.cthd T d) := by
        intro d k hd
        refine sameData_update_of_ne T ?_
        rintro rfl
        exact hr (team_unique h.owned hd hk).1
      simpa [hr] using (h.collected r).congr (h.owned.shaped r) hteam
  · intro m d k i _ _ _ hflag hpassed
    have hne : d ≠ c.cthd := by
      rintro rfl
      exact absurd hpassed (Nat.ne_of_lt hcoll.1)
    simpa [Function.update_of_ne hne] using ⟨hflag, hpassed⟩

/-- The master goes on after the region only when no process works for it. -/
theorem Teamed.no_tasks (h : Teamed s) {j : ℕ} {c : Call} {cs : List Call}
    (hpc : (s.procs p).pc = .joining j) (hcalls : (s.procs p).calls = c :: cs)
    (hj : (s.threads c.cthd).numThds ≤ j) (r i : ℕ) :
    (i, c.cthd) ∉ tasks s.threads (s.procs r) := by
  have hcoll := h.collected p
  rw [Collected, hpc] at hcoll
  obtain ⟨hdone, hflags⟩ := hcoll c cs hcalls
  have hk : (c.cthd, (s.threads c.cthd).numThds) ∈ teams s.threads (s.procs p) := by
    simp [teams, openCalls, hpc, hcalls]
  obtain ⟨hposted, hnone⟩ := h.all_posted hk fun i hi hlt => hflags i hi (by omega)
  intro hi
  obtain ⟨J, hJ, heq⟩ | hi := mem_tasks_iff.mp hi
  · obtain ⟨-, htp⟩ := Prod.mk.inj heq
    obtain ⟨-, -, -, hp, hmore⟩ := hposted hJ htp.symm
    omega
  · exact hnone hi

theorem Teamed.step_joined (h : Teamed s) {j : ℕ} {c : Call} {cs : List Call}
    (hpc : (s.procs p).pc = .joining j) (hcalls : (s.procs p).calls = c :: cs)
    (hj : (s.threads c.cthd).numThds ≤ j) :
    Teamed ((s.setThread c.cthd { s.threads c.cthd with
      barrierSense := reverse (s.threads c.cthd).barrierSense }).setPc p .joined) := by
  have hnone := h.no_tasks hpc hcalls hj
  have hk : (c.cthd, (s.threads c.cthd).numThds) ∈ teams s.threads (s.procs p) := by
    simp [teams, openCalls, hpc, hcalls]
  let T : Thread := { s.threads c.cthd with
    barrierSense := reverse (s.threads c.cthd).barrierSense }
  have hids : ∀ t, SameTeam (s.threads t) (Function.update s.threads c.cthd T t) :=
    sameTeam_update ⟨⟨rfl, rfl⟩, rfl⟩
  let s' : State := ⟨Function.update s.procs p { s.procs p with pc := .joined },
    Function.update s.threads c.cthd T, s.lastUsed⟩
  have hpending : ∀ r, pendingTasks s'.threads (s'.procs r) =
      pendingTasks s.threads (s.procs r) := by
    intro r
    rw [pendingTasks_congr fun t _ => (hids t).toSameId]
    by_cases hr : r = p
    · subst hr
      simp [s', pendingTasks, hpc, Pc.resting]
    · simp [s', hr]
  have htasks : ∀ r, tasks s'.threads (s'.procs r) = tasks s.threads (s.procs r) := by
    intro r
    rw [tasks, tasks, hpending]
    by_cases hr : r = p
    · subst hr
      simp [s']
    · simp [s', hr]
  have hteams : ∀ r, teams s'.threads (s'.procs r) = if r = p then
      cs.map fun c => (c.cthd, (s.threads c.cthd).numThds) else teams s.threads (s.procs r) := by
    intro r
    rw [teams_congr fun c _ => (hids c.cthd).numThds]
    split_ifs with hr
    · subst hr
      simp [s', teams, openCalls, hcalls]
    · simp [s', hr]
  have hsub : ∀ {r x}, x ∈ teams s'.threads (s'.procs r) → x ∈ teams s.threads (s.procs r) := by
    intro r x hx
    rw [hteams] at hx
    split_ifs at hx with hr
    · subst hr
      simp only [teams, openCalls, hpc, hcalls, List.nil_append, List.map_cons]
      exact List.mem_cons_of_mem _ hx
    · exact hx
  have hmem : ∀ {r d k}, d ≠ c.cthd → (d, k) ∈ teams s.threads (s.procs r) →
      (d, k) ∈ teams s'.threads (s'.procs r) := by
    intro r d k hd hx
    rw [hteams]
    split_ifs with hr
    · subst hr
      simp only [teams, openCalls, hpc, hcalls, List.nil_append, List.map_cons] at hx
      obtain heq | hx := List.mem_cons.mp hx
      · exact absurd (congrArg Prod.fst heq) hd
      · exact hx
    · exact hx
  have hdata : ∀ {d}, d ≠ c.cthd → SameData (s.threads d) (s'.threads d) := fun hd =>
    sameData_update_of_ne T hd
  change Teamed s'
  constructor
  · exact h.owned.step (Step.joined hpc hcalls hj : Step 0 s _)
  · exact h.apart.congr htasks
  · intro r i d hi
    rw [htasks] at hi
    obtain ⟨hpos, m, k, hk', hlt⟩ := h.team hi
    refine ⟨hpos, m, k, hmem ?_ hk', hlt⟩
    rintro rfl
    exact hnone r i hi
  · intro r J hJ
    have hJ' : (s.procs r).job = some J := by
      by_cases hr : r = p
      · subst hr
        simpa [s'] using hJ
      · simpa [s', hr] using hJ
    have hne : J.tp ≠ c.cthd := fun heq => hnone r J.i (heq ▸ mem_tasks_of_job hJ')
    have hpost := (h.posting hJ').same (hdata hne)
    by_cases hr : r = p
    · subst hr
      simpa [s', Posting, hpc] using hpost
    · simpa [s', hr] using hpost
  · intro r i d hi
    rw [hpending] at hi
    have hne : d ≠ c.cthd := by
      rintro rfl
      exact hnone r i (mem_tasks_of_pending hi)
    rw [(hdata hne).flags, (hdata hne).sense, (hdata hne).passed]
    exact h.pending hi
  · intro r
    by_cases hr : r = p
    · subst hr
      simp [s', Collected]
    · have hteam : ∀ d k, (d, k) ∈ teams s.threads (s.procs r) →
          SameData (s.threads d) (s'.threads d) := by
        intro d k hd
        refine hdata ?_
        rintro rfl
        exact hr (team_unique h.owned hd hk).1
      simpa [s', hr] using (h.collected r).congr (h.owned.shaped r) hteam
  · intro m d k i hk' hi hlt
    have hk'' := hsub hk'
    have hne : d ≠ c.cthd := by
      rintro rfl
      obtain ⟨rfl, -⟩ := team_unique h.owned hk'' hk
      rw [hteams, if_pos rfl] at hk'
      obtain ⟨c', hc', heq⟩ := List.mem_map.mp hk'
      have hnodup := nodup_openCalls h.owned m
      simp only [openCalls, hpc, hcalls, List.map_cons, List.nodup_cons] at hnodup
      exact hnodup.1 (List.mem_map.mpr ⟨c', hc', congrArg Prod.fst heq⟩)
    rw [(hdata hne).flags, (hdata hne).sense, (hdata hne).passed, (hdata hne).barriers]
    obtain ⟨r, hr⟩ | hposted := h.served hk'' hi hlt
    · exact .inl ⟨r, (htasks r).symm ▸ hr⟩
    · exact .inr hposted

end OmniCompiler.Omp.ForkJoin
