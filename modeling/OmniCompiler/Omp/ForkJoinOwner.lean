import OmniCompiler.Omp.ForkJoin

/-!
# Who has what

A process, or a thread record, belongs to one only: to whom it is free, to whom it runs for, or to
the region that is about to use it.
-/
namespace OmniCompiler.Omp.ForkJoin

open Barrier (reverse)
open Holding

/-- The process waits for a job, or has only its flag to post for the last one. -/
def Pc.resting : Pc → Bool
  | .idle | .freed | .leaving _ => true
  | _ => false

structure Resting (P : Proc) : Prop where
  pc : P.pc.resting = true
  thr : P.thr = none

/-- The processes that have been found for a region and have no job yet. -/
def Pc.proclist : Pc → List ℕ
  | .getting _ _ _ l | .starting _ _ l | .assigning _ _ _ l => l
  | _ => []

/-- The open regions are those of the records from `top` on down to the one of the job. -/
def Linked (threads : ℕ → Thread) (job : Option Job) : ℕ → List Call → Prop
  | top, [] =>
    match job with
    | none => (threads top).parent = none
    | some J => (threads top).parent = some J.tp ∧ (threads top).num = J.i ∧ 0 < J.i
  | top, c :: cs => c.tp = top ∧ (threads top).parent = some c.cthd ∧ (threads top).num = 0 ∧
      Linked threads job c.cthd cs

def Assigned (threads : ℕ → Thread) (P : Proc) : Prop :=
  ∀ t, P.thr = some t → (∃ d, (threads t).parent = some d) ∧ 0 < (threads t).num

def Shaped (threads : ℕ → Thread) (P : Proc) : Prop :=
  match P.pc with
  | .idle => P.calls = [] ∧ P.job = none ∧ Assigned threads P
  | .freed | .leaving _ => P.calls = [] ∧ P.job.isSome ∧ Assigned threads P
  | .cleaned => P.calls = [] ∧ P.job.isSome ∧ P.thr = none
  | .body => ∃ t, P.thr = some t ∧ Linked threads P.job t P.calls
  | .entered id tpp _ | .posted id tpp _ => P.calls = [] ∧
      ∃ t passed, P.thr = some t ∧ P.job = some ⟨id, tpp, passed⟩ ∧
        Linked threads P.job t P.calls
  | .getting cthd _ n l | .starting cthd n l => P.thr = some cthd ∧
      Linked threads P.job cthd P.calls ∧ l.length + 1 = n
  | .assigning cthd i n l => P.thr = some cthd ∧ Linked threads P.job cthd P.calls ∧
      0 < i ∧ i + l.length = n ∧ (threads cthd).numThds = n
  | .waiting tpp _ => ∃ t c cs, P.thr = some t ∧ P.calls = c :: cs ∧ c.cthd = tpp ∧
      Linked threads P.job t P.calls
  | .joining _ | .joined => ∃ c cs, P.calls = c :: cs ∧ Linked threads P.job c.cthd cs

structure SameId (T T' : Thread) : Prop where
  parent : T'.parent = T.parent
  num : T'.num = T.num

structure SameTeam (T T' : Thread) : Prop extends SameId T T' where
  numThds : T'.numThds = T.numThds

theorem Linked.congr {threads threads' : ℕ → Thread} {job : Option Job} {top : ℕ}
    {calls : List Call} (h : Linked threads job top calls)
    (heq : ∀ t ∈ top :: calls.map Call.cthd, SameId (threads t) (threads' t)) :
    Linked threads' job top calls := by
  induction calls generalizing top with
  | nil =>
    have htop := heq top List.mem_cons_self
    cases job with
    | none => exact htop.parent.trans h
    | some J => exact ⟨htop.parent.trans h.1, htop.num.trans h.2.1, h.2.2⟩
  | cons c cs ih =>
    have htop := heq top List.mem_cons_self
    obtain ⟨htp, hparent, hnum, hrest⟩ := h
    exact ⟨htp, htop.parent.trans hparent, htop.num.trans hnum,
      ih hrest fun t ht => heq t (List.mem_cons_of_mem _ ht)⟩

/-- What a process keeps stays right when the records that it uses stay for the same teams. -/
theorem Shaped.congr {threads threads' : ℕ → Thread} {P : Proc} (h : Shaped threads P)
    (heq : ∀ t ∈ activeBy P, SameTeam (threads t) (threads' t)) : Shaped threads' P := by
  obtain ⟨isUsed, thr, freeThr, pc, calls, job⟩ := P
  have hcalls : ∀ t ∈ calls.map Call.cthd, SameTeam (threads t) (threads' t) := fun t ht =>
    heq t (List.mem_append_right _ ht)
  have hassigned : ∀ {t}, thr = some t → activeBy ⟨isUsed, thr, freeThr, pc, calls, job⟩ =
        thr.toList ++ calls.map Call.cthd →
      SameTeam (threads t) (threads' t) := by
    intro t ht hheld
    exact heq t (hheld ▸ by simp [ht])
  have hlinked : ∀ {t cs}, thr = some t → calls = cs →
      activeBy ⟨isUsed, thr, freeThr, pc, calls, job⟩ = thr.toList ++ calls.map Call.cthd →
      Linked threads job t cs → Linked threads' job t cs := by
    rintro t cs ht rfl hheld hl
    refine hl.congr fun t' ht' => ?_
    obtain rfl | ht' := List.mem_cons.mp ht'
    · exact (hassigned ht hheld).toSameId
    · exact (hcalls t' ht').toSameId
  cases pc with
  | idle =>
    refine ⟨h.1, h.2.1, fun t ht => ?_⟩
    have hsame := hassigned ht rfl
    obtain ⟨hparent, hnum⟩ := h.2.2 t ht
    exact ⟨hsame.parent ▸ hparent, hsame.num ▸ hnum⟩
  | freed =>
    refine ⟨h.1, h.2.1, fun t ht => ?_⟩
    have hsame := hassigned ht rfl
    obtain ⟨hparent, hnum⟩ := h.2.2 t ht
    exact ⟨hsame.parent ▸ hparent, hsame.num ▸ hnum⟩
  | leaving sen0 =>
    refine ⟨h.1, h.2.1, fun t ht => ?_⟩
    have hsame := hassigned ht rfl
    obtain ⟨hparent, hnum⟩ := h.2.2 t ht
    exact ⟨hsame.parent ▸ hparent, hsame.num ▸ hnum⟩
  | cleaned => exact h
  | body =>
    obtain ⟨t, ht, hl⟩ := h
    exact ⟨t, ht, hlinked ht rfl rfl hl⟩
  | entered id tpp sen0 =>
    obtain ⟨hnil, t, passed, ht, hjob, hl⟩ := h
    exact ⟨hnil, t, passed, ht, hjob, hlinked ht rfl rfl hl⟩
  | posted id tpp sen0 =>
    obtain ⟨hnil, t, passed, ht, hjob, hl⟩ := h
    exact ⟨hnil, t, passed, ht, hjob, hlinked ht rfl rfl hl⟩
  | getting cthd max n l => exact ⟨h.1, hlinked h.1 rfl rfl h.2.1, h.2.2⟩
  | starting cthd n l => exact ⟨h.1, hlinked h.1 rfl rfl h.2.1, h.2.2⟩
  | assigning cthd i n l =>
    obtain ⟨ht, hl, hi, hlen, hn⟩ := h
    exact ⟨ht, hlinked ht rfl rfl hl, hi, hlen, (hassigned ht rfl).numThds.trans hn⟩
  | waiting tpp j =>
    obtain ⟨t, c, cs, ht, hcs, hc, hl⟩ := h
    exact ⟨t, c, cs, ht, hcs, hc, hlinked ht rfl rfl hl⟩
  | joining j =>
    obtain ⟨c, cs, rfl, hl⟩ := h
    exact ⟨c, cs, rfl, hl.congr fun t ht => (hcalls t ht).toSameId⟩
  | joined =>
    obtain ⟨c, cs, rfl, hl⟩ := h
    exact ⟨c, cs, rfl, hl.congr fun t ht => (hcalls t ht).toSameId⟩

/-- Each record and each process that has been found is with one only, and a process that is free
or has been found has no job. -/
structure Owned (s : State) : Prop where
  shaped : ∀ p, Shaped s.threads (s.procs p)
  held : Apart s.held
  lists : Apart fun p => (s.procs p).pc.proclist
  listed : ∀ {p q}, q ∈ (s.procs p).pc.proclist → (s.procs q).isUsed = true ∧ Resting (s.procs q)
  unused : ∀ {q}, (s.procs q).isUsed = false → Resting (s.procs q)

variable {s s' : State} {maxThreads p q : ℕ} {P : Proc} {threads' : ℕ → Thread}

theorem Owned.busy (h : Owned s) (hp : (s.procs p).pc.resting = false) :
    (s.procs p).isUsed = true ∧ ∀ r, p ∉ (s.procs r).pc.proclist := by
  constructor
  · by_contra hu
    have := (h.unused (by simpa using hu)).pc
    simp [hp] at this
  · intro r hr
    have := (h.listed hr).2.pc
    simp [hp] at this

theorem Owned.update (h : Owned s) (hshape : Shaped threads' P)
    (hids : ∀ q, q ≠ p → ∀ t ∈ activeBy (s.procs q), SameTeam (s.threads t) (threads' t))
    (hheld : (heldBy P).Subperm (s.held p) ∨
      ∃ t, (∀ r, t ∉ s.held r) ∧ (heldBy P).Perm (t :: s.held p))
    (hlist : P.pc.proclist.Subperm (s.procs p).pc.proclist ∨
      ∃ q, q ≠ p ∧ (∀ r, q ∉ (s.procs r).pc.proclist) ∧ (s.procs q).isUsed = true ∧
        Resting (s.procs q) ∧ P.pc.proclist = q :: (s.procs p).pc.proclist)
    (hused : P.isUsed = false → Resting P)
    (hrest : ∀ r, p ∈ (s.procs r).pc.proclist → P.isUsed = true ∧ Resting P) (last : ℕ) :
    Owned ⟨Function.update s.procs p P, threads', last⟩ where
  shaped q := by
    by_cases hq : q = p
    · subst hq
      simpa using hshape
    · have hprocs : Function.update s.procs p P q = s.procs q := Function.update_of_ne hq _ _
      change Shaped threads' (Function.update s.procs p P q)
      rw [hprocs]
      exact (h.shaped q).congr (hids q hq)
  held := by
    have hne : ∀ q, q ≠ p → heldBy (Function.update s.procs p P q) = s.held q := fun q hq => by
      rw [Function.update_of_ne hq]
      rfl
    obtain hsub | ⟨t, ht, hperm⟩ := hheld
    · exact h.held.shrink p (by simpa [State.held] using hsub) hne
    · exact h.held.add p ht (by simpa [State.held] using hperm) hne
  lists := by
    obtain hsub | ⟨q, -, hnew, -, -, heq⟩ := hlist
    · exact h.lists.shrink p (by simpa using hsub) fun r hr => by simp [hr]
    · exact h.lists.add p hnew (by simp [heq]) fun r hr => by simp [hr]
  listed := by
    intro r q hq
    have hq' : q ∈ (s.procs r).pc.proclist ∨
        q ≠ p ∧ (s.procs q).isUsed = true ∧ Resting (s.procs q) := by
      by_cases hr : r = p
      · subst hr
        have hqP : q ∈ P.pc.proclist := by simpa using hq
        obtain hsub | ⟨q', hne, -, hused', hrest', heq⟩ := hlist
        · exact .inl (hsub.subset hqP)
        · rw [heq] at hqP
          obtain rfl | hqP := List.mem_cons.mp hqP
          · exact .inr ⟨hne, hused', hrest'⟩
          · exact .inl hqP
      · exact .inl (by simpa [hr] using hq)
    by_cases hqp : q = p
    · subst hqp
      obtain hq' | hq' := hq'
      · simpa using hrest r hq'
      · exact absurd rfl hq'.1
    · obtain hq' | hq' := hq'
      · simpa [hqp] using h.listed hq'
      · simpa [hqp] using hq'.2
  unused := by
    intro q hq
    by_cases hqp : q = p
    · subst hqp
      simpa using hused (by simpa using hq)
    · simpa [hqp] using h.unused (by simpa [hqp] using hq)

theorem Owned.update_busy (h : Owned s) (hp : (s.procs p).pc.resting = false)
    (hshape : Shaped threads' P)
    (hids : ∀ q, q ≠ p → ∀ t ∈ activeBy (s.procs q), SameTeam (s.threads t) (threads' t))
    (hheld : (heldBy P).Subperm (s.held p) ∨
      ∃ t, (∀ r, t ∉ s.held r) ∧ (heldBy P).Perm (t :: s.held p))
    (hlist : P.pc.proclist.Subperm (s.procs p).pc.proclist ∨
      ∃ q, q ≠ p ∧ (∀ r, q ∉ (s.procs r).pc.proclist) ∧ (s.procs q).isUsed = true ∧
        Resting (s.procs q) ∧ P.pc.proclist = q :: (s.procs p).pc.proclist)
    (hused : P.isUsed = (s.procs p).isUsed) (last : ℕ) :
    Owned ⟨Function.update s.procs p P, threads', last⟩ := by
  obtain ⟨hbusy, hnone⟩ := h.busy hp
  refine h.update hshape hids hheld hlist (fun hu => ?_) (fun r hr => absurd hr (hnone r)) last
  simp [hused, hbusy] at hu

theorem State.Alloc.held {t : ℕ} {rest : List ℕ} (ht : s.Alloc q t rest)
    (hperm : (heldBy P).Perm (rest ++ t :: activeBy (s.procs q))) :
    (heldBy P).Subperm (s.held q) ∨
      ∃ t, (∀ r, t ∉ s.held r) ∧ (heldBy P).Perm (t :: s.held q) := by
  cases ht with
  | reuse hfree =>
    refine .inl (hperm.trans ?_).subperm
    rw [State.held, heldBy, hfree]
    exact List.perm_middle
  | malloc hfree hrest hnew =>
    refine .inr ⟨t, hnew, ?_⟩
    have hheld : s.held q = activeBy (s.procs q) := by
      rw [State.held, heldBy, hfree, List.nil_append]
    simpa [hheld, hrest] using hperm

theorem State.Alloc.congr {t : ℕ} {rest : List ℕ} (ht : s.Alloc q t rest)
    (hfree : (s'.procs q).freeThr = (s.procs q).freeThr) (hheld : ∀ r, s'.held r = s.held r) :
    s'.Alloc q t rest := by
  cases ht with
  | reuse h => exact .reuse (hfree.trans h)
  | malloc h hrest hnew => exact .malloc (hfree.trans h) hrest fun r => hheld r ▸ hnew r

theorem Owned.alloc_unused (h : Owned s) {t : ℕ} {rest : List ℕ} (ht : s.Alloc q t rest) {r : ℕ} :
    t ∉ activeBy (s.procs r) := by
  intro hr
  cases ht with
  | reuse hfree =>
    have hq : t ∈ s.held q := by simp [State.held, heldBy, hfree]
    obtain rfl := h.held.holder (List.mem_append_right _ hr) hq
    have hnodup := h.held.nodup r
    rw [State.held, heldBy, hfree, List.cons_append, List.nodup_cons] at hnodup
    exact hnodup.1 (List.mem_append_right _ hr)
  | malloc _ _ hnew => exact hnew r (List.mem_append_right _ hr)

theorem getProc_some {isUsed : ℕ → Bool} {last hint last' : ℕ}
    (h : getProc maxThreads isUsed last hint = (some q, last')) : isUsed q = false := by
  have hsearch : ∀ k last, searchProc maxThreads isUsed k last = (some q, last') →
      isUsed q = false := by
    intro k
    induction k with
    | zero => simp [searchProc]
    | succ k ih =>
      intro last hs
      simp only [searchProc] at hs
      generalize (if maxThreads ≤ last + 1 then 0 else last + 1) = next at hs
      by_cases hu : isUsed next = true
      · rw [if_pos hu] at hs
        exact ih _ hs
      · rw [if_neg hu] at hs
        obtain ⟨rfl, -⟩ : next = q ∧ next = last' := by simpa using hs
        simpa using hu
  rw [getProc] at h
  split_ifs at h with hu
  · exact hsearch _ _ h
  · obtain ⟨rfl, -⟩ : hint = q ∧ last = last' := by simpa using h
    simpa using hu

/-- A step in which a process goes on with the records and the processes that it has. -/
theorem Owned.go (h : Owned s) {pc : Pc} (hp : (s.procs p).pc.resting = false)
    (hshape : Shaped threads' { s.procs p with pc := pc })
    (hids : ∀ t, SameTeam (s.threads t) (threads' t))
    (hheld : activeBy { s.procs p with pc := pc } = activeBy (s.procs p))
    (hlist : pc.proclist.Subperm (s.procs p).pc.proclist) (last : ℕ) :
    Owned ⟨Function.update s.procs p { s.procs p with pc := pc }, threads', last⟩ := by
  refine h.update_busy hp hshape (fun _ _ t _ => hids t) (.inl ?_) (.inl hlist) rfl last
  rw [State.held, heldBy, heldBy, hheld]

theorem sameTeam_refl (t : ℕ) : SameTeam (s.threads t) (s.threads t) := ⟨⟨rfl, rfl⟩, rfl⟩

theorem sameTeam_update {d : ℕ} {T : Thread} (h : SameTeam (s.threads d) T) (t : ℕ) :
    SameTeam (s.threads t) (Function.update s.threads d T t) := by
  by_cases ht : t = d
  · subst ht
    simpa using h
  · rw [Function.update_of_ne ht]
    exact sameTeam_refl t

theorem sameTeam_update_of_ne {d t : ℕ} (T : Thread) (h : t ≠ d) :
    SameTeam (s.threads t) (Function.update s.threads d T t) := by
  rw [Function.update_of_ne h]
  exact sameTeam_refl t

theorem Shaped.assign {threads : ℕ → Thread} (h : Shaped threads P) (hp : P.pc.resting = true)
    {t d : ℕ} (hd : (threads' t).parent = some d) (hnum : 0 < (threads' t).num) (rest : List ℕ) :
    Shaped threads' { P with freeThr := rest, thr := some t } := by
  obtain ⟨isUsed, thr, freeThr, pc, calls, job⟩ := P
  have hassigned : Assigned threads' ⟨isUsed, some t, rest, pc, calls, job⟩ := by
    rintro _ ⟨⟩
    exact ⟨⟨d, hd⟩, hnum⟩
  cases pc <;> first | exact ⟨h.1, h.2.1, hassigned⟩ | cases hp

theorem Owned.rest (h : Owned s) (hp : (s.procs p).pc.resting = true)
    (hP : P.pc.resting = true) (hsame : P.isUsed = (s.procs p).isUsed ∧ P.thr = (s.procs p).thr)
    (hheld : heldBy P = s.held p) (hshape : Shaped threads' P)
    (hids : ∀ t, SameTeam (s.threads t) (threads' t)) (last : ℕ) :
    Owned ⟨Function.update s.procs p P, threads', last⟩ := by
  have hnil : ∀ pc : Pc, pc.resting = true → pc.proclist = [] := by
    intro pc hpc
    cases pc <;> first | rfl | cases hpc
  refine h.update hshape (fun _ _ t _ => hids t) (.inl ?_) (.inl ?_) (fun hu => ?_)
    (fun r hr => ?_) last
  · rw [hheld]
  · rw [hnil _ hP, hnil _ hp]
  · exact ⟨hP, hsame.2.trans (h.unused (hsame.1.symm.trans hu)).thr⟩
  · obtain ⟨hu, hr⟩ := h.listed hr
    exact ⟨hsame.1.trans hu, hP, hsame.2.trans hr.thr⟩

theorem Owned.shape (h : Owned s) {pc : Pc} (hpc : (s.procs p).pc = pc) :
    Shaped s.threads { s.procs p with pc := pc } := by
  subst hpc
  exact h.shaped p

theorem Owned.step_get (h : Owned s) {cthd max n last : ℕ} {l : List ℕ}
    (hpc : (s.procs p).pc = .getting cthd max n l)
    (hget : getProc maxThreads (fun r => (s.procs r).isUsed) s.lastUsed n = (some q, last)) :
    Owned { (s.setProc q { s.procs q with isUsed := true }).setPc p
      (.getting cthd max (n + 1) (q :: l)) with lastUsed := last } := by
  have hunused : (s.procs q).isUsed = false := getProc_some hget
  have hrest := h.unused hunused
  have hnew : ∀ r, q ∉ (s.procs r).pc.proclist := fun r hr => by
    simp [(h.listed hr).1] at hunused
  have hqp : p ≠ q := by
    rintro rfl
    simpa [hpc, Pc.resting] using hrest.pc
  have h1 :
    Owned ⟨Function.update s.procs q { s.procs q with isUsed := true }, s.threads, last⟩ := by
    refine h.update (P := { s.procs q with isUsed := true }) (h.shaped q)
      (fun _ _ t _ => sameTeam_refl t) (.inl (List.Subperm.refl _)) (.inl (List.Subperm.refl _))
      (fun hu => ?_) (fun r hr => absurd hr (hnew r)) last
    cases hu
  have hp : Function.update s.procs q { s.procs q with isUsed := true } p = s.procs p :=
    Function.update_of_ne hqp _ _
  have hlists : ∀ r, (Function.update s.procs q { s.procs q with isUsed := true } r).pc =
      (s.procs r).pc := fun r => by
    by_cases hr : r = q
    · subst hr
      simp
    · simp [hr]
  obtain ⟨hthr, hl, hlen⟩ := h.shape hpc
  have hshape : Shaped s.threads
      { s.procs p with pc := .getting cthd max (n + 1) (q :: l) } :=
    ⟨hthr, hl, by simp [← hlen]⟩
  have hstate : { (s.setProc q { s.procs q with isUsed := true }).setPc p
      (.getting cthd max (n + 1) (q :: l)) with lastUsed := last } =
      (⟨Function.update (Function.update s.procs q { s.procs q with isUsed := true }) p
        { s.procs p with pc := .getting cthd max (n + 1) (q :: l) }, s.threads, last⟩ : State) := by
    simp only [State.setPc, State.setProc, hp]
  rw [hstate]
  refine h1.update_busy (by simp [hp, hpc, Pc.resting]) hshape (fun _ _ t _ => sameTeam_refl t)
    (.inl ?_) (.inr ⟨q, hqp.symm, fun r => ?_, ?_, ?_, ?_⟩) (by simp [hp]) last
  · refine (List.Perm.of_eq ?_).subperm
    simp [State.held, heldBy, activeBy, hp, hpc]
  · exact (congrArg Pc.proclist (hlists r)) ▸ hnew r
  · simp
  · exact ⟨by simpa using hrest.pc, by simpa using hrest.thr⟩
  · simp [hp, hpc, Pc.proclist]

theorem Owned.step_assign (h : Owned s) {cthd i n t : ℕ} {l rest : List ℕ}
    (hpc : (s.procs p).pc = .assigning cthd i n (q :: l)) (ht : s.Alloc q t rest) :
    Owned (((s.setThread t { s.threads t with parent := some cthd, num := i }).setProc q
      { s.procs q with freeThr := rest, thr := some t }).setPc p
        (.assigning cthd (i + 1) n l)) := by
  obtain ⟨hthr, hl, hi, hlen, hn⟩ := h.shape hpc
  have hmem : q ∈ (s.procs p).pc.proclist := by simp [hpc, Pc.proclist]
  obtain ⟨hused, hrest⟩ := h.listed hmem
  have hqp : q ≠ p := by
    rintro rfl
    simpa [hpc, Pc.resting] using hrest.pc
  -- first the process leaves the list, then it gets its record
  have h1 : Owned ⟨Function.update s.procs p { s.procs p with pc := .assigning cthd (i + 1) n l },
      s.threads, s.lastUsed⟩ := by
    have hshape : Shaped s.threads { s.procs p with pc := .assigning cthd (i + 1) n l } := by
      refine ⟨hthr, hl, Nat.succ_pos i, ?_, hn⟩
      rw [← hlen, List.length_cons]
      omega
    refine h.go (by simp [hpc, Pc.resting]) hshape sameTeam_refl ?_ ?_ _
    · simp [activeBy, hpc]
    · simpa [hpc, Pc.proclist] using List.Subperm.cons_self
  have hnew : ∀ r, q ∉ (Function.update s.procs p
      { s.procs p with pc := .assigning cthd (i + 1) n l } r).pc.proclist := by
    intro r hr
    by_cases hrp : r = p
    · subst hrp
      have hnodup := h.lists.nodup r
      rw [hpc] at hnodup
      exact (List.nodup_cons.mp hnodup).1 (by simpa [Pc.proclist] using hr)
    · exact hrp (h.lists.holder (by simpa [hrp] using hr) hmem)
  have hq : Function.update s.procs p { s.procs p with pc := .assigning cthd (i + 1) n l } q =
      s.procs q := Function.update_of_ne hqp _ _
  have hunused : ∀ {r}, t ∉ activeBy (s.procs r) := h.alloc_unused ht
  have hcomm : ((s.setThread t { s.threads t with parent := some cthd, num := i }).setProc q
      { s.procs q with freeThr := rest, thr := some t }).setPc p (.assigning cthd (i + 1) n l) =
      ⟨Function.update (Function.update s.procs p
        { s.procs p with pc := .assigning cthd (i + 1) n l }) q
          { s.procs q with freeThr := rest, thr := some t },
        Function.update s.threads t { s.threads t with parent := some cthd, num := i },
        s.lastUsed⟩ := by
    simp only [State.setPc, State.setProc, State.setThread]
    rw [Function.update_of_ne hqp.symm, Function.update_comm hqp]
  rw [hcomm]
  refine h1.update ?_ ?_ ?_ (.inl ?_) (fun hu => ?_) (fun r hr => absurd hr (hnew r)) _
  · exact (h.shaped q).assign (d := cthd) hrest.pc (by simp) (by simpa using hi) rest
  · intro r hr t' ht'
    refine sameTeam_update_of_ne _ ?_
    rintro rfl
    by_cases hrp : r = p
    · subst hrp
      exact hunused (r := r) (by simpa [activeBy, hpc] using ht')
    · exact hunused (r := r) (by simpa [hrp] using ht')
  · refine State.Alloc.held (q := q) (t := t) (ht.congr (by simp [hq]) fun r => ?_) ?_
    · by_cases hrp : r = p
      · subst hrp
        simp [State.held, heldBy, activeBy, hpc]
      · simp [State.held, hrp]
    · have hpcq := hrest.pc
      have hthrq := hrest.thr
      cases hpc' : (s.procs q).pc <;> simp_all [heldBy, activeBy, Pc.resting]
  · refine (List.Perm.of_eq ?_).subperm
    simp [hq]
  · simp [hused] at hu

theorem Owned.step_start (h : Owned s) {cthd n : ℕ} {l : List ℕ} (barriers : ℕ)
    (flags : ℕ → BitVec 32) (hpc : (s.procs p).pc = .starting cthd n l) :
    Owned ((s.setThread cthd { s.threads cthd with
      numThds := n, barrierFlags := flags, barriers := barriers, passed := 0 }).setPc p
        (.assigning cthd 1 n l)) := by
  obtain ⟨hthr, hl, hlen⟩ := h.shape hpc
  have hshape : Shaped (Function.update s.threads cthd { s.threads cthd with
      numThds := n, barrierFlags := flags, barriers := barriers, passed := 0 })
      { s.procs p with pc := .assigning cthd 1 n l } := by
    refine ⟨hthr, hl.congr fun t _ => ?_, Nat.one_pos, by omega, by simp⟩
    by_cases ht : t = cthd
    · subst ht
      simpa using ⟨rfl, rfl⟩
    · simpa [ht] using ⟨rfl, rfl⟩
  have hactive : cthd ∈ activeBy (s.procs p) := by
    have hthr' : (s.procs p).thr = some cthd := hthr
    simp [activeBy, hpc, hthr']
  refine h.update_busy (by simp [hpc, Pc.resting]) hshape (fun q hq t ht => ?_) (.inl ?_) (.inl ?_)
    (by rfl) _
  · refine sameTeam_update_of_ne _ ?_
    rintro rfl
    exact hq (h.held.holder (List.mem_append_right _ ht) (List.mem_append_right _ hactive))
  · refine (List.Perm.of_eq ?_).subperm
    simp [State.held, heldBy, activeBy, hpc]
  · refine (List.Perm.of_eq ?_).subperm
    simp [hpc, Pc.proclist]

theorem Owned.step_lead (h : Owned s) {cthd i n t : ℕ} {l rest : List ℕ}
    (hpc : (s.procs p).pc = .assigning cthd i n l) (ht : s.Alloc p t rest) :
    Owned ((s.setThread t { s.threads t with parent := some cthd, num := 0 }).setProc p
      { s.procs p with
        freeThr := rest
        thr := some t
        calls := ⟨cthd, t⟩ :: (s.procs p).calls
        pc := .body }) := by
  obtain ⟨hthr, hl, hi, hlen, hn⟩ := h.shape hpc
  have hthr' : (s.procs p).thr = some cthd := hthr
  have hactive : activeBy (s.procs p) = cthd :: (s.procs p).calls.map Call.cthd := by
    simp [activeBy, hpc, hthr']
  have hunused : ∀ {r}, t ∉ activeBy (s.procs r) := h.alloc_unused ht
  have hshape : Shaped (Function.update s.threads t { s.threads t with
      parent := some cthd, num := 0 }) { s.procs p with
        freeThr := rest, thr := some t, calls := ⟨cthd, t⟩ :: (s.procs p).calls, pc := .body } := by
    refine ⟨t, rfl, rfl, by simp, by simp, hl.congr fun t' ht' => ?_⟩
    refine (sameTeam_update_of_ne _ ?_).toSameId
    rintro rfl
    exact hunused (r := p) (hactive ▸ ht')
  refine h.update_busy (by simp [hpc, Pc.resting]) hshape (fun q hq t' ht' => ?_) ?_
    (.inl ?_) (by rfl) _
  · refine sameTeam_update_of_ne _ ?_
    rintro rfl
    exact hunused ht'
  · refine ht.held ?_
    rw [hactive]
    exact .refl _
  · exact List.nil_subperm

theorem Owned.step_load (h : Owned s) {t tp : ℕ} (hpc : (s.procs p).pc = .idle)
    (hthr : (s.procs p).thr = some t) (hparent : (s.threads t).parent = some tp) :
    Owned (s.setProc p { s.procs p with
      job := some ⟨(s.threads t).num, tp, 0⟩, pc := .body }) := by
  obtain ⟨hcalls, -, hassigned⟩ := h.shape hpc
  have hcalls' : (s.procs p).calls = [] := hcalls
  have hnum : 0 < (s.threads t).num := (hassigned t hthr).2
  have hbusy : ¬ Resting (s.procs p) := fun hr => by simp [hr.thr] at hthr
  refine h.update ?_ (fun _ _ t _ => sameTeam_refl t) (.inl ?_) (.inl ?_) (fun hu => ?_)
    (fun r hr => absurd (h.listed hr).2 hbusy) _
  · refine ⟨t, hthr, ?_⟩
    simp only [hcalls']
    exact ⟨hparent, rfl, hnum⟩
  · refine (List.Perm.of_eq ?_).subperm
    simp [State.held, heldBy, activeBy, hpc]
  · exact List.nil_subperm
  · exact absurd (h.unused hu) hbusy

theorem Owned.step_enter (h : Owned s) {t tpp : ℕ} {J : Job} (hpc : (s.procs p).pc = .body)
    (hthr : (s.procs p).thr = some t) (hparent : (s.threads t).parent = some tpp)
    (hnum : (s.threads t).num ≠ 0) (hjob : (s.procs p).job = some J) (sen0 : BitVec 32) :
    Owned (s.setPc p (.entered (s.threads t).num tpp sen0)) := by
  obtain ⟨t', ht', hl⟩ := h.shape hpc
  obtain rfl : t' = t := Option.some.inj (ht'.symm.trans hthr)
  have hshape : Shaped s.threads { s.procs p with pc := .entered (s.threads t').num tpp sen0 } := by
    simp only at hl
    cases hcalls : (s.procs p).calls with
    | nil =>
      obtain ⟨i, tp, passed⟩ := J
      rw [hcalls, hjob] at hl
      obtain ⟨hp, rfl, hpos⟩ := hl
      obtain rfl : tp = tpp := Option.some.inj (hp.symm.trans hparent)
      refine ⟨hcalls, t', passed, hthr, hjob, ?_⟩
      simp only [hcalls, hjob]
      exact ⟨hp, rfl, hpos⟩
    | cons c cs =>
      rw [hcalls] at hl
      exact absurd hl.2.2.1 hnum
  refine h.go (by simp [hpc, Pc.resting]) hshape sameTeam_refl ?_ (by simp [Pc.proclist]) _
  simp [activeBy, hpc]

theorem Owned.step_wait (h : Owned s) {t tpp : ℕ} (hpc : (s.procs p).pc = .body)
    (hthr : (s.procs p).thr = some t) (hparent : (s.threads t).parent = some tpp)
    (hnum : (s.threads t).num = 0) : Owned (s.setPc p (.waiting tpp 1)) := by
  obtain ⟨t', ht', hl⟩ := h.shape hpc
  obtain rfl : t' = t := Option.some.inj (ht'.symm.trans hthr)
  have hshape : Shaped s.threads { s.procs p with pc := .waiting tpp 1 } := by
    simp only at hl
    cases hcalls : (s.procs p).calls with
    | nil =>
      rw [hcalls] at hl
      cases hjob : (s.procs p).job with
      | none =>
        rw [hjob] at hl
        simp [Linked, hparent] at hl
      | some J =>
        rw [hjob] at hl
        obtain ⟨-, hi, hpos⟩ := hl
        omega
    | cons c cs =>
      refine ⟨t', c, cs, hthr, hcalls, ?_, hl⟩
      rw [hcalls] at hl
      exact Option.some.inj (hl.2.1.symm.trans hparent)
  refine h.go (by simp [hpc, Pc.resting]) hshape sameTeam_refl ?_ (by simp [Pc.proclist]) _
  simp [activeBy, hpc]

theorem Owned.step_join (h : Owned s) {c : Call} {cs : List Call} (hpc : (s.procs p).pc = .body)
    (hcalls : (s.procs p).calls = c :: cs) :
    Owned (s.setProc p { s.procs p with
      freeThr := c.tp :: (s.procs p).freeThr, pc := .joining 1 }) := by
  obtain ⟨t, ht, hl⟩ := h.shape hpc
  have ht' : (s.procs p).thr = some t := ht
  simp only [hcalls] at hl
  obtain ⟨rfl, hparent, hnum, hrest⟩ := hl
  refine h.update_busy (by simp [hpc, Pc.resting]) ?_ (fun _ _ t _ => sameTeam_refl t) (.inl ?_)
    (.inl (by simp [Pc.proclist])) (by rfl) _
  · exact ⟨c, cs, hcalls, hrest⟩
  refine List.Perm.subperm ?_
  simp only [State.held, heldBy, activeBy, hpc, ht', List.nil_append, Option.toList_some,
    List.singleton_append]
  exact List.perm_middle.symm

theorem Owned.step_clean (h : Owned s) {me : ℕ} {J : Job} (hpc : (s.procs p).pc = .body)
    (hthr : (s.procs p).thr = some me) (hcalls : (s.procs p).calls = [])
    (hjob : (s.procs p).job = some J) :
    Owned (s.setProc p { s.procs p with
      thr := none, freeThr := me :: (s.procs p).freeThr, pc := .cleaned }) := by
  refine h.update_busy (by simp [hpc, Pc.resting]) ?_ (fun _ _ t _ => sameTeam_refl t) (.inl ?_)
    (.inl (by simp [Pc.proclist])) (by rfl) _
  · exact ⟨hcalls, by simp [hjob], rfl⟩
  refine List.Perm.subperm ?_
  simpa [State.held, heldBy, activeBy, hpc, hthr, hcalls] using
    (List.perm_append_singleton me (s.procs p).freeThr).symm

theorem Owned.step (h : Owned s) (hs : Step maxThreads s s') : Owned s' := by
  cases hs with
  | @fork p cthd cond nested nthds numThreads hpc hthr hnum =>
    obtain ⟨t, ht, hl⟩ := h.shape hpc
    obtain rfl : t = cthd := Option.some.inj (ht.symm.trans hthr)
    refine h.go (by simp [hpc, Pc.resting]) ?_ sameTeam_refl ?_ (by simp [Pc.proclist]) _
    · exact ⟨ht, hl, rfl⟩
    · simp [activeBy, hpc]
  | get hpc hn hget => exact h.step_get hpc hget
  | getNone hpc hn hget =>
    have hgetting := h.shape hpc
    refine h.go (by simp [hpc, Pc.resting]) (by exact hgetting) sameTeam_refl ?_ ?_ _
    · simp [activeBy, hpc]
    · rw [hpc]
      exact List.Subperm.refl _
  | getAll hpc hn =>
    have hgetting := h.shape hpc
    refine h.go (by simp [hpc, Pc.resting]) (by exact hgetting) sameTeam_refl ?_ ?_ _
    · simp [activeBy, hpc]
    · rw [hpc]
      exact List.Subperm.refl _
  | start barriers hpc => exact h.step_start barriers _ hpc
  | assign hpc hi ht => exact h.step_assign hpc ht
  | lead hpc hi ht => exact h.step_lead hpc ht
  | load hpc hthr hparent => exact h.step_load hpc hthr hparent
  | enter hpc hthr hparent hnum hjob hmore => exact h.step_enter hpc hthr hparent hnum hjob _
  | @post p id tpp sen0 hpc =>
    have hids := sameTeam_update (s := s) (d := tpp) (T := { s.threads tpp with
      barrierFlags := Function.update (s.threads tpp).barrierFlags id sen0 }) ⟨⟨rfl, rfl⟩, rfl⟩
    have hentered := h.shape hpc
    have hshape : Shaped s.threads { s.procs p with pc := .posted id tpp sen0 } := hentered
    refine h.go (by simp [hpc, Pc.resting]) (hshape.congr fun t _ => hids t) hids ?_
      (by simp [Pc.proclist]) _
    simp [activeBy, hpc]
  | @pass p id tpp sen0 J hpc hjob hsense =>
    obtain ⟨hcalls, t, passed, ht, hjob', hl⟩ := h.shape hpc
    refine h.update_busy (by simp [hpc, Pc.resting]) ?_ (fun _ _ t _ => sameTeam_refl t) (.inl ?_)
      (.inl (by simp [Pc.proclist])) (by rfl) _
    · have hcalls' : (s.procs p).calls = [] := hcalls
      refine ⟨t, ht, ?_⟩
      simp only [hcalls', hjob] at hl ⊢
      exact hl
    · refine (List.Perm.of_eq ?_).subperm
      simp [State.held, heldBy, activeBy, hpc]
  | wait hpc hthr hparent hnum hmore => exact h.step_wait hpc hthr hparent hnum
  | waitFlag hpc hj hflag =>
    have hwaiting := h.shape hpc
    refine h.go (by simp [hpc, Pc.resting]) (by exact hwaiting) sameTeam_refl ?_
      (by simp [Pc.proclist]) _
    simp [activeBy, hpc]
  | @flip p tpp j hpc hj =>
    have hids := sameTeam_update (s := s) (d := tpp) (T := { s.threads tpp with
      barrierSense := reverse (s.threads tpp).barrierSense
      passed := (s.threads tpp).passed + 1 }) ⟨⟨rfl, rfl⟩, rfl⟩
    have hshape : Shaped s.threads { s.procs p with pc := .body } := by
      obtain ⟨t, c, cs, ht, -, -, hl⟩ := h.shape hpc
      exact ⟨t, ht, hl⟩
    refine h.go (by simp [hpc, Pc.resting]) (hshape.congr fun t _ => hids t) hids ?_
      (by simp [Pc.proclist]) _
    simp [activeBy, hpc]
  | join hpc hcalls hdone => exact h.step_join hpc hcalls
  | joinFlag hpc hcalls hj hflag =>
    have hjoining := h.shape hpc
    refine h.go (by simp [hpc, Pc.resting]) (by exact hjoining) sameTeam_refl ?_
      (by simp [Pc.proclist]) _
    simp [activeBy, hpc]
  | @joined p j c cs hpc hcalls hj =>
    have hids := sameTeam_update (s := s) (d := c.cthd) (T := { s.threads c.cthd with
      barrierSense := reverse (s.threads c.cthd).barrierSense }) ⟨⟨rfl, rfl⟩, rfl⟩
    have hjoining := h.shape hpc
    have hshape : Shaped s.threads { s.procs p with pc := .joined } := hjoining
    refine h.go (by simp [hpc, Pc.resting]) (hshape.congr fun t _ => hids t) hids ?_
      (by simp [Pc.proclist]) _
    simp [activeBy, hpc]
  | @back p c cs hpc hcalls =>
    obtain ⟨c', cs', hcalls', hl⟩ := h.shape hpc
    obtain ⟨rfl, rfl⟩ : c' = c ∧ cs' = cs := by simpa using hcalls'.symm.trans hcalls
    refine h.update_busy (by simp [hpc, Pc.resting]) ?_ (fun _ _ t _ => sameTeam_refl t) (.inl ?_)
      (.inl (by simp [Pc.proclist])) (by rfl) _
    · exact ⟨c'.cthd, rfl, hl⟩
    refine (List.Perm.of_eq ?_).subperm
    simp [State.held, heldBy, activeBy, hpc, hcalls]
  | clean hpc hthr hcalls hjob hdone => exact h.step_clean hpc hthr hcalls hjob
  | @free p hpc =>
    obtain ⟨hcalls, hjob, hthr⟩ := h.shape hpc
    have hnone := (h.busy (p := p) (by simp [hpc, Pc.resting])).2
    refine h.update ?_ (fun _ _ t _ => sameTeam_refl t) (.inl ?_) (.inl (by simp [Pc.proclist]))
      (fun _ => ⟨by rfl, by exact hthr⟩) (fun r hr => absurd hr (hnone r)) _
    · exact ⟨hcalls, hjob, fun t ht => by cases hthr.symm.trans ht⟩
    · refine (List.Perm.of_eq ?_).subperm
      simp [State.held, heldBy, activeBy, hpc]
  | @read p J hpc hjob =>
    have hfreed := h.shape hpc
    refine h.rest (by simp [hpc, Pc.resting]) (by rfl) ⟨by rfl, by rfl⟩ ?_ (by exact hfreed)
      sameTeam_refl _
    simp [State.held, heldBy, activeBy, hpc]
  | @leave p J sen0 hpc hjob =>
    have hids := sameTeam_update (s := s) (d := J.tp) (T := { s.threads J.tp with
      barrierFlags := Function.update (s.threads J.tp).barrierFlags J.i sen0 }) ⟨⟨rfl, rfl⟩, rfl⟩
    obtain ⟨hcalls, -, hassigned⟩ := h.shape hpc
    have hshape : Shaped s.threads { s.procs p with job := none, pc := .idle } :=
      ⟨hcalls, rfl, hassigned⟩
    refine h.rest (by simp [hpc, Pc.resting]) (by rfl) ⟨by rfl, by rfl⟩ ?_
      (hshape.congr fun t _ => hids t) hids _
    simp [State.held, heldBy, activeBy, hpc]

theorem Start.owned {root : ℕ} (h : Start root s) : Owned s where
  shaped p := by
    by_cases hp : p = 0
    · subst hp
      rw [h.master]
      exact ⟨root, rfl, h.root⟩
    · rw [h.slaves p hp]
      exact ⟨rfl, rfl, fun t ht => by cases ht⟩
  held := by
    have hheld : ∀ p, s.held p = if p = 0 then [root] else [] := by
      intro p
      split_ifs with hp
      · subst hp
        simp [State.held, heldBy, activeBy, h.master]
      · simp [State.held, heldBy, activeBy, h.slaves p hp]
    constructor
    · intro p
      rw [hheld]
      split_ifs <;> simp
    · intro p q t hp hq
      rw [hheld] at hp hq
      split_ifs at hp hq <;> simp_all
  lists := by
    have hnil : ∀ p, (s.procs p).pc.proclist = [] := by
      intro p
      by_cases hp : p = 0
      · simp [hp, h.master, Pc.proclist]
      · simp [h.slaves p hp, Pc.proclist]
    exact ⟨fun p => by simp [hnil], fun hx => by simp [hnil] at hx⟩
  listed := by
    intro p q hq
    by_cases hp : p = 0
    · simp [hp, h.master, Pc.proclist] at hq
    · simp [h.slaves p hp, Pc.proclist] at hq
  unused := by
    intro q hq
    by_cases hp : q = 0
    · simp [hp, h.master] at hq
    · rw [h.slaves q hp]
      exact ⟨rfl, rfl⟩

end OmniCompiler.Omp.ForkJoin
