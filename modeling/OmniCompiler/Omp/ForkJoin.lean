import OmniCompiler.Omp.Barrier
import OmniCompiler.Concurrency.Holding

/-!
# Fork and join (`ompc_thread.c`)

`ompc_do_parallel_main` gets processes for a region, gives each a thread record and a number in the
team, runs the region itself as thread 0 and waits in `ompc_thread_barrier2` for the others. A
process takes part in one region after the other, of any parents, and may open regions of its own.
It gives itself back before it posts its flag, so that it can have its next job while the parent of
the last one still waits.
-/
namespace OmniCompiler.Omp.ForkJoin

open Barrier (reverse)

/-- The record of a thread. For the region that it leads, `barriers` is the number of barriers in
the code and `passed` how many of them it has left; these two are not kept by the program. -/
structure Thread where
  parent : Option ℕ
  num : ℕ
  numThds : ℕ
  barrierSense : BitVec 32
  barrierFlags : ℕ → BitVec 32
  barriers : ℕ
  passed : ℕ

/-- What `ompc_do_parallel_main` keeps while its region runs. -/
structure Call where
  cthd : ℕ
  tp : ℕ

/-- What `ompc_slave_proc` keeps of its job, and how many barriers it has left. -/
structure Job where
  i : ℕ
  tp : ℕ
  passed : ℕ

/-- Where a process is. In `body` it runs the code of a region, with the barriers in it; in `freed`
and `leaving` it is in `ompc_thread_barrier2` as a slave, in `joining` as the master. -/
inductive Pc
  | idle
  | body
  | getting (cthd maxThds nThds : ℕ) (proclist : List ℕ)
  | starting (cthd nThds : ℕ) (proclist : List ℕ)
  | assigning (cthd i nThds : ℕ) (proclist : List ℕ)
  | entered (id tpp : ℕ) (sen0 : BitVec 32)
  | posted (id tpp : ℕ) (sen0 : BitVec 32)
  | waiting (tpp j : ℕ)
  | joining (j : ℕ)
  | joined
  | cleaned
  | freed
  | leaving (sen0 : BitVec 32)

/-- A process; `calls` are the regions that it has opened, the latest first. -/
structure Proc where
  isUsed : Bool
  thr : Option ℕ
  freeThr : List ℕ
  pc : Pc
  calls : List Call
  job : Option Job

structure State where
  procs : ℕ → Proc
  threads : ℕ → Thread
  lastUsed : ℕ

/-- The search from `last_used` on, `k` places more. -/
def searchProc (maxThreads : ℕ) (isUsed : ℕ → Bool) : ℕ → ℕ → Option ℕ × ℕ
  | 0, lastUsed => (none, lastUsed)
  | k + 1, lastUsed =>
    let lastUsed := if maxThreads ≤ lastUsed + 1 then 0 else lastUsed + 1
    if isUsed lastUsed then searchProc maxThreads isUsed k lastUsed else (some lastUsed, lastUsed)

/-- `ompc_get_proc`, under its lock, with `last_used` after it. -/
def getProc (maxThreads : ℕ) (isUsed : ℕ → Bool) (lastUsed hint : ℕ) : Option ℕ × ℕ :=
  if isUsed hint then searchProc maxThreads isUsed maxThreads lastUsed else (some hint, lastUsed)

def maxThds (cond nested : Bool) (parent : Option ℕ) (nthds numThreads : ℕ) : ℕ :=
  if !cond then 1
  else if parent.isSome && !nested then 1
  else if nthds < numThreads then nthds
  else numThreads

/-- The records for what a process runs. When a region has ended its record is in the free list,
though `thr` still points to it. -/
def activeBy (P : Proc) : List ℕ :=
  (match P.pc with
    | .joining _ | .joined => []
    | _ => P.thr.toList) ++ P.calls.map Call.cthd

def heldBy (P : Proc) : List ℕ := P.freeThr ++ activeBy P

namespace State

variable (s : State)

def setProc (p : ℕ) (P : Proc) : State := { s with procs := Function.update s.procs p P }

def setPc (p : ℕ) (pc : Pc) : State := s.setProc p { s.procs p with pc := pc }

def setThread (t : ℕ) (T : Thread) : State := { s with threads := Function.update s.threads t T }

def held (p : ℕ) : List ℕ := heldBy (s.procs p)

/-- `ompc_alloc_thread` returns `t` for process `q`, whose free list is then `rest`. -/
inductive Alloc (q t : ℕ) (rest : List ℕ) : Prop
  | reuse (h : (s.procs q).freeThr = t :: rest)
  | malloc (h : (s.procs q).freeThr = []) (hrest : rest = []) (hnew : ∀ r, t ∉ s.held r)

end State

/-- The atomic steps. A record is private to the process that allocates it until the store to
`thr`, which ends the step; so are the fields of its own that a slave clears before it is freed. -/
inductive Step (maxThreads : ℕ) (s : State) : State → Prop
  | fork {p cthd : ℕ} (cond nested : Bool) (nthds : ℕ) {numThreads : ℕ}
      (hpc : (s.procs p).pc = .body) (hthr : (s.procs p).thr = some cthd)
      (hnum : numThreads ≤ maxThreads) :
    Step maxThreads s (s.setPc p (.getting cthd
      (maxThds cond nested (s.threads cthd).parent nthds numThreads) 1 []))
  | get {p cthd max n q last : ℕ} {l : List ℕ} (hpc : (s.procs p).pc = .getting cthd max n l)
      (hn : n < max)
      (hget : getProc maxThreads (fun r => (s.procs r).isUsed) s.lastUsed n = (some q, last)) :
    Step maxThreads s { (s.setProc q { s.procs q with isUsed := true }).setPc p
      (.getting cthd max (n + 1) (q :: l)) with lastUsed := last }
  | getNone {p cthd max n last : ℕ} {l : List ℕ} (hpc : (s.procs p).pc = .getting cthd max n l)
      (hn : n < max)
      (hget : getProc maxThreads (fun r => (s.procs r).isUsed) s.lastUsed n = (none, last)) :
    Step maxThreads s { s.setPc p (.starting cthd n l) with lastUsed := last }
  | getAll {p cthd max n : ℕ} {l : List ℕ} (hpc : (s.procs p).pc = .getting cthd max n l)
      (hn : max ≤ n) :
    Step maxThreads s (s.setPc p (.starting cthd n l))
  | start {p cthd n : ℕ} {l : List ℕ} (barriers : ℕ)
      (hpc : (s.procs p).pc = .starting cthd n l) :
    Step maxThreads s ((s.setThread cthd { s.threads cthd with
      numThds := n
      barrierFlags := fun i =>
        if i < n then (s.threads cthd).barrierSense else (s.threads cthd).barrierFlags i
      barriers := barriers
      passed := 0 }).setPc p (.assigning cthd 1 n l))
  | assign {p cthd i n q t : ℕ} {l rest : List ℕ}
      (hpc : (s.procs p).pc = .assigning cthd i n (q :: l)) (hi : i < n)
      (ht : s.Alloc q t rest) :
    Step maxThreads s (((s.setThread t { s.threads t with parent := some cthd, num := i }).setProc q
      { s.procs q with freeThr := rest, thr := some t }).setPc p (.assigning cthd (i + 1) n l))
  | lead {p cthd i n t : ℕ} {l rest : List ℕ} (hpc : (s.procs p).pc = .assigning cthd i n l)
      (hi : n ≤ i) (ht : s.Alloc p t rest) :
    Step maxThreads s ((s.setThread t { s.threads t with parent := some cthd, num := 0 }).setProc p
      { s.procs p with
        freeThr := rest
        thr := some t
        calls := ⟨cthd, t⟩ :: (s.procs p).calls
        pc := .body })
  | load {p t tp : ℕ} (hpc : (s.procs p).pc = .idle) (hthr : (s.procs p).thr = some t)
      (hparent : (s.threads t).parent = some tp) :
    Step maxThreads s (s.setProc p { s.procs p with
      job := some ⟨(s.threads t).num, tp, 0⟩
      pc := .body })
  | enter {p t tpp : ℕ} {J : Job} (hpc : (s.procs p).pc = .body)
      (hthr : (s.procs p).thr = some t) (hparent : (s.threads t).parent = some tpp)
      (hnum : (s.threads t).num ≠ 0) (hjob : (s.procs p).job = some J)
      (hmore : J.passed < (s.threads tpp).barriers) :
    Step maxThreads s (s.setPc p
      (.entered (s.threads t).num tpp (reverse (s.threads tpp).barrierSense)))
  | post {p id tpp : ℕ} {sen0 : BitVec 32} (hpc : (s.procs p).pc = .entered id tpp sen0) :
    Step maxThreads s ((s.setThread tpp { s.threads tpp with
      barrierFlags := Function.update (s.threads tpp).barrierFlags id sen0 }).setPc p
        (.posted id tpp sen0))
  | pass {p id tpp : ℕ} {sen0 : BitVec 32} {J : Job} (hpc : (s.procs p).pc = .posted id tpp sen0)
      (hjob : (s.procs p).job = some J) (hsense : (s.threads tpp).barrierSense = sen0) :
    Step maxThreads s (s.setProc p { s.procs p with
      job := some { J with passed := J.passed + 1 }
      pc := .body })
  | wait {p t tpp : ℕ} (hpc : (s.procs p).pc = .body) (hthr : (s.procs p).thr = some t)
      (hparent : (s.threads t).parent = some tpp) (hnum : (s.threads t).num = 0)
      (hmore : (s.threads tpp).passed < (s.threads tpp).barriers) :
    Step maxThreads s (s.setPc p (.waiting tpp 1))
  | waitFlag {p tpp j : ℕ} (hpc : (s.procs p).pc = .waiting tpp j)
      (hj : j < (s.threads tpp).numThds)
      (hflag : (s.threads tpp).barrierFlags j = reverse (s.threads tpp).barrierSense) :
    Step maxThreads s (s.setPc p (.waiting tpp (j + 1)))
  | flip {p tpp j : ℕ} (hpc : (s.procs p).pc = .waiting tpp j)
      (hj : (s.threads tpp).numThds ≤ j) :
    Step maxThreads s ((s.setThread tpp { s.threads tpp with
      barrierSense := reverse (s.threads tpp).barrierSense
      passed := (s.threads tpp).passed + 1 }).setPc p .body)
  | join {p : ℕ} {c : Call} {cs : List Call} (hpc : (s.procs p).pc = .body)
      (hcalls : (s.procs p).calls = c :: cs)
      (hdone : (s.threads c.cthd).passed = (s.threads c.cthd).barriers) :
    Step maxThreads s (s.setProc p { s.procs p with
      freeThr := c.tp :: (s.procs p).freeThr
      pc := .joining 1 })
  | joinFlag {p j : ℕ} {c : Call} {cs : List Call} (hpc : (s.procs p).pc = .joining j)
      (hcalls : (s.procs p).calls = c :: cs) (hj : j < (s.threads c.cthd).numThds)
      (hflag : (s.threads c.cthd).barrierFlags j = reverse (s.threads c.cthd).barrierSense) :
    Step maxThreads s (s.setPc p (.joining (j + 1)))
  | joined {p j : ℕ} {c : Call} {cs : List Call} (hpc : (s.procs p).pc = .joining j)
      (hcalls : (s.procs p).calls = c :: cs) (hj : (s.threads c.cthd).numThds ≤ j) :
    Step maxThreads s ((s.setThread c.cthd { s.threads c.cthd with
      barrierSense := reverse (s.threads c.cthd).barrierSense }).setPc p .joined)
  | back {p : ℕ} {c : Call} {cs : List Call} (hpc : (s.procs p).pc = .joined)
      (hcalls : (s.procs p).calls = c :: cs) :
    Step maxThreads s (s.setProc p { s.procs p with
      thr := some c.cthd
      calls := cs
      pc := .body })
  | clean {p me : ℕ} {J : Job} (hpc : (s.procs p).pc = .body) (hthr : (s.procs p).thr = some me)
      (hcalls : (s.procs p).calls = []) (hjob : (s.procs p).job = some J)
      (hdone : J.passed = (s.threads J.tp).barriers) :
    Step maxThreads s (s.setProc p { s.procs p with
      thr := none
      freeThr := me :: (s.procs p).freeThr
      pc := .cleaned })
  | free {p : ℕ} (hpc : (s.procs p).pc = .cleaned) :
    Step maxThreads s (s.setProc p { s.procs p with isUsed := false, pc := .freed })
  | read {p : ℕ} {J : Job} (hpc : (s.procs p).pc = .freed) (hjob : (s.procs p).job = some J) :
    Step maxThreads s (s.setPc p (.leaving (reverse (s.threads J.tp).barrierSense)))
  | leave {p : ℕ} {J : Job} {sen0 : BitVec 32} (hpc : (s.procs p).pc = .leaving sen0)
      (hjob : (s.procs p).job = some J) :
    Step maxThreads s ((s.setThread J.tp { s.threads J.tp with
      barrierFlags := Function.update (s.threads J.tp).barrierFlags J.i sen0 }).setProc p
        { s.procs p with job := none, pc := .idle })

/-- After `ompc_init`: process 0 runs the program in the record `root`, the others wait. -/
structure Start (root : ℕ) (s : State) : Prop where
  master : s.procs 0 = ⟨true, some root, [], .body, [], none⟩
  slaves : ∀ p, p ≠ 0 → s.procs p = ⟨false, none, [], .idle, [], none⟩
  root : (s.threads root).parent = none
  lastUsed : s.lastUsed = 0

/-- The states of all interleavings. -/
def Reachable (maxThreads root : ℕ) (s : State) : Prop :=
  ∃ s₀, Start root s₀ ∧ Relation.ReflTransGen (Step maxThreads) s₀ s

end OmniCompiler.Omp.ForkJoin
