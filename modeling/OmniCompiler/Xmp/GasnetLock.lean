import OmniCompiler.Arithmetic.SmallFin
import OmniCompiler.Concurrency.Interleaving
import OmniCompiler.Memory.RingQueue

/-!
# `lock` and `unlock` over GASNet (`xmp_lock_unlock_gasnet.c`)

A lock variable lives on its home rank, with a queue of the ranks that wait for it. Ranks ask for
the lock and give it back by messages to the home rank. When somebody waits, the home rank names him
to the rank that gives the lock back, and that rank grants it. Each rank has one variable that says
how its call stands. Messages arrive in any order and a handler is one step.
-/
namespace OmniCompiler.Xmp.GasnetLock

open Interleaving Memory SmallFin

variable {n : ℕ} {L : Type*} [DecidableEq L]

def lockChunk : ℕ := 8

/-- `_XMP_LOCKSTATE_*`. -/
inductive LockState
  | waiting
  | granted
  | failed
  | handoff
  | done
  deriving DecidableEq

/-- `xmp_gasnet_lock_t`; the fields `wait_size`, `wait_list`, `wait_head` and `wait_tail` are those
of the queue. -/
structure Lock (n : ℕ) where
  islocked : Bool
  wait : RingQueue (Fin n)

namespace Lock

variable (lock : Lock n)

def doLock (target : Fin n) : Lock n × LockState :=
  if lock.islocked then ({ lock with wait := lock.wait.push lockChunk n target }, .waiting)
  else ({ lock with islocked := true }, .granted)

/-- `_xmp_gasnet_do_unlock`; the last component is `replyarg`, which is set in a hand-off only. -/
def doUnlock : Lock n × LockState × Option (Fin n) :=
  if lock.wait.head ≠ lock.wait.tail then
    ({ lock with wait := lock.wait.pop }, .handoff, some (lock.wait.buf lock.wait.head))
  else ({ lock with islocked := false }, .done, none)

end Lock

/-! ## Ranks and messages -/

inductive Message (n : ℕ) (L : Type*)
  | lockRequest (node : Fin n) (l : L)
  | unlockRequest (node : Fin n) (l : L)
  | setLockState (state : LockState)
  | lockHandoff (arg : Fin n)
  deriving DecidableEq

inductive Phase (L : Type*)
  | running
  | locking (l : L)
  | unlocking (l : L)
  deriving DecidableEq

/-- A rank with `local_lockstate` and `local_handoffarg`. `held` are the locks for which `lock` has
returned and `unlock` has not been called. -/
structure Rank (n : ℕ) (L : Type*) where
  phase : Phase L
  lockstate : LockState
  handoffarg : Fin n
  held : L → Bool

/-- `arrived` are the requests of each lock in the order in which they reached the home rank, and
`granted` the grants in the order in which they were given. Nothing looks at them. -/
structure World (n : ℕ) (L : Type*) where
  rank : Fin n → Rank n L
  lock : L → Lock n
  inFlight : Fin n → List (Message n L)
  arrived : L → List (Fin n)
  granted : L → List (Fin n)

namespace World

variable (s : World n L)

def setRank (r : Fin n) (x : Rank n L) : World n L :=
  { s with rank := Function.update s.rank r x }

def send (r : Fin n) (m : Message n L) : World n L :=
  { s with inFlight := Function.update s.inFlight r (s.inFlight r ++ [m]) }

def grant (l : L) (r : Fin n) : World n L :=
  { s with granted := Function.update s.granted l (s.granted l ++ [r]) }

/-- The request of rank `r` has reached the home rank of `l`. -/
def doLock (r : Fin n) (l : L) : World n L × LockState :=
  let reply := (s.lock l).doLock r
  let s' := { s with
    lock := Function.update s.lock l reply.1
    arrived := Function.update s.arrived l (s.arrived l ++ [r]) }
  (if reply.2 = .granted then s'.grant l r else s', reply.2)

def doUnlock (l : L) : World n L × LockState × Option (Fin n) :=
  let reply := (s.lock l).doUnlock
  ({ s with lock := Function.update s.lock l reply.1 }, reply.2)

/-- `_xmp_gasnet_lock` up to `GASNET_BLOCKUNTIL`. -/
def lockCall (home : L → Fin n) (r : Fin n) (l : L) : World n L :=
  let rank := { s.rank r with phase := .locking l }
  if home l = r then
    let (s', state) := s.doLock r l
    s'.setRank r { rank with lockstate := state }
  else (s.send (home l) (.lockRequest r l)).setRank r { rank with lockstate := .waiting }

/-- `_xmp_gasnet_unlock` up to `GASNET_BLOCKUNTIL`. -/
def unlockCall (home : L → Fin n) (r : Fin n) (l : L) : World n L :=
  let rank := { s.rank r with
    phase := .unlocking l
    held := Function.update (s.rank r).held l false }
  if home l = r then
    let (s', state, arg) := s.doUnlock l
    s'.setRank r { rank with lockstate := state, handoffarg := arg.getD rank.handoffarg }
  else (s.send (home l) (.unlockRequest r l)).setRank r { rank with lockstate := .waiting }

/-- The rest of `_xmp_gasnet_lock`. -/
def lockReturn (r : Fin n) (l : L) : World n L :=
  s.setRank r { s.rank r with
    phase := .running
    held := Function.update (s.rank r).held l true }

/-- The rest of `_xmp_gasnet_unlock`. -/
def unlockReturn (r : Fin n) (l : L) : World n L :=
  let rank := { s.rank r with phase := .running }
  if rank.lockstate = .handoff then
    let s' := s.grant l rank.handoffarg
    if rank.handoffarg = r then s'.setRank r { rank with lockstate := .granted }
    else (s'.send rank.handoffarg (.setLockState .granted)).setRank r rank
  else s.setRank r rank

/-- The handlers `_xmp_gasnet_lock_request`, `_xmp_gasnet_unlock_request`,
`_xmp_gasnet_setlockstate` and `_xmp_gasnet_lockhandoff` of rank `r`. -/
def handle (r : Fin n) : Message n L → World n L
  | .lockRequest node l =>
    let (s', state) := s.doLock node l
    if state ≠ .waiting then s'.send node (.setLockState state) else s'
  | .unlockRequest node l =>
    match s.doUnlock l with
    | (s', .handoff, some arg) => s'.send node (.lockHandoff arg)
    | (s', state, _) => s'.send node (.setLockState state)
  | .setLockState state => s.setRank r { s.rank r with lockstate := state }
  | .lockHandoff arg => s.setRank r { s.rank r with lockstate := .handoff, handoffarg := arg }

/-- Without message `k` to rank `r`. -/
def receive (r : Fin n) (k : ℕ) : World n L :=
  { s with inFlight := Function.update s.inFlight r ((s.inFlight r).eraseIdx k) }

end World

/-- A rank calls `lock` or `unlock`, goes on after `GASNET_BLOCKUNTIL`, or message `k` to it
arrives. -/
inductive Move (n : ℕ) (L : Type*)
  | lock (r : Fin n) (l : L)
  | unlock (r : Fin n) (l : L)
  | wake (r : Fin n)
  | deliver (r : Fin n) (k : ℕ)

/-- A rank gives back only locks that it holds. -/
def step (home : L → Fin n) : Move n L → World n L → Option (World n L)
  | .lock r l, s => if (s.rank r).phase = .running then some (s.lockCall home r l) else none
  | .unlock r l, s =>
    if (s.rank r).phase = .running ∧ (s.rank r).held l then some (s.unlockCall home r l) else none
  | .wake r, s =>
    if (s.rank r).lockstate = .waiting then none
    else
      match (s.rank r).phase with
      | .running => none
      | .locking l => some (s.lockReturn r l)
      | .unlocking l => some (s.unlockReturn r l)
  | .deliver r k, s => (s.inFlight r)[k]?.map fun m => (s.receive r k).handle r m

/-- `_xmp_gasnet_lock_initialize`; the state variables of the ranks are arbitrary. -/
structure Start (s : World n L) : Prop where
  phase : ∀ r, (s.rank r).phase = .running
  held : ∀ r l, (s.rank r).held l = false
  islocked : ∀ l, (s.lock l).islocked = false
  size : ∀ l, (s.lock l).wait.size = min lockChunk n
  head : ∀ l, (s.lock l).wait.head = 0
  tail : ∀ l, (s.lock l).wait.tail = 0
  inFlight : ∀ r, s.inFlight r = []
  arrived : ∀ l, s.arrived l = []
  granted : ∀ l, s.granted l = []

/-! ## One lock -/

/-- What a rank is to a lock. A lock has an owner from the grant until the home rank takes it back,
or until the next rank is granted the lock; `naming x` is an owner who has been told to grant it to
`x`. -/
inductive Part (n : ℕ)
  | absent
  | queued
  | handed
  | owner
  | naming (x : Fin n)
  deriving DecidableEq

def Part.IsOwner : Part n → Prop
  | .owner | .naming _ => True
  | _ => False

/-- What holds of a lock. A rank that holds the lock may have asked for it again, so `held` is apart
from the parts of the ranks. `named` is the rank that the owner has been told, if any. -/
structure LockInv (lock : Lock n) (arrived granted : List (Fin n)) (part : Fin n → Part n)
    (held : Fin n → Bool) (owner : Option (Fin n)) (named : List (Fin n)) : Prop where
  fits : lock.wait.Fits n
  nodup : lock.wait.contents.Nodup
  queued : ∀ r, r ∈ lock.wait.contents ↔ part r = .queued
  owner_iff : ∀ r, (part r).IsOwner ∨ held r = true ↔ owner = some r
  single : ∀ r, (part r).IsOwner → held r = false
  islocked : lock.islocked = owner.isSome
  handed : ∀ r, part r = .handed ↔ r ∈ named
  naming : ∀ o x, part o = .naming x → named = [x]
  namer : ∀ x ∈ named, ∃ o, part o = .naming x
  fifo : arrived = granted ++ named ++ lock.wait.contents
  free : owner = none → lock.wait.contents = []

namespace LockInv

variable {lock : Lock n} {arrived granted : List (Fin n)} {part : Fin n → Part n}
  {held : Fin n → Bool} {owner : Option (Fin n)} {named : List (Fin n)}
  (h : LockInv lock arrived granted part held owner named)

include h

theorem length_lt {r : Fin n} (hr : part r ≠ .queued) : lock.wait.contents.length < n := by
  have hmem : r ∉ lock.wait.contents := fun hin => hr ((h.queued r).mp hin)
  have hcard : (r :: lock.wait.contents).length ≤ Fintype.card (Fin n) :=
    (List.nodup_cons.mpr ⟨hmem, h.nodup⟩).length_le_card
  rw [Fintype.card_fin, List.length_cons] at hcard
  exact hcard

theorem wait {r : Fin n} (hr : part r = .absent) (hlocked : lock.islocked = true) :
    LockInv { lock with wait := lock.wait.push lockChunk n r } (arrived ++ [r]) granted
      (Function.update part r .queued) held owner named := by
  have hroom : lock.wait.contents.length < n := h.length_lt (r := r) (by simp [hr])
  have hcontents : (lock.wait.push lockChunk n r).contents = lock.wait.contents ++ [r] :=
    h.fits.contents_push hroom r
  have hmem : r ∉ lock.wait.contents := by
    intro hin
    rw [h.queued, hr] at hin
    cases hin
  obtain ⟨hfits, hnodup, hqueued, howner, hsingle, hislocked, hhanded, hnaming, hnamer, hfifo,
    hfree⟩ := h
  constructor
  · exact hfits.push (by decide) hroom r
  · rw [hcontents]
    exact hnodup.append (List.nodup_singleton r) (by simpa using hmem)
  · intro q
    rw [hcontents]
    grind [Function.update_apply]
  · grind [Function.update_apply, Part.IsOwner]
  · grind [Function.update_apply, Part.IsOwner]
  · exact hislocked
  · grind [Function.update_apply]
  · grind [Function.update_apply]
  · intro x hx
    obtain ⟨o, ho⟩ := hnamer x hx
    refine ⟨o, ?_⟩
    grind [Function.update_apply]
  · rw [hcontents, hfifo]
    simp
  · grind

theorem grant {r : Fin n} (hlocked : lock.islocked = false) :
    LockInv { lock with islocked := true } (arrived ++ [r]) (granted ++ [r])
      (Function.update part r .owner) held (some r) named := by
  have hnone : owner = none := by
    rw [h.islocked] at hlocked
    exact Option.isSome_eq_false_iff.mp hlocked |> Option.isNone_iff_eq_none.mp
  obtain ⟨hfits, hnodup, hqueued, howner, hsingle, hislocked, hhanded, hnaming, hnamer, hfifo,
    hfree⟩ := h
  have hnobody : ∀ o x, part o ≠ .naming x := by
    intro o x ho
    have := (howner o).mp (Or.inl (by rw [ho]; trivial))
    grind
  have hnamed : named = [] := by
    apply List.eq_nil_iff_forall_not_mem.mpr
    intro x hx
    obtain ⟨o, ho⟩ := hnamer x hx
    exact hnobody o x ho
  constructor
  · exact hfits
  · exact hnodup
  · grind [Function.update_apply]
  · grind [Function.update_apply, Part.IsOwner]
  · grind [Function.update_apply, Part.IsOwner]
  · rfl
  · grind [Function.update_apply]
  · grind [Function.update_apply]
  · grind [Function.update_apply]
  · rw [hfifo, hnamed, hfree hnone]
    simp
  · rintro ⟨⟩

theorem hold {r : Fin n} (hr : part r = .owner) :
    LockInv lock arrived granted (Function.update part r .absent)
      (Function.update held r true) owner
      named := by
  obtain ⟨hfits, hnodup, hqueued, howner, hsingle, hislocked, hhanded, hnaming, hnamer, hfifo,
    hfree⟩ := h
  constructor
  · exact hfits
  · exact hnodup
  · grind [Function.update_apply]
  · grind [Function.update_apply, Part.IsOwner]
  · grind [Function.update_apply, Part.IsOwner]
  · exact hislocked
  · grind [Function.update_apply]
  · grind [Function.update_apply]
  · intro x hx
    obtain ⟨o, ho⟩ := hnamer x hx
    refine ⟨o, ?_⟩
    grind [Function.update_apply]
  · exact hfifo
  · exact hfree

theorem unhold {r : Fin n} (hr : part r = .absent) (hheld : held r = true) :
    LockInv lock arrived granted (Function.update part r .owner)
      (Function.update held r false) owner
      named := by
  obtain ⟨hfits, hnodup, hqueued, howner, hsingle, hislocked, hhanded, hnaming, hnamer, hfifo,
    hfree⟩ := h
  constructor
  · exact hfits
  · exact hnodup
  · grind [Function.update_apply]
  · grind [Function.update_apply, Part.IsOwner]
  · grind [Function.update_apply, Part.IsOwner]
  · exact hislocked
  · grind [Function.update_apply]
  · grind [Function.update_apply]
  · intro x hx
    obtain ⟨o, ho⟩ := hnamer x hx
    refine ⟨o, ?_⟩
    grind [Function.update_apply]
  · exact hfifo
  · exact hfree

theorem nobody {r : Fin n} (hr : part r = .owner) : named = [] := by
  apply List.eq_nil_iff_forall_not_mem.mpr
  intro x hx
  obtain ⟨o, ho⟩ := h.namer x hx
  have h₁ := (h.owner_iff r).mp (Or.inl (by rw [hr]; trivial))
  have h₂ := (h.owner_iff o).mp (Or.inl (by rw [ho]; trivial))
  grind

theorem free_owner {r : Fin n} (hr : part r = .owner) (hempty : lock.wait.contents = []) :
    LockInv { lock with islocked := false } arrived granted
      (Function.update part r .absent) held none
      named := by
  have hnamed := h.nobody hr
  obtain ⟨hfits, hnodup, hqueued, howner, hsingle, hislocked, hhanded, hnaming, hnamer, hfifo,
    hfree⟩ := h
  have hrowner : owner = some r := (howner r).mp (Or.inl (by rw [hr]; trivial))
  constructor
  · exact hfits
  · exact hnodup
  · grind [Function.update_apply]
  · grind [Function.update_apply, Part.IsOwner]
  · grind [Function.update_apply, Part.IsOwner]
  · rfl
  · grind [Function.update_apply]
  · grind [Function.update_apply]
  · grind [Function.update_apply]
  · exact hfifo
  · exact fun _ => hempty

theorem name {r x : Fin n} {q : RingQueue (Fin n)} (hr : part r = .owner)
    (hcontents : lock.wait.contents = x :: q.contents) (hq : q.Fits n) :
    LockInv { lock with wait := q } arrived granted
      (Function.update (Function.update part x .handed) r (.naming x)) held owner [x] := by
  have hnamed := h.nobody hr
  obtain ⟨hfits, hnodup, hqueued, howner, hsingle, hislocked, hhanded, hnaming, hnamer, hfifo,
    hfree⟩ := h
  have hx : part x = .queued := (hqueued x).mp (by rw [hcontents]; exact List.mem_cons_self)
  rw [hcontents, List.nodup_cons] at hnodup
  have hrowner : owner = some r := (howner r).mp (Or.inl (by rw [hr]; trivial))
  constructor
  · exact hq
  · exact hnodup.2
  · grind [Function.update_apply]
  · grind [Function.update_apply, Part.IsOwner]
  · grind [Function.update_apply, Part.IsOwner]
  · exact hislocked
  · grind [Function.update_apply, Part.IsOwner]
  · grind [Function.update_apply, Part.IsOwner]
  · intro y hy
    obtain rfl := List.mem_singleton.mp hy
    exact ⟨r, Function.update_self _ _ _⟩
  · rw [hfifo, hnamed, hcontents]
    simp
  · grind

theorem pass {r x : Fin n} (hr : part r = .naming x) :
    LockInv lock arrived (granted ++ [x])
      (Function.update (Function.update part x .owner) r .absent) held (some x) [] := by
  obtain ⟨hfits, hnodup, hqueued, howner, hsingle, hislocked, hhanded, hnaming, hnamer, hfifo,
    hfree⟩ := h
  have hnamed := hnaming r x hr
  have hx : part x = .handed := (hhanded x).mpr (by simp [hnamed])
  have hrowner : owner = some r := (howner r).mp (Or.inl (by rw [hr]; trivial))
  constructor
  · exact hfits
  · exact hnodup
  · grind [Function.update_apply]
  · grind [Function.update_apply, Part.IsOwner]
  · grind [Function.update_apply, Part.IsOwner]
  · rw [hislocked, hrowner]
    rfl
  · grind [Function.update_apply]
  · grind [Function.update_apply, Part.IsOwner]
  · grind [Function.update_apply, Part.IsOwner]
  · rw [hfifo, hnamed]
    simp
  · rintro ⟨⟩

end LockInv

/-! ## Where a call stands -/

/-- `requesting`: the request is on its way to the home rank. `queued`: in the queue. `handed`: the
home rank has named the rank to the one that gives the lock back. `granting` and `granted`: the
grant is on its way, and has arrived. `releasing`: the unlock request is on its way. `handing` and
`handoff`: the name of the next rank is on its way, and has arrived. `finishing` and `done`: there
is no next rank. -/
inductive Status (n : ℕ) (L : Type*)
  | running
  | requesting (l : L)
  | queued (l : L)
  | handed (l : L)
  | granting (l : L)
  | granted (l : L)
  | releasing (l : L)
  | handing (l : L) (x : Fin n)
  | handoff (l : L) (x : Fin n)
  | finishing (l : L)
  | done (l : L)

namespace Status

def phase : Status n L → Phase L
  | .running => .running
  | .requesting l | .queued l | .handed l | .granting l | .granted l => .locking l
  | .releasing l | .handing l _ | .handoff l _ | .finishing l | .done l => .unlocking l

/-- The state variable; it may be anything while no call is made. -/
def lockstate : Status n L → Option LockState
  | .running => none
  | .granted _ => some .granted
  | .handoff _ _ => some .handoff
  | .done _ => some .done
  | _ => some .waiting

def handoffarg : Status n L → Option (Fin n)
  | .handoff _ x => some x
  | _ => none

def part (l : L) : Status n L → Part n
  | .running | .requesting _ | .finishing _ | .done _ => .absent
  | .queued l' => if l' = l then .queued else .absent
  | .handed l' => if l' = l then .handed else .absent
  | .granting l' | .granted l' | .releasing l' => if l' = l then .owner else .absent
  | .handing l' x | .handoff l' x => if l' = l then .naming x else .absent

/-- The message on its way for the call of rank `r`, with its destination. -/
def message (home : L → Fin n) (r : Fin n) : Status n L → Option (Fin n × Message n L)
  | .requesting l => some (home l, .lockRequest r l)
  | .granting _ => some (r, .setLockState .granted)
  | .releasing l => some (home l, .unlockRequest r l)
  | .handing _ x => some (r, .lockHandoff x)
  | .finishing _ => some (r, .setLockState .done)
  | _ => none

end Status

/-- The messages to `d` among an optional one. -/
def toRank (d : Fin n) : Option (Fin n × Message n L) → Multiset (Message n L)
  | some (d', m) => if d' = d then {m} else 0
  | none => 0

/-- The messages on their way to `d`. -/
def inTransit (home : L → Fin n) (status : Fin n → Status n L) (d : Fin n) :
    Multiset (Message n L) :=
  ∑ r, toRank d ((status r).message home r)

structure RankInv (status : Status n L) (x : Rank n L) : Prop where
  phase : x.phase = status.phase
  lockstate : ∀ state ∈ status.lockstate, x.lockstate = state
  handoffarg : ∀ arg ∈ status.handoffarg, x.handoffarg = arg

def World.LockOk (s : World n L) (l : L) (part : Fin n → Part n) (held : Fin n → Bool) : Prop :=
  ∃ owner named, LockInv (s.lock l) (s.arrived l) (s.granted l) part held owner named

/-- The calls stand as `status` says. -/
structure Inv (home : L → Fin n) (status : Fin n → Status n L) (s : World n L) : Prop where
  rank : ∀ r, RankInv (status r) (s.rank r)
  inFlight : ∀ d, (s.inFlight d : Multiset (Message n L)) = inTransit home status d
  lock : ∀ l, s.LockOk l (fun r => (status r).part l) (fun r => (s.rank r).held l)

omit [DecidableEq L] in
theorem inTransit_update (home : L → Fin n) (status : Fin n → Status n L) (r d : Fin n)
    (x : Status n L) :
    inTransit home (Function.update status r x) d + toRank d ((status r).message home r) =
      inTransit home status d + toRank d (x.message home r) := by
  have hrest : ∑ q ∈ Finset.univ.erase r,
      toRank d ((Function.update status r x q).message home q) =
      ∑ q ∈ Finset.univ.erase r, toRank d ((status q).message home q) := by
    apply Finset.sum_congr rfl
    intro q hq
    rw [Function.update_of_ne (Finset.ne_of_mem_erase hq)]
  rw [inTransit, inTransit, ← Finset.add_sum_erase _ _ (Finset.mem_univ r),
    ← Finset.add_sum_erase _ _ (Finset.mem_univ r), hrest, Function.update_self]
  abel

theorem part_update {status : Fin n → Status n L} {r : Fin n} {x : Status n L} (l : L) :
    (fun q => (Function.update status r x q).part l) =
      Function.update (fun q => (status q).part l) r (x.part l) := by
  funext q
  by_cases hq : q = r
  · subst hq
    rw [Function.update_self, Function.update_self]
  · rw [Function.update_of_ne hq, Function.update_of_ne hq]

omit [DecidableEq L] in
theorem mem_inTransit {home : L → Fin n} {status : Fin n → Status n L} {d : Fin n}
    {m : Message n L} (h : m ∈ inTransit home status d) :
    ∃ r, (status r).message home r = some (d, m) := by
  obtain ⟨r, -, hr⟩ := Multiset.mem_sum.mp h
  refine ⟨r, ?_⟩
  cases hm : (status r).message home r with
  | none =>
    rw [hm] at hr
    cases hr
  | some p =>
    rw [hm, toRank] at hr
    split_ifs at hr with hd
    · rw [Multiset.mem_singleton] at hr
      rw [hr, ← hd]
    · cases hr

structure World.SameElse (s s' : World n L) (l : L) : Prop where
  lock : ∀ l', l' ≠ l → s'.lock l' = s.lock l'
  arrived : ∀ l', l' ≠ l → s'.arrived l' = s.arrived l'
  granted : ∀ l', l' ≠ l → s'.granted l' = s.granted l'

section Steps

variable {home : L → Fin n} {status : Fin n → Status n L} {s s' : World n L} {r : Fin n} {l : L}
  {x : Status n L} {y : Rank n L}

/-- The invariant without lock `l`. -/
structure InvElse (home : L → Fin n) (status : Fin n → Status n L) (s : World n L)
    (l : L) : Prop where
  rank : ∀ r, RankInv (status r) (s.rank r)
  inFlight : ∀ d, (s.inFlight d : Multiset (Message n L)) = inTransit home status d
  lock : ∀ l', l' ≠ l →
    s.LockOk l' (fun r => (status r).part l') (fun r => (s.rank r).held l')

theorem Inv.toElse (h : Inv home status s) (l : L) : InvElse home status s l :=
  ⟨h.rank, h.inFlight, fun l' _ => h.lock l'⟩

omit [DecidableEq L] in
theorem held_update (hrank : s'.rank = Function.update s.rank r y) (l : L) :
    (fun q => (s'.rank q).held l) = Function.update (fun q => (s.rank q).held l) r (y.held l) := by
  funext q
  rw [hrank]
  by_cases hq : q = r
  · subst hq
    rw [Function.update_self, Function.update_self]
  · rw [Function.update_of_ne hq, Function.update_of_ne hq]

theorem InvElse.update (h : InvElse home status s l) (hrank : s'.rank = Function.update s.rank r y)
    (hy : RankInv x y)
    (hflight : ∀ d, (s'.inFlight d : Multiset (Message n L)) +
      toRank d ((status r).message home r) =
      s.inFlight d + toRank d (x.message home r))
    (hsame : s.SameElse s' l) (hpart : ∀ l', l' ≠ l → x.part l' = (status r).part l')
    (hheld : ∀ l', l' ≠ l → y.held l' = (s.rank r).held l') :
    InvElse home (Function.update status r x) s' l := by
  constructor
  · intro q
    rw [hrank]
    by_cases hq : q = r
    · subst hq
      rw [Function.update_self, Function.update_self]
      exact hy
    · rw [Function.update_of_ne hq, Function.update_of_ne hq]
      exact h.rank q
  · intro d
    have hsum := inTransit_update home status r d x
    rw [← h.inFlight d, ← hflight d] at hsum
    exact (add_right_cancel hsum).symm
  · intro l' hl
    obtain ⟨owner, named, hinv⟩ := h.lock l' hl
    rw [part_update, held_update hrank, hpart l' hl, hheld l' hl,
      Function.update_eq_self r (f := fun q => (status q).part l'),
      Function.update_eq_self r (f := fun q => (s.rank q).held l')]
    refine ⟨owner, named, ?_⟩
    rw [hsame.lock l' hl, hsame.arrived l' hl, hsame.granted l' hl]
    exact hinv

theorem InvElse.toInv (h : InvElse home status s l)
    (hlock : s.LockOk l (fun r => (status r).part l) (fun r => (s.rank r).held l)) :
    Inv home status s := by
  refine ⟨h.rank, h.inFlight, ?_⟩
  intro l'
  by_cases hl : l' = l
  · subst hl
    exact hlock
  · exact h.lock l' hl

/-! ## What the operations do to the locks -/

theorem doLock_rank (s : World n L) (r : Fin n) (l : L) : (s.doLock r l).1.rank = s.rank := by
  rw [World.doLock]
  dsimp only
  split_ifs
  · rfl
  · rfl

theorem doLock_inFlight (s : World n L) (r : Fin n) (l : L) :
    (s.doLock r l).1.inFlight = s.inFlight := by
  rw [World.doLock]
  dsimp only
  split_ifs
  · rfl
  · rfl

theorem doLock_sameElse (s : World n L) (r : Fin n) (l : L) : s.SameElse (s.doLock r l).1 l := by
  rw [World.doLock]
  dsimp only
  constructor
  · intro l' hl
    split_ifs
    · exact Function.update_of_ne hl _ _
    · exact Function.update_of_ne hl _ _
  · intro l' hl
    split_ifs
    · exact Function.update_of_ne hl _ _
    · exact Function.update_of_ne hl _ _
  · intro l' hl
    split_ifs
    · exact Function.update_of_ne hl _ _
    · rfl

/-- A request that reaches the home rank is put into the queue or granted. -/
theorem doLock_lockOk {part : Fin n → Part n} {held : Fin n → Bool} (h : s.LockOk l part held)
    (hr : part r = .absent) :
    (s.doLock r l).2 = .waiting ∧
        (s.doLock r l).1.LockOk l (Function.update part r .queued) held ∨
      (s.doLock r l).2 = .granted ∧
        (s.doLock r l).1.LockOk l (Function.update part r .owner) held := by
  obtain ⟨owner, named, hinv⟩ := h
  cases hlocked : (s.lock l).islocked with
  | true =>
    have hreply : (s.lock l).doLock r =
        ({ s.lock l with wait := (s.lock l).wait.push lockChunk n r }, .waiting) := by
      rw [Lock.doLock, if_pos hlocked]
    refine Or.inl ⟨by rw [World.doLock, hreply], owner, named, ?_⟩
    rw [World.doLock, hreply]
    simpa using hinv.wait hr hlocked
  | false =>
    have hreply : (s.lock l).doLock r = ({ s.lock l with islocked := true }, .granted) := by
      rw [Lock.doLock, if_neg (by simp [hlocked])]
    refine Or.inr ⟨by rw [World.doLock, hreply], some r, named, ?_⟩
    rw [World.doLock, hreply]
    simpa [World.grant] using hinv.grant hlocked

theorem doUnlock_sameElse (s : World n L) (l : L) : s.SameElse (s.doUnlock l).1 l := by
  constructor
  · intro l' hl
    exact Function.update_of_ne hl _ _
  · intro l' _
    rfl
  · intro l' _
    rfl

theorem doUnlock_lockOk {part : Fin n → Part n} {held : Fin n → Bool} (h : s.LockOk l part held)
    (hr : part r = .owner) :
    (s.doUnlock l).2 = (.done, none) ∧
        (s.doUnlock l).1.LockOk l (Function.update part r .absent) held ∨
      ∃ z, (s.doUnlock l).2 = (.handoff, some z) ∧ part z = .queued ∧
        (s.doUnlock l).1.LockOk l
          (Function.update (Function.update part z .handed) r (.naming z)) held := by
  obtain ⟨owner, named, hinv⟩ := h
  by_cases hempty : (s.lock l).wait.head = (s.lock l).wait.tail
  · have hreply : (s.lock l).doUnlock = ({ s.lock l with islocked := false }, .done, none) := by
      rw [Lock.doUnlock, if_neg (not_not.mpr hempty)]
    refine Or.inl ⟨by rw [World.doUnlock, hreply], none, named, ?_⟩
    rw [World.doUnlock, hreply]
    simpa using hinv.free_owner hr (hinv.fits.contents_eq_nil_iff.mpr hempty)
  · have hreply : (s.lock l).doUnlock = ({ s.lock l with wait := (s.lock l).wait.pop }, .handoff,
        some ((s.lock l).wait.buf (s.lock l).wait.head)) := by
      rw [Lock.doUnlock, if_pos hempty]
    have htail : (s.lock l).wait.tail < (s.lock l).wait.size :=
      hinv.fits.tail_lt (hinv.length_lt (r := r) (by simp [hr]))
    have hcontents := hinv.fits.contents_pop htail hempty
    refine Or.inr ⟨(s.lock l).wait.buf (s.lock l).wait.head, by rw [World.doUnlock, hreply], ?_,
      owner, [(s.lock l).wait.buf (s.lock l).wait.head], ?_⟩
    · rw [← hinv.queued, hcontents]
      exact List.mem_cons_self
    · rw [World.doUnlock, hreply]
      simpa using hinv.name hr hcontents (hinv.fits.pop htail)

/-! ## Messages -/

omit [DecidableEq L] in
theorem send_inFlight (s : World n L) (r d : Fin n) (m : Message n L) :
    ((s.send r m).inFlight d : Multiset (Message n L)) = s.inFlight d + toRank d (some (r, m)) := by
  rw [toRank, World.send]
  dsimp only
  split_ifs with hd
  · subst hd
    rw [Function.update_self, ← Multiset.coe_add, Multiset.coe_singleton]
  · rw [Function.update_of_ne (Ne.symm hd), add_zero]

omit [DecidableEq L] in
theorem receive_inFlight {k : ℕ} {m : Message n L} (hk : (s.inFlight r)[k]? = some m) (d : Fin n) :
    ((s.receive r k).inFlight d : Multiset (Message n L)) + toRank d (some (r, m)) =
      s.inFlight d := by
  obtain ⟨hlt, rfl⟩ := List.getElem?_eq_some_iff.mp hk
  rw [toRank, World.receive]
  dsimp only
  split_ifs with hd
  · subst hd
    rw [Function.update_self, ← Multiset.coe_singleton, Multiset.coe_add]
    exact Multiset.coe_eq_coe.mpr
      (List.perm_append_comm.trans (List.getElem_cons_eraseIdx_perm hlt))
  · rw [Function.update_of_ne (Ne.symm hd), add_zero]

/-! ## Steps -/

theorem InvElse.setRank (h : InvElse home status s l) (hrank : s'.rank = s.rank) (hy : RankInv x y)
    (hflight : ∀ d, (s'.inFlight d : Multiset (Message n L)) +
      toRank d ((status r).message home r) =
      s.inFlight d + toRank d (x.message home r))
    (hsame : s.SameElse s' l) (hpart : ∀ l', l' ≠ l → x.part l' = (status r).part l')
    (hheld : ∀ l', l' ≠ l → y.held l' = (s.rank r).held l')
    (hlock : s'.LockOk l (Function.update (fun q => (status q).part l) r (x.part l))
      (Function.update (fun q => (s.rank q).held l) r (y.held l))) :
    Inv home (Function.update status r x) (s'.setRank r y) := by
  have hupdate : (s'.setRank r y).rank = Function.update s.rank r y := by
    rw [World.setRank, hrank]
  have helse : InvElse home (Function.update status r x) (s'.setRank r y) l :=
    h.update hupdate hy hflight ⟨hsame.lock, hsame.arrived, hsame.granted⟩ hpart hheld
  apply helse.toInv
  rw [part_update, held_update hupdate]
  exact hlock

theorem InvElse.keepHeld (h : InvElse home status s l) (hrank : s'.rank = s.rank) (hy : RankInv x y)
    (hheld : y.held = (s.rank r).held)
    (hflight : ∀ d, (s'.inFlight d : Multiset (Message n L)) +
      toRank d ((status r).message home r) =
      s.inFlight d + toRank d (x.message home r))
    (hsame : s.SameElse s' l) (hpart : ∀ l', l' ≠ l → x.part l' = (status r).part l')
    (hlock : s'.LockOk l (Function.update (fun q => (status q).part l) r (x.part l))
      fun q => (s.rank q).held l) :
    Inv home (Function.update status r x) (s'.setRank r y) := by
  apply h.setRank hrank hy hflight hsame hpart
  · intro l' _
    rw [hheld]
  · rw [hheld, Function.update_eq_self r (f := fun q => (s.rank q).held l)]
    exact hlock

omit [DecidableEq L] in
theorem Status.eq_running {x : Status n L} (h : x.phase = .running) : x = .running := by
  cases x with
  | running => rfl
  | _ => cases h

theorem Status.part_of_ne {x : Status n L} {l l' : L} (h : x.phase = .locking l ∨
    x.phase = .unlocking l) (hl : l' ≠ l) : x.part l' = .absent := by
  cases x with
  | running => rfl
  | requesting | finishing | done => rfl
  | queued l₁ | handed l₁ | granting l₁ | granted l₁ =>
    obtain ⟨⟨⟩⟩ | ⟨⟨⟩⟩ := h
    exact if_neg (Ne.symm hl)
  | releasing l₁ | handing l₁ _ | handoff l₁ _ =>
    obtain ⟨⟨⟩⟩ | ⟨⟨⟩⟩ := h
    exact if_neg (Ne.symm hl)

theorem Inv.lockCall (h : Inv home status s) (hr : (s.rank r).phase = .running) (l : L) :
    ∃ status', Inv home status' (s.lockCall home r l) := by
  have hst : status r = .running := Status.eq_running (by rw [← (h.rank r).phase, hr])
  have hpart : ∀ x : Status n L, x.phase = .locking l → ∀ l', l' ≠ l →
      x.part l' = (status r).part l' := by
    intro x hx l' hl
    rw [Status.part_of_ne (Or.inl hx) hl, hst]
    rfl
  rw [World.lockCall]
  dsimp only
  split_ifs with hhome
  · have hdone := doLock_lockOk (h.lock l) (r := r) (by rw [hst]; rfl)
    have hflight : ∀ x : Status n L, x.message home r = none → ∀ d,
        ((s.doLock r l).1.inFlight d : Multiset (Message n L)) +
          toRank d ((status r).message home r) = s.inFlight d + toRank d (x.message home r) := by
      intro x hx d
      rw [doLock_inFlight, hst, hx]
      rfl
    obtain ⟨hreply, hlock⟩ | ⟨hreply, hlock⟩ := hdone
    · refine ⟨_, (h.toElse l).keepHeld (x := .queued l) (doLock_rank s r l) ?_ rfl (hflight _ rfl)
        (doLock_sameElse s r l) (hpart _ rfl) ?_⟩
      · exact ⟨rfl, by simp [Status.lockstate, hreply], by simp [Status.handoffarg]⟩
      · rw [Status.part, if_pos rfl]
        exact hlock
    · refine ⟨_, (h.toElse l).keepHeld (x := .granted l) (doLock_rank s r l) ?_ rfl (hflight _ rfl)
        (doLock_sameElse s r l) (hpart _ rfl) ?_⟩
      · exact ⟨rfl, by simp [Status.lockstate, hreply], by simp [Status.handoffarg]⟩
      · rw [Status.part, if_pos rfl]
        exact hlock
  · refine ⟨_, (h.toElse l).keepHeld (x := .requesting l) rfl ?_ rfl ?_ ?_ (hpart _ rfl) ?_⟩
    · exact ⟨rfl, by simp [Status.lockstate], by simp [Status.handoffarg]⟩
    · intro d
      rw [hst, send_inFlight]
      exact add_zero _
    · exact ⟨fun _ _ => rfl, fun _ _ => rfl, fun _ _ => rfl⟩
    · have hsame : Function.update (fun q => (status q).part l) r .absent =
          fun q => (status q).part l := by
        apply Function.update_eq_self_iff.mpr
        rw [hst]
        rfl
      show s.LockOk l (Function.update _ r .absent) _
      rw [hsame]
      exact h.lock l

theorem Status.eq_queued {x : Status n L} (h : x.part l = .queued) : x = .queued l := by
  cases x with
  | queued l' =>
    rw [Status.part] at h
    split_ifs at h with hl
    rw [hl]
  | running | requesting | finishing | done => cases h
  | handed | granting | granted | releasing | handing | handoff =>
    rw [Status.part] at h
    split_ifs at h

theorem Status.eq_handed {x : Status n L} (h : x.part l = .handed) : x = .handed l := by
  cases x with
  | handed l' =>
    rw [Status.part] at h
    split_ifs at h with hl
    rw [hl]
  | running | requesting | finishing | done => cases h
  | queued | granting | granted | releasing | handing | handoff =>
    rw [Status.part] at h
    split_ifs at h

theorem part_handed {z : Fin n} :
    (fun q => (Function.update status z (.handed l) q).part l) =
      Function.update (fun q => (status q).part l) z .handed := by
  rw [part_update, Status.part, if_pos rfl]

theorem InvElse.handed (h : InvElse home status s l) {z : Fin n} (hz : status z = .queued l) :
    InvElse home (Function.update status z (.handed l)) s l := by
  have hrank := h.rank z
  rw [hz] at hrank
  have hhanded : RankInv (.handed l) (s.rank z) := ⟨hrank.phase, hrank.lockstate, hrank.handoffarg⟩
  apply h.update (Function.update_eq_self z s.rank).symm hhanded
  · intro d
    rw [hz]
    rfl
  · exact ⟨fun _ _ => rfl, fun _ _ => rfl, fun _ _ => rfl⟩
  · intro l' hl
    rw [hz, Status.part_of_ne (Or.inl rfl) hl, Status.part_of_ne (Or.inl rfl) hl]
  · intro l' _
    rfl

theorem Inv.unlockCall (h : Inv home status s) (hr : (s.rank r).phase = .running)
    (hheld : (s.rank r).held l = true) : ∃ status', Inv home status' (s.unlockCall home r l) := by
  have hst : status r = .running := Status.eq_running (by rw [← (h.rank r).phase, hr])
  have hpart : ∀ x : Status n L, x.phase = .unlocking l → ∀ l', l' ≠ l →
      x.part l' = (status r).part l' := by
    intro x hx l' hl
    rw [Status.part_of_ne (Or.inr hx) hl, hst]
    rfl
  have hkeep : ∀ l', l' ≠ l → Function.update (s.rank r).held l false l' = (s.rank r).held l' :=
    fun l' hl => Function.update_of_ne hl _ _
  have hfalse : Function.update (s.rank r).held l false l = false := Function.update_self _ _ _
  have howner : s.LockOk l (Function.update (fun q => (status q).part l) r .owner)
      (Function.update (fun q => (s.rank q).held l) r false) := by
    obtain ⟨owner, named, hinv⟩ := h.lock l
    exact ⟨owner, named, hinv.unhold (by rw [hst]; rfl) hheld⟩
  rw [World.unlockCall]
  dsimp only
  split_ifs with hhome
  · obtain ⟨hreply, hlock⟩ | ⟨z, hreply, hz, hlock⟩ :=
      doUnlock_lockOk howner (Function.update_self r _ _)
    · rw [Function.update_idem] at hlock
      refine ⟨_, (h.toElse l).setRank (x := .done l) rfl ?_ ?_ (doUnlock_sameElse s l) (hpart _ rfl)
        hkeep ?_⟩
      · exact ⟨rfl, by simp [Status.lockstate, hreply], by simp [Status.handoffarg]⟩
      · intro d
        rw [hst]
        rfl
      · simp only [hfalse]
        exact hlock
    · have hzr : z ≠ r := by
        rintro rfl
        rw [Function.update_self] at hz
        cases hz
      rw [Function.update_of_ne hzr] at hz
      have hqueued : status z = .queued l := Status.eq_queued hz
      have hswap : ∀ p : Fin n → Part n,
          Function.update (Function.update (Function.update p r .owner) z .handed) r (.naming z) =
            Function.update (Function.update p z .handed) r (.naming z) := by
        intro p
        rw [Function.update_comm hzr, Function.update_idem, Function.update_comm hzr]
      rw [hswap, ← part_handed] at hlock
      refine ⟨_, ((h.toElse l).handed hqueued).setRank (x := .handoff l z) rfl ?_ ?_
        (doUnlock_sameElse s l) ?_ hkeep ?_⟩
      · exact ⟨rfl, by simp [Status.lockstate, hreply], by simp [Status.handoffarg, hreply]⟩
      · intro d
        rw [Function.update_of_ne hzr.symm, hst]
        rfl
      · rw [Function.update_of_ne hzr.symm]
        exact hpart _ rfl
      · simp only [Status.part, if_true, hfalse]
        exact hlock
  · refine ⟨_, (h.toElse l).setRank (x := .releasing l) rfl ?_ ?_ ?_ (hpart _ rfl) hkeep ?_⟩
    · exact ⟨rfl, by simp [Status.lockstate], by simp [Status.handoffarg]⟩
    · intro d
      rw [hst, send_inFlight]
      exact add_zero _
    · exact ⟨fun _ _ => rfl, fun _ _ => rfl, fun _ _ => rfl⟩
    · simp only [Status.part, if_true, hfalse]
      exact howner

theorem Inv.lockReturn (h : Inv home status s) (hr : (s.rank r).phase = .locking l)
    (hwake : (s.rank r).lockstate ≠ .waiting) : ∃ status', Inv home status' (s.lockReturn r l) := by
  have hrank := h.rank r
  have hst : status r = .granted l := by
    have hphase := hrank.phase
    rw [hr] at hphase
    have hstate := hrank.lockstate
    cases hx : status r with
    | granted l' =>
      rw [hx] at hphase
      cases hphase
      rfl
    | requesting | queued | handed | granting =>
      rw [hx] at hstate
      exact absurd (hstate _ rfl) hwake
    | running | releasing | handing | handoff | finishing | done =>
      rw [hx] at hphase
      cases hphase
  have htrue : Function.update (s.rank r).held l true l = true := Function.update_self _ _ _
  refine ⟨_, (h.toElse l).setRank (x := .running) rfl ?_ ?_ ?_ ?_ ?_ ?_⟩
  · exact ⟨rfl, by simp [Status.lockstate], by simp [Status.handoffarg]⟩
  · intro d
    rw [hst]
    rfl
  · exact ⟨fun _ _ => rfl, fun _ _ => rfl, fun _ _ => rfl⟩
  · intro l' hl
    rw [hst]
    exact (Status.part_of_ne (x := .granted l) (Or.inl rfl) hl).symm
  · exact fun l' hl => Function.update_of_ne hl _ _
  · simp only [htrue]
    obtain ⟨owner, named, hinv⟩ := h.lock l
    exact ⟨owner, named, hinv.hold (by rw [hst, Status.part, if_pos rfl])⟩

theorem Inv.unlockReturn (h : Inv home status s) (hr : (s.rank r).phase = .unlocking l)
    (hwake : (s.rank r).lockstate ≠ .waiting) :
    ∃ status', Inv home status' (s.unlockReturn r l) := by
  have hrank := h.rank r
  have hphase := hrank.phase
  have hstate := hrank.lockstate
  have harg := hrank.handoffarg
  rw [hr] at hphase
  have hpart : ∀ x : Status n L, x.phase = .unlocking l → ∀ l', l' ≠ l →
      Status.running.part l' = x.part l' := by
    intro x hx l' hl
    rw [Status.part_of_ne (Or.inr hx) hl]
    rfl
  cases hst : status r with
  | done l' =>
    rw [hst] at hphase hstate
    cases hphase
    have hdone : (s.rank r).lockstate = .done := hstate _ rfl
    rw [World.unlockReturn]
    dsimp only
    rw [if_neg (by rw [hdone]; decide)]
    refine ⟨_, (h.toElse l).keepHeld (x := .running) rfl ?_ rfl ?_ ?_ ?_ ?_⟩
    · exact ⟨rfl, by simp [Status.lockstate], by simp [Status.handoffarg]⟩
    · intro d
      rw [hst]
      rfl
    · exact ⟨fun _ _ => rfl, fun _ _ => rfl, fun _ _ => rfl⟩
    · rw [hst]
      exact hpart _ rfl
    · have hsame : Function.update (fun q => (status q).part l) r .absent =
          fun q => (status q).part l := by
        apply Function.update_eq_self_iff.mpr
        rw [hst]
        rfl
      show s.LockOk l (Function.update _ r .absent) _
      rw [hsame]
      exact h.lock l
  | handoff l' z =>
    rw [hst] at hphase hstate harg
    cases hphase
    have hhandoff : (s.rank r).lockstate = .handoff := hstate _ rfl
    have hz : (s.rank r).handoffarg = z := harg _ rfl
    obtain ⟨owner, named, hinv⟩ := h.lock l
    have hnaming : (status r).part l = .naming z := by rw [hst, Status.part, if_pos rfl]
    have hhanded : status z = .handed l := by
      apply Status.eq_handed
      exact (hinv.handed z).mpr (by rw [hinv.naming r z hnaming]; exact List.mem_singleton.mpr rfl)
    have hzr : z ≠ r := by
      rintro rfl
      rw [hst] at hhanded
      cases hhanded
    rw [World.unlockReturn]
    dsimp only
    rw [if_pos hhandoff, hz, if_neg hzr]
    have hzrank := h.rank z
    rw [hhanded] at hzrank
    have hgrant : InvElse home (Function.update status z (.granting l))
        ((s.grant l z).send z (.setLockState .granted)) l := by
      have hgranting : RankInv (.granting l) (s.rank z) :=
        ⟨hzrank.phase, hzrank.lockstate, hzrank.handoffarg⟩
      have hsent : ((s.grant l z).send z (.setLockState .granted)).rank =
          Function.update s.rank z (s.rank z) := (Function.update_eq_self z s.rank).symm
      apply (h.toElse l).update hsent hgranting
      · intro d
        rw [hhanded, send_inFlight]
        exact add_zero _
      · exact ⟨fun _ _ => rfl, fun _ _ => rfl, fun _ hl => Function.update_of_ne hl _ _⟩
      · intro l' hl
        rw [hhanded, Status.part_of_ne (Or.inl rfl) hl, Status.part_of_ne (Or.inl rfl) hl]
      · intro l' _
        rfl
    refine ⟨_, hgrant.keepHeld (x := .running) rfl ?_ rfl ?_ ?_ ?_ ?_⟩
    · exact ⟨rfl, by simp [Status.lockstate], by simp [Status.handoffarg]⟩
    · intro d
      rw [Function.update_of_ne hzr.symm, hst]
      rfl
    · exact ⟨fun _ _ => rfl, fun _ _ => rfl, fun _ _ => rfl⟩
    · rw [Function.update_of_ne hzr.symm, hst]
      exact hpart _ rfl
    · have howner : (Status.granting l : Status n L).part l = .owner := if_pos rfl
      have habsent : (Status.running : Status n L).part l = .absent := rfl
      rw [part_update, howner, habsent]
      refine ⟨some z, [], ?_⟩
      simpa [World.grant, World.send] using hinv.pass hnaming
  | releasing | handing | finishing =>
    rw [hst] at hstate
    exact absurd (hstate _ rfl) hwake
  | running | requesting | queued | handed | granting | granted =>
    rw [hst] at hphase
    cases hphase

/-- A step on lock `l` after which the call of rank `r` stands otherwise; the rank has not
noticed. -/
theorem InvElse.newStatus (h : InvElse home status s l) (hrank : s'.rank = s.rank)
    (hx : RankInv x (s.rank r))
    (hflight : ∀ d, (s'.inFlight d : Multiset (Message n L)) +
      toRank d ((status r).message home r) =
      s.inFlight d + toRank d (x.message home r))
    (hsame : s.SameElse s' l) (hpart : ∀ l', l' ≠ l → x.part l' = (status r).part l')
    (hlock : s'.LockOk l (Function.update (fun q => (status q).part l) r (x.part l))
      fun q => (s.rank q).held l) :
    Inv home (Function.update status r x) s' := by
  have hset : s'.setRank r (s.rank r) = s' := by
    rw [World.setRank, ← hrank, Function.update_eq_self]
  rw [← hset]
  exact h.keepHeld hrank hx rfl hflight hsame hpart hlock

theorem Inv.lockRequest (h : Inv home status s) {k : ℕ} (hst : status r = .requesting l)
    (hk : (s.inFlight (home l))[k]? = some (.lockRequest r l)) :
    ∃ status', Inv home status' ((s.receive (home l) k).handle (home l) (.lockRequest r l)) := by
  have hrank := h.rank r
  rw [hst] at hrank
  have hpart : ∀ x : Status n L, x.phase = .locking l → ∀ l', l' ≠ l →
      x.part l' = (status r).part l' := by
    intro x hx l' hl
    rw [Status.part_of_ne (Or.inl hx) hl, hst]
    rfl
  have hok : (s.receive (home l) k).LockOk l (fun q => (status q).part l)
      fun q => (s.rank q).held l := h.lock l
  have hsame := doLock_sameElse (s.receive (home l) k) r l
  rw [World.handle]
  dsimp only
  obtain ⟨hreply, hlock⟩ | ⟨hreply, hlock⟩ := doLock_lockOk hok (r := r) (by rw [hst]; rfl)
  · rw [if_neg (by rw [hreply]; decide)]
    have hqueued : (Status.queued l : Status n L).part l = .queued := if_pos rfl
    refine ⟨_, (h.toElse l).newStatus (x := .queued l) (doLock_rank _ r l) ?_ ?_
      ⟨hsame.lock, hsame.arrived, hsame.granted⟩ (hpart _ rfl) ?_⟩
    · exact ⟨hrank.phase, hrank.lockstate, hrank.handoffarg⟩
    · intro d
      rw [doLock_inFlight, hst]
      exact (receive_inFlight hk d).trans (add_zero _).symm
    · rw [hqueued]
      exact hlock
  · rw [if_pos (by rw [hreply]; decide), hreply]
    have howner : (Status.granting l : Status n L).part l = .owner := if_pos rfl
    refine ⟨_, (h.toElse l).newStatus (x := .granting l) (doLock_rank _ r l) ?_ ?_
      ⟨hsame.lock, hsame.arrived, hsame.granted⟩ (hpart _ rfl) ?_⟩
    · exact ⟨hrank.phase, hrank.lockstate, hrank.handoffarg⟩
    · intro d
      rw [send_inFlight, doLock_inFlight, hst, ← receive_inFlight hk d]
      exact add_right_comm _ _ _
    · rw [howner]
      exact hlock

theorem Inv.unlockRequest (h : Inv home status s) {k : ℕ} (hst : status r = .releasing l)
    (hk : (s.inFlight (home l))[k]? = some (.unlockRequest r l)) :
    ∃ status', Inv home status' ((s.receive (home l) k).handle (home l) (.unlockRequest r l)) := by
  have hrank := h.rank r
  rw [hst] at hrank
  have howner : (status r).part l = .owner := by rw [hst, Status.part, if_pos rfl]
  have hpart : ∀ x : Status n L, x.phase = .unlocking l → ∀ l', l' ≠ l →
      x.part l' = (status r).part l' := by
    intro x hx l' hl
    rw [Status.part_of_ne (Or.inr hx) hl, hst]
    exact (if_neg (Ne.symm hl)).symm
  have hok : (s.receive (home l) k).LockOk l (fun q => (status q).part l)
      fun q => (s.rank q).held l := h.lock l
  have hsame := doUnlock_sameElse (s.receive (home l) k) l
  obtain ⟨hreply, hlock⟩ | ⟨z, hreply, hz, hlock⟩ := doUnlock_lockOk hok howner
  · have hhandle : (s.receive (home l) k).handle (home l) (.unlockRequest r l) =
        ((s.receive (home l) k).doUnlock l).1.send r (.setLockState .done) := by
      rw [World.handle, ← Prod.eta ((s.receive (home l) k).doUnlock l), hreply]
    rw [hhandle]
    refine ⟨_, (h.toElse l).newStatus (x := .finishing l) rfl ?_ ?_
      ⟨hsame.lock, hsame.arrived, hsame.granted⟩ (hpart _ rfl) hlock⟩
    · exact ⟨hrank.phase, hrank.lockstate, hrank.handoffarg⟩
    · intro d
      rw [send_inFlight, hst, ← receive_inFlight hk d]
      exact add_right_comm _ _ _
  · have hhandle : (s.receive (home l) k).handle (home l) (.unlockRequest r l) =
        ((s.receive (home l) k).doUnlock l).1.send r (.lockHandoff z) := by
      rw [World.handle, ← Prod.eta ((s.receive (home l) k).doUnlock l), hreply]
    rw [hhandle]
    have hqueued : status z = .queued l := Status.eq_queued hz
    have hrz : r ≠ z := by
      rintro rfl
      rw [hst] at hqueued
      cases hqueued
    have hnaming : (Status.handing l z : Status n L).part l = .naming z := if_pos rfl
    refine ⟨_, ((h.toElse l).handed hqueued).newStatus (r := r) (x := .handing l z) rfl ?_ ?_
      ⟨hsame.lock, hsame.arrived, hsame.granted⟩ ?_ ?_⟩
    · exact ⟨hrank.phase, hrank.lockstate, by simp [Status.handoffarg]⟩
    · intro d
      rw [send_inFlight, Function.update_of_ne hrz, hst, ← receive_inFlight hk d]
      exact add_right_comm _ _ _
    · rw [Function.update_of_ne hrz]
      exact hpart _ rfl
    · rw [part_handed, hnaming]
      exact hlock

theorem Inv.setState (h : Inv home status s) {k : ℕ} {m : Message n L}
    (hk : (s.inFlight r)[k]? = some m) (hm : (status r).message home r = some (r, m))
    (hy : RankInv x y) (hheld : y.held = (s.rank r).held) (hnone : x.message home r = none)
    (hpart : ∀ l, x.part l = (status r).part l) (l : L) :
    Inv home (Function.update status r x) ((s.receive r k).setRank r y) := by
  have hsame : (s.receive r k).rank = s.rank := rfl
  apply (h.toElse l).keepHeld hsame hy hheld
  · intro d
    rw [hm, hnone]
    exact (receive_inFlight hk d).trans (add_zero _).symm
  · exact ⟨fun _ _ => rfl, fun _ _ => rfl, fun _ _ => rfl⟩
  · intro l' _
    exact hpart l'
  · rw [hpart, Function.update_eq_self r (f := fun q => (status q).part l)]
    exact h.lock l

theorem Inv.deliver (h : Inv home status s) {d : Fin n} {k : ℕ} {m : Message n L}
    (hk : (s.inFlight d)[k]? = some m) :
    ∃ status', Inv home status' ((s.receive d k).handle d m) := by
  have hmem : m ∈ inTransit home status d := by
    rw [← h.inFlight d]
    exact Multiset.mem_coe.mpr (List.mem_of_getElem? hk)
  obtain ⟨r, hm⟩ := mem_inTransit hmem
  have hrank := h.rank r
  cases hst : status r with
  | requesting l =>
    rw [hst] at hm
    cases hm
    exact h.lockRequest hst hk
  | releasing l =>
    rw [hst] at hm
    cases hm
    exact h.unlockRequest hst hk
  | granting l =>
    rw [hst] at hm hrank
    cases hm
    refine ⟨_, h.setState (x := .granted l) hk (by rw [hst]; rfl) ?_ rfl rfl ?_ l⟩
    · exact ⟨hrank.phase, by simp [Status.lockstate], by simp [Status.handoffarg]⟩
    · intro l'
      rw [hst]
      rfl
  | handing l z =>
    rw [hst] at hm hrank
    cases hm
    refine ⟨_, h.setState (x := .handoff l z) hk (by rw [hst]; rfl) ?_ rfl rfl ?_ l⟩
    · exact ⟨hrank.phase, by simp [Status.lockstate], by simp [Status.handoffarg]⟩
    · intro l'
      rw [hst]
      rfl
  | finishing l =>
    rw [hst] at hm hrank
    cases hm
    refine ⟨_, h.setState (x := .done l) hk (by rw [hst]; rfl) ?_ rfl rfl ?_ l⟩
    · exact ⟨hrank.phase, by simp [Status.lockstate], by simp [Status.handoffarg]⟩
    · intro l'
      rw [hst]
      rfl
  | running | queued | handed | granted | handoff | done =>
    rw [hst] at hm
    cases hm

theorem Inv.step {m : Move n L} (h : Inv home status s) (hs : step home m s = some s') :
    ∃ status', Inv home status' s' := by
  cases m with
  | lock r l =>
    simp only [GasnetLock.step] at hs
    split_ifs at hs with hr
    cases hs
    exact h.lockCall hr l
  | unlock r l =>
    simp only [GasnetLock.step] at hs
    split_ifs at hs with hr
    cases hs
    exact h.unlockCall hr.1 hr.2
  | wake r =>
    simp only [GasnetLock.step] at hs
    split_ifs at hs with hwake
    split at hs
    · cases hs
    · next l hphase =>
      cases hs
      exact h.lockReturn hphase hwake
    · next l hphase =>
      cases hs
      exact h.unlockReturn hphase hwake
  | deliver d k =>
    obtain ⟨m, hk, rfl⟩ := Option.map_eq_some_iff.mp hs
    exact h.deliver hk

end Steps

section Reachable

variable {home : L → Fin n} {s : World n L}

theorem Start.inv (home : L → Fin n) (h : Start s) : Inv home (fun _ => .running) s := by
  constructor
  · intro r
    exact ⟨h.phase r, by simp [Status.lockstate], by simp [Status.handoffarg]⟩
  · intro d
    rw [h.inFlight d, inTransit]
    exact (Finset.sum_eq_zero fun _ _ => rfl).symm
  · intro l
    have hpos : 0 < min lockChunk n := lt_min (by decide) (Fin.pos (home l))
    have hfits : (s.lock l).wait.Fits n := by
      refine ⟨?_, ?_, Or.inl ?_⟩
      · rw [h.head, h.size]
        exact hpos
      · rw [h.size]
        exact min_le_right _ _
      · rw [h.tail, h.size]
        exact hpos
    have hempty : (s.lock l).wait.contents = [] :=
      hfits.contents_eq_nil_iff.mpr ((h.head l).trans (h.tail l).symm)
    refine ⟨none, [], ?_⟩
    constructor
    · exact hfits
    · rw [hempty]
      exact List.nodup_nil
    · intro r
      rw [hempty]
      simp [Status.part]
    · intro r
      simp [Status.part, Part.IsOwner, h.held]
    · intro r _
      exact h.held r l
    · exact h.islocked l
    · intro r
      simp [Status.part]
    · rintro o z ⟨⟩
    · rintro z ⟨⟩
    · rw [h.arrived, h.granted, hempty]
      rfl
    · intro _
      exact hempty

theorem reachable_inv (h : Reachable Start (step home) s) : ∃ status, Inv home status s := by
  apply Reachable.invariant h
  · intro s hs
    exact ⟨_, hs.inv home⟩
  · rintro m s s' ⟨status, hi⟩ hs
    exact hi.step hs

/-! ## Where a rank waits -/

namespace World

/-- Hand-offs of lock `l` to rank `r`, on their way or received by the rank that gives it back. -/
def handoffs (s : World n L) (l : L) (r : Fin n) : ℕ :=
  ∑ q, if (s.rank q).phase = .unlocking l then
    (s.inFlight q).count (.lockHandoff r) +
      if (s.rank q).lockstate = .handoff ∧ (s.rank q).handoffarg = r then 1 else 0
  else 0

def requests (home : L → Fin n) (s : World n L) (l : L) (r : Fin n) : ℕ :=
  (s.inFlight (home l)).count (.lockRequest r l)

def waits (s : World n L) (l : L) (r : Fin n) : ℕ := (s.lock l).wait.contents.count r

/-- Grants on their way to rank `r`. -/
def grants (s : World n L) (r : Fin n) : ℕ := (s.inFlight r).count (.setLockState .granted)

end World

omit [DecidableEq L] in
theorem Status.locking_cases {x : Status n L} {l : L} (h : x.phase = .locking l) :
    x = .requesting l ∨ x = .queued l ∨ x = .handed l ∨ x = .granting l ∨ x = .granted l := by
  cases x with
  | requesting | queued | handed | granting | granted =>
    cases h
    simp
  | running | releasing | handing | handoff | finishing | done => cases h

/-- The rank whose call the message to `d` belongs to. -/
def Message.caller (d : Fin n) : Message n L → Fin n
  | .lockRequest node _ | .unlockRequest node _ => node
  | .setLockState _ | .lockHandoff _ => d

omit [DecidableEq L] in
theorem Status.caller_message {x : Status n L} {r d : Fin n} {m : Message n L}
    (h : x.message home r = some (d, m)) : m.caller d = r := by
  cases x with
  | requesting | granting | releasing | handing | finishing =>
    cases h
    rfl
  | running | queued | handed | granted | handoff | done => cases h

theorem count_toRank (d : Fin n) (m : Message n L) (o : Option (Fin n × Message n L)) :
    (toRank d o).count m = if o = some (d, m) then 1 else 0 := by
  cases o with
  | none => rfl
  | some p =>
    obtain ⟨d', m'⟩ := p
    rw [toRank]
    by_cases hd : d' = d
    · subst hd
      rw [if_pos rfl, Multiset.count_singleton]
      simp [eq_comm]
    · rw [if_neg hd]
      simp [hd]

theorem Inv.count_inFlight {status : Fin n → Status n L} (h : Inv home status s) (d : Fin n)
    (m : Message n L) : (s.inFlight d).count m =
      if (status (m.caller d)).message home (m.caller d) = some (d, m) then 1 else 0 := by
  rw [← Multiset.coe_count, h.inFlight d, inTransit, Multiset.count_sum']
  rw [Finset.sum_eq_single (m.caller d)]
  · exact count_toRank _ _ _
  · intro q _ hq
    rw [count_toRank, if_neg]
    intro hm
    exact hq (Status.caller_message hm).symm
  · intro hnot
    exact absurd (Finset.mem_univ _) hnot

/-- The hand-offs of a lock are those to the rank that the owner names. -/
theorem Inv.handoffs_eq {status : Fin n → Status n L} (h : Inv home status s) (l : L) (r : Fin n) :
    s.handoffs l r = ∑ q, if (status q).part l = .naming r then 1 else 0 := by
  apply Finset.sum_congr rfl
  intro q _
  have hrank := h.rank q
  rw [h.count_inFlight, hrank.phase]
  cases hst : status q with
  | handing l' z | handoff l' z | releasing l' | finishing l' | done l' =>
    rw [hst] at hrank
    have hstate := hrank.lockstate
    have harg := hrank.handoffarg
    simp only [Status.lockstate, Status.handoffarg, Option.mem_def, Option.some.injEq,
      forall_eq'] at hstate harg
    by_cases hl : l' = l
    · simp [Status.phase, Status.part, Status.message, Message.caller, hst, hstate, harg, hl]
    · simp [Status.phase, Status.part, hl]
  | running | requesting => simp [Status.phase, Status.part]
  | queued l' | handed l' | granting l' | granted l' =>
    by_cases hl : l' = l
    · simp [Status.phase, Status.part, hl]
    · simp [Status.phase, Status.part, hl]

theorem LockInv.count_naming {lock : Lock n} {arrived granted : List (Fin n)}
    {part : Fin n → Part n} {held : Fin n → Bool} {owner : Option (Fin n)} {named : List (Fin n)}
    (h : LockInv lock arrived granted part held owner named) (r : Fin n) :
    (∑ q, if part q = .naming r then 1 else 0) = named.count r := by
  by_cases hr : r ∈ named
  · obtain ⟨o, ho⟩ := h.namer r hr
    have howner := (h.owner_iff o).mp (Or.inl (by rw [ho]; trivial))
    rw [Finset.sum_eq_single o, if_pos ho, h.naming o r ho, List.count_singleton_self]
    · intro q _ hq
      rw [if_neg]
      intro hn
      have hqowner := (h.owner_iff q).mp (Or.inl (by rw [hn]; trivial))
      exact hq (Option.some.inj (hqowner.symm.trans howner))
    · intro hnot
      exact absurd (Finset.mem_univ o) hnot
  · rw [List.count_eq_zero.mpr hr]
    apply Finset.sum_eq_zero
    intro q _
    rw [if_neg]
    intro hn
    rw [h.naming q r hn] at hr
    exact hr List.mem_cons_self

/-- A rank that waits in `lock` is in one place: its request is on its way, or it is in the queue,
or it has been named, or its grant is on its way or has arrived. -/
theorem Inv.place {status : Fin n → Status n L} (h : Inv home status s) {r : Fin n} {l : L}
    (hr : (s.rank r).phase = .locking l) :
    s.requests home l r + s.waits l r + s.handoffs l r + s.grants r +
      (if (s.rank r).lockstate = .granted then 1 else 0) = 1 := by
  obtain ⟨owner, named, hinv⟩ := h.lock l
  have hrank := h.rank r
  have hphase := hrank.phase
  have hstate := hrank.lockstate
  have hwaits : s.waits l r = if (status r).part l = .queued then 1 else 0 := by
    rw [World.waits]
    split_ifs with hq
    · exact List.count_eq_one_of_mem hinv.nodup ((hinv.queued r).mpr hq)
    · exact List.count_eq_zero.mpr fun hin => hq ((hinv.queued r).mp hin)
  have hhandoffs : s.handoffs l r = if (status r).part l = .handed then 1 else 0 := by
    rw [h.handoffs_eq, hinv.count_naming r]
    split_ifs with hq
    · have hmem := (hinv.handed r).mp hq
      obtain ⟨o, ho⟩ := hinv.namer r hmem
      rw [hinv.naming o r ho, List.count_singleton_self]
    · exact List.count_eq_zero.mpr fun hin => hq ((hinv.handed r).mpr hin)
  rw [World.requests, World.grants, h.count_inFlight, h.count_inFlight, hwaits, hhandoffs]
  obtain hst | hst | hst | hst | hst := Status.locking_cases (hphase.symm.trans hr)
  all_goals
    rw [hst] at hstate
    have hone := hstate _ rfl
    simp [Message.caller, Status.message, Status.part, hst, hone]

/-- Of each lock at most one rank is between the return of `lock` and the call of `unlock`. A rank
that is blocked in `lock` is in one place. The requests of a lock, in the order in which they
reached the home rank, are those that have been granted, in their order, then the one that is handed
over, then the queue; so no request in the queue is lost or overwritten. And a request finds a free
entry of the queue. -/
structure Safe (home : L → Fin n) (s : World n L) : Prop where
  exclusive : ∀ l r r', (s.rank r).held l = true → (s.rank r').held l = true → r = r'
  place : ∀ l r, (s.rank r).phase = .locking l → s.requests home l r + s.waits l r +
    s.handoffs l r + s.grants r + (if (s.rank r).lockstate = .granted then 1 else 0) = 1
  fifo : ∀ l, ∃ named, named.length ≤ 1 ∧ (∀ r, named.count r = s.handoffs l r) ∧
    s.arrived l = s.granted l ++ named ++ (s.lock l).wait.contents
  room : ∀ l r, r ∉ (s.lock l).wait.contents → (s.lock l).wait.tail < (s.lock l).wait.size

/-- However the ranks and the messages take turns. -/
theorem gasnetLock_safe (home : L → Fin n) (s : World n L) (h : Reachable Start (step home) s) :
    Safe home s := by
  obtain ⟨status, hi⟩ := reachable_inv h
  constructor
  · intro l r r' hr hr'
    obtain ⟨owner, named, hinv⟩ := hi.lock l
    have h₁ := (hinv.owner_iff r).mp (Or.inr hr)
    have h₂ := (hinv.owner_iff r').mp (Or.inr hr')
    exact Option.some.inj (h₁.symm.trans h₂)
  · intro l r hr
    exact hi.place hr
  · intro l
    obtain ⟨owner, named, hinv⟩ := hi.lock l
    refine ⟨named, ?_, ?_, hinv.fifo⟩
    · cases named with
      | nil => exact Nat.zero_le 1
      | cons z rest =>
        obtain ⟨o, ho⟩ := hinv.namer z List.mem_cons_self
        rw [hinv.naming o z ho]
        exact le_rfl
    · intro r
      rw [hi.handoffs_eq, hinv.count_naming r]
  · intro l r hr
    obtain ⟨owner, named, hinv⟩ := hi.lock l
    apply hinv.fits.tail_lt
    apply hinv.length_lt (r := r)
    intro hq
    exact hr ((hinv.queued r).mpr hq)

end Reachable

/-! ## Two ranks -/

def initialLock : Lock 2 := ⟨false, fun _ => 0, 2, 0, 0⟩

def twoStart : World 2 Unit :=
  ⟨fun _ => ⟨.running, .done, 0, fun _ => false⟩, fun _ => initialLock, fun _ => [], fun _ => [],
    fun _ => []⟩

theorem twoStart_start : Start twoStart :=
  ⟨fun _ => rfl, fun _ _ => rfl, fun _ => rfl, fun _ => rfl, fun _ => rfl, fun _ => rfl,
    fun _ => rfl, fun _ => rfl, fun _ => rfl⟩

def twoHome : Unit → Fin 2 := fun _ => 0

/-- The first rank, which is the home rank, takes the lock; the second one asks for it, and is
handed it. -/
def twoMoves : List (Move 2 Unit) :=
  [.lock 0 (), .wake 0, .lock 1 (), .deliver 0 0, .unlock 0 (), .wake 0, .deliver 1 0, .wake 1]

def twoWorld : World 2 Unit := (run (step twoHome) twoMoves twoStart).getD twoStart

theorem gasnetLock_safe_two : run (step twoHome) twoMoves twoStart = some twoWorld ∧
    (twoWorld.rank 1).held () = true ∧ twoWorld.granted () = [0, 1] ∧ Safe twoHome twoWorld := by
  have hrun : run (step twoHome) twoMoves twoStart = some twoWorld := rfl
  refine ⟨hrun, by decide, by decide, ?_⟩
  exact gasnetLock_safe twoHome twoWorld (reachable_of_run twoMoves twoStart_start hrun)

def requestedWorld : World 2 Unit := (run (step twoHome) [.lock 1 ()] twoStart).getD twoStart

/-- A rank blocked in `lock` need not be in the queue, nor need a grant to it be on its way. -/
theorem blocked_elsewhere : ∃ s, Reachable Start (step twoHome) s ∧
    (s.rank 1).phase = .locking () ∧ (s.rank 1).lockstate = .waiting ∧
    ¬(s.waits () 1 = 1 ∨ s.handoffs () 1 + s.grants 1 = 1) := by
  have hrun : run (step twoHome) [.lock 1 ()] twoStart = some requestedWorld := rfl
  refine ⟨requestedWorld, reachable_of_run _ twoStart_start hrun, rfl, rfl, ?_⟩
  decide

end OmniCompiler.Xmp.GasnetLock
