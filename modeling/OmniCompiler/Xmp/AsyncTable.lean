import Mathlib.Data.List.Nodup
import Mathlib.Tactic

/-!
# Table of asynchronous communications (`xmp_async.c`)

Ids with the same remainder share a slot of the table. The first of them uses the descriptor
inside the slot, the others descriptors on the heap that hang off it in a chain. A descriptor on
the heap is known by its address; a pointer to a descriptor is its slot and, for one on the heap,
the address.
-/
namespace OmniCompiler.Xmp

/-- `_XMP_async_comm_t` without `next`. The lists hold the first `nreqs` and `nnodes` elements of
the arrays; a one-sided gmove counts a request that it does not write. `hasReqs` tells whether
the request buffer is allocated. -/
structure AsyncComm (R N G : Type*) where
  asyncId : ℕ
  isUsed : Bool
  hasReqs : Bool
  reqs : List (Option R)
  node : List N
  gmove : Option G

/-- One slot with its chain, in the order of the `next` pointers. -/
structure AsyncSlot (R N G : Type*) where
  head : AsyncComm R N G
  chain : List (ℕ × AsyncComm R N G)

def asyncCommSize : ℕ := 511

/-- `_XMP_MAX_ASYNC_REQS`, with `_XMP_N_MAX_DIM` equal to 7. -/
def maxAsyncReqs : ℕ := 4 * 7 * 10

def maxAsyncNodes : ℕ := 20

/-- What the heap allocator answers when the addresses of a list are in use. -/
structure Allocator where
  next : List ℕ → ℕ
  fresh : ∀ used, next used ∉ used

variable {R N G : Type*}

namespace AsyncSlot

/-- The search of `_XMP_get_async`: `some none` is the descriptor in the slot. It looks at the id
of the slot without asking whether the slot is in use. -/
def find (slot : AsyncSlot R N G) (id : ℕ) : Option (Option ℕ) :=
  if slot.head.asyncId = id then some none
  else (slot.chain.find? fun c => c.2.asyncId = id).map fun c => some c.1

def deref (slot : AsyncSlot R N G) : Option ℕ → Option (AsyncComm R N G)
  | none => some slot.head
  | some addr => (slot.chain.find? fun c => c.1 = addr).map Prod.snd

def modify (slot : AsyncSlot R N G) (f : AsyncComm R N G → AsyncComm R N G) :
    Option ℕ → AsyncSlot R N G
  | none => { slot with head := f slot.head }
  | some addr =>
    { slot with chain := slot.chain.map fun c => if c.1 = addr then (c.1, f c.2) else c }

/-- The descriptor that `xmpc_init_async` appends. -/
def newDesc (id : ℕ) : AsyncComm R N G := ⟨id, true, true, [], [], none⟩

/-- The slot after `xmpc_init_async` and the new value of `_tmp_async`. A slot that is not in use
keeps its counters. -/
def init (slot : AsyncSlot R N G) (id addr : ℕ) : AsyncSlot R N G × Option ℕ :=
  if slot.head.isUsed = false then
    ({ slot with head := { slot.head with asyncId := id, hasReqs := true, isUsed := true } }, none)
  else if slot.head.asyncId = id then (slot, none)
  else
    match slot.chain.find? fun c => c.2.asyncId = id with
    | some c => (slot, some c.1)
    | none => ({ slot with chain := slot.chain ++ [(addr, newDesc id)] }, some addr)

/-- `initialize_async`; the id stays. -/
def initializeAsync (async : AsyncComm R N G) : AsyncComm R N G :=
  { async with isUsed := false, hasReqs := false, reqs := [], node := [], gmove := none }

/-- The slot after `xmpc_end_async`. Ending the id in the slot moves the first descriptor of the
chain into it. -/
def finish (slot : AsyncSlot R N G) (id : ℕ) : AsyncSlot R N G :=
  if slot.head.isUsed = false then slot
  else if slot.head.asyncId = id then
    match slot.chain with
    | [] => { slot with head := initializeAsync slot.head }
    | (_, next) :: rest => ⟨next, rest⟩
  else { slot with chain := slot.chain.eraseP fun c => c.2.asyncId = id }

end AsyncSlot

structure AsyncPtr where
  slot : ℕ
  cell : Option ℕ
  deriving DecidableEq

structure AsyncTable (R N G : Type*) where
  tab : ℕ → AsyncSlot R N G
  isAsync : Bool
  tmpAsync : Option AsyncPtr

inductive AsyncFault where
  | fatal (msg : String)
  | undefinedBehaviour
  deriving DecidableEq

namespace AsyncTable

def hashId (id : ℕ) : ℕ := id % asyncCommSize

/-- The table after `_XMP_initialize_async_comm_tab`. The ids are those of static storage. -/
def initialTab : AsyncTable R N G where
  tab := fun _ => ⟨⟨0, false, false, [], [], none⟩, []⟩
  isAsync := false
  tmpAsync := none

def getAsync (t : AsyncTable R N G) (id : ℕ) : Option AsyncPtr :=
  ((t.tab (hashId id)).find id).map fun cell => ⟨hashId id, cell⟩

def deref (t : AsyncTable R N G) (ptr : AsyncPtr) : Option (AsyncComm R N G) :=
  (t.tab ptr.slot).deref ptr.cell

def setSlot (t : AsyncTable R N G) (h : ℕ) (slot : AsyncSlot R N G) : AsyncTable R N G :=
  { t with tab := Function.update t.tab h slot }

def used (t : AsyncTable R N G) : List ℕ :=
  (List.range asyncCommSize).flatMap fun h => (t.tab h).chain.map Prod.fst

def initAsync (al : Allocator) (t : AsyncTable R N G) (id : ℕ) : AsyncTable R N G :=
  let (slot, cell) := (t.tab (hashId id)).init id (al.next t.used)
  { t.setSlot (hashId id) slot with isAsync := true, tmpAsync := some ⟨hashId id, cell⟩ }

/-- Change the current descriptor. There has to be one, and it must not have been freed. -/
def onCurrent (t : AsyncTable R N G)
    (f : AsyncComm R N G → Except AsyncFault (AsyncComm R N G)) :
    Except AsyncFault (AsyncTable R N G) :=
  match t.tmpAsync with
  | none => .error .undefinedBehaviour
  | some ptr =>
    match t.deref ptr with
    | none => .error .undefinedBehaviour
    | some async => do
      let async' ← f async
      .ok (t.setSlot ptr.slot ((t.tab ptr.slot).modify (fun _ => async') ptr.cell))

/-- `async->reqs[async->nreqs] = r; async->nreqs++`, as in `xmp_bcast.c` and `xmp_reduce.c`. The
buffer is not checked. -/
def addRequest (r : R) (async : AsyncComm R N G) : Except AsyncFault (AsyncComm R N G) :=
  if async.hasReqs = true ∧ async.reqs.length < maxAsyncReqs then
    .ok { async with reqs := async.reqs ++ [some r] }
  else .error .undefinedBehaviour

/-- The request of a broadcast on a part of a template, as in `_XMPF_bcast_on_template`: it goes to
`reqs[0]` and is counted as the only one. -/
def setRequest (r : R) (async : AsyncComm R N G) : Except AsyncFault (AsyncComm R N G) :=
  if async.hasReqs = true then .ok { async with reqs := [some r] }
  else .error .undefinedBehaviour

/-- The requests of a reflect, as in `_XMP_reflect_async_ordinal`. -/
def addReflect (rs : List R) (async : AsyncComm R N G) : Except AsyncFault (AsyncComm R N G) :=
  if async.reqs.length + rs.length > maxAsyncReqs then
    .error (.fatal "too many arrays in an asynchronous reflect")
  else if async.hasReqs = true then .ok { async with reqs := async.reqs ++ rs.map some }
  else .error .undefinedBehaviour

/-- The registration of a gmove: one request, which a one-sided gmove counts without writing it,
and the gmove itself. -/
def addGmove (r : Option R) (gmove : G) (async : AsyncComm R N G) :
    Except AsyncFault (AsyncComm R N G) := do
  let async ← match r with
    | some r => addRequest r async
    | none => .ok { async with reqs := async.reqs ++ [none] }
  .ok { async with gmove := some gmove }

def addNode (n : N) (async : AsyncComm R N G) : Except AsyncFault (AsyncComm R N G) :=
  if async.node.length ≥ maxAsyncNodes then .error (.fatal "Too many nodes")
  else .ok { async with node := async.node ++ [n] }

def nodesDeallocAfterWaitAsync (t : AsyncTable R N G) (n : N) :
    Except AsyncFault (AsyncTable R N G) :=
  t.onCurrent (addNode n)

def startAsync (t : AsyncTable R N G) : AsyncTable R N G :=
  { t with isAsync := false, tmpAsync := none }

def endAsync (t : AsyncTable R N G) (id : ℕ) : AsyncTable R N G :=
  t.setSlot (hashId id) ((t.tab (hashId id)).finish id)

end AsyncTable

/-- Calls of a program. -/
inductive AsyncOp (R N G : Type*) where
  | init (id : ℕ)
  | request (r : R)
  | templateBcast (r : R)
  | reflect (rs : List R)
  | node (n : N)
  | gmove (r : Option R) (g : G)
  | start
  | finish (id : ℕ)

namespace AsyncTable

def step (al : Allocator) (t : AsyncTable R N G) :
    AsyncOp R N G → Except AsyncFault (AsyncTable R N G)
  | .init id => .ok (t.initAsync al id)
  | .request r => t.onCurrent (addRequest r)
  | .templateBcast r => t.onCurrent (setRequest r)
  | .reflect rs => t.onCurrent (addReflect rs)
  | .node n => t.nodesDeallocAfterWaitAsync n
  | .gmove r g => t.onCurrent (addGmove r g)
  | .start => .ok t.startAsync
  | .finish id => .ok (t.endAsync id)

def run (al : Allocator) (t : AsyncTable R N G) (ops : List (AsyncOp R N G)) :
    Except AsyncFault (AsyncTable R N G) :=
  ops.foldlM (step al) t

end AsyncTable

end OmniCompiler.Xmp
