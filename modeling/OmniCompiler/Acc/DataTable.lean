import Mathlib.Algebra.BigOperators.Group.Finset.Basic
import Mathlib.Tactic

/-!
# Memory objects and the present table (`acc_data.c`, `acc_memory_cuda.c`, `acc_memory_table.c`)

A memory object pairs a host range with its copy on the device and counts its
references. The table lists the objects by host range, newest first. For an
array of pointers the object also refers to the objects of its pointees.
-/
namespace OmniCompiler.Acc

/-- `_ACC_memory_t`. `pointees` lists the pointees and their offsets, `none` when `is_pointer` is
false. -/
structure Memory where
  hostAddr : ℤ
  deviceAddr : ℤ
  size : ℕ
  refCount : ℕ
  pointees : Option (List (ℕ × ℤ))

/-- An element of the list `list_head`. -/
structure Entry where
  addr : ℤ
  size : ℕ
  memory : ℕ

/-- The memory objects by their identities, and the table. Freed objects and identities not yet
given away have no object. -/
structure Heap where
  memory : ℕ → Option Memory
  next : ℕ
  table : List Entry

inductive Fault
  | nonZeroLower
  | dataNotFound
  | underflow
  | notInTable
  | freed
  | deep
  deriving DecidableEq

/-- The text that `_ACC_fatal` prints; reading a freed object and running out of fuel print
nothing. -/
def Fault.message : Fault → String
  | .nonZeroLower => "Non-zero lower is allowed only top dimension"
  | .dataNotFound => "data not found"
  | .underflow => "ref_count is alreadly 0\n"
  | .notInTable => "can't remove data from data table\n"
  | .freed => ""
  | .deep => ""

namespace Heap

variable (s : Heap)

/-- `_ACC_memory_alloc` for a null `device_addr`, followed by `_ACC_memory_table_add`. -/
def alloc (hostAddr : ℤ) (size : ℕ) (deviceAddr : ℤ) : Heap where
  memory := Function.update s.memory s.next (some
    { hostAddr := hostAddr, deviceAddr := deviceAddr, size := size, refCount := 0,
      pointees := none })
  next := s.next + 1
  table := { addr := hostAddr, size := size, memory := s.next } :: s.table

def set (m : ℕ) (M : Memory) : Heap :=
  { s with memory := Function.update s.memory m (some M) }

def free (m : ℕ) : Heap :=
  { s with memory := Function.update s.memory m none }

def find (addr : ℤ) (size : ℕ) : Option ℕ :=
  (s.table.find? fun e => decide (e.addr ≤ addr) && decide (addr + size ≤ e.addr + e.size)).map
    Entry.memory

def remove (addr : ℤ) (size : ℕ) : Option Heap :=
  if s.table.any fun e => decide (e.addr = addr) && decide (e.size = size) then
    some { s with table :=
      s.table.eraseP fun e => decide (e.addr = addr) && decide (e.size = size) }
  else none

def incrementRefcount (m : ℕ) : Except Fault Heap :=
  match s.memory m with
  | none => .error .freed
  | some M => .ok (s.set m { M with refCount := M.refCount + 1 })

def decrementRefcount (m : ℕ) : Except Fault Heap :=
  match s.memory m with
  | none => .error .freed
  | some M =>
    if M.refCount = 0 then .error .underflow
    else .ok (s.set m { M with refCount := M.refCount - 1 })

def setPointees (m : ℕ) (pointees : List (ℕ × ℤ)) : Except Fault Heap :=
  match s.memory m with
  | none => .error .freed
  | some M => .ok (s.set m { M with pointees := some pointees })

def hostOffset (m : ℕ) (hostAddr : ℤ) : Except Fault ℤ :=
  match s.memory m with
  | none => .error .freed
  | some M => .ok (M.hostAddr - hostAddr)

/-- The end of `free_memory`: an object without references is taken from the table and freed. -/
def freeUnused (m : ℕ) : Except Fault Heap :=
  match s.memory m with
  | none => .error .freed
  | some M =>
    if M.refCount = 0 then
      match s.remove M.hostAddr M.size with
      | none => .error .notInTable
      | some s => .ok (s.free m)
    else .ok s

end Heap

/-- Lower bound and length of a dimension. -/
structure Dim where
  lower : ℕ
  length : ℕ
  deriving DecidableEq

/-- The array dimensions up to the first pointer dimension, and those after it in the same way.
Dimension `i` starts a new group when bit `i` of `pointer_dim_bit` is set. -/
def groups (pointerDimBit : ℕ) : ℕ → List Dim → List Dim × List (List Dim)
  | _, [] => ([], [])
  | i, d :: ds =>
    let (top, rest) := groups pointerDimBit (i + 1) ds
    if ds ≠ [] ∧ pointerDimBit.testBit (i + 1) then ([d], top :: rest) else (d :: top, rest)

/-- The number of elements of the dimensions. -/
def numElements (dims : List Dim) : ℕ := (dims.map Dim.length).prod

/-- `array_info[0].dim_offset * array_info[0].dim_acc`. -/
def offsetElements : List Dim → ℕ
  | [] => 0
  | d :: ds => d.lower * numElements ds

inductive Mode
  | default
  | present
  | presentor
  deriving DecidableEq

/-- What a call of `init_memory` reads besides its arguments: the pointers in host memory and
the addresses of device allocations. -/
structure Env where
  deref : ℤ → ℤ
  deviceAlloc : ℕ → ℤ

/-- `init_memory`, which returns the memory object. -/
def initMemory (env : Env) (mode : Mode) (typeSize : ℕ) (top : List Dim) (rest : List (List Dim))
    (addr : ℤ) (s : Heap) : Except Fault (Heap × ℕ) :=
  let elementSize := if rest.isEmpty then typeSize else 8
  let size := numElements top * elementSize
  let start := addr + (offsetElements top * elementSize : ℕ)
  if top.tail.any fun d => decide (d.lower ≠ 0) then .error .nonZeroLower
  else match (if mode = .default then none else s.find start size) with
    | some m => do
      let s ← s.incrementRefcount m
      pure (s, m)
    | none =>
      if mode = .present then .error .dataNotFound
      else do
        let m := s.next
        let s := s.alloc start size (env.deviceAlloc m)
        let s ← match rest with
          | [] => pure s
          | top' :: rest' => do
            let (s, pointees) ← (List.range (numElements top)).foldlM
              (fun (sp : Heap × List (ℕ × ℤ)) i => do
                let element := env.deref (start + (8 * i : ℕ))
                let (s, p) ← initMemory env mode typeSize top' rest' element sp.1
                let offset ← s.hostOffset p element
                pure (s, sp.2 ++ [(p, offset)])) (s, [])
            s.setPointees m pointees
        let s ← s.incrementRefcount m
        pure (s, m)

/-- `_ACC_array_t`. -/
structure ArrayInfo where
  dimOffset : ℕ
  dimElmnts : ℕ
  dimAcc : ℕ

/-- `array_info` of the dimensions of one array. -/
def arrayInfo : List Dim → List ArrayInfo
  | [] => []
  | d :: ds => { dimOffset := d.lower, dimElmnts := d.length, dimAcc := numElements ds } ::
    arrayInfo ds

/-- `_ACC_data_t`. `arrayInfo` has the entries of the leading array dimensions. -/
structure Desc where
  hostAddr : ℤ
  memory : ℕ
  memoryOffset : ℤ
  offset : ℕ
  size : ℕ
  arrayInfo : List ArrayInfo
  typeSize : ℕ
  pointerDimBit : ℕ

/-- `_ACC_init_data`, `_ACC_find_data` and `_ACC_pinit_data` by mode: the descriptor and the
device address. -/
def initData (env : Env) (mode : Mode) (addr : ℤ) (typeSize : ℕ) (dims : List Dim)
    (pointerDimBit : ℕ) (s : Heap) : Except Fault (Heap × Desc × ℤ) := do
  let (top, rest) := groups pointerDimBit 0 dims
  let (s, m) ← initMemory env mode typeSize top rest addr s
  match s.memory m with
  | none => throw .freed
  | some M =>
    let elementSize := if M.pointees.isSome then 8 else typeSize
    let memoryOffset := M.hostAddr - addr
    let desc : Desc :=
      { hostAddr := addr
        memory := m
        memoryOffset := memoryOffset
        offset := offsetElements top * elementSize
        size := numElements dims * elementSize
        arrayInfo := arrayInfo top
        typeSize := typeSize
        pointerDimBit := pointerDimBit }
    pure (s, desc, M.deviceAddr - memoryOffset)

/-- `free_memory`; `fuel` bounds the depth of the recursion. -/
def freeMemory : ℕ → ℕ → Heap → Except Fault Heap
  | 0, _, _ => .error .deep
  | fuel + 1, m, s =>
    match s.memory m with
    | none => .error .freed
    | some M => do
      let s ← (M.pointees.getD []).foldlM (fun s p => freeMemory fuel p.1 s) s
      let s ← s.decrementRefcount m
      s.freeUnused m

/-- What a descriptor was made for: a data region (finalised with type 0), `enter data` (1) or
`exit data` (2). -/
inductive Kind
  | data
  | enter
  | exit
  deriving DecidableEq

def finalizeData (d : Desc) (kind : Kind) (fuel : ℕ) (s : Heap) : Except Fault Heap := do
  let s ← if kind = .exit then s.decrementRefcount d.memory else pure s
  if kind = .data ∨ kind = .exit then freeMemory fuel d.memory s else pure s

end OmniCompiler.Acc
