import OmniCompiler.Acc.PresentTable
import OmniCompiler.Arithmetic.MachineInt

/-!
# Copying a section between host and device (`acc_data.c`, `acc_memory_cuda.c`)

A memory object mirrors a range of host memory on the device. A descriptor remembers how far its
host address lies before the range, and how far its section lies behind its host address.
`_ACC_copy_data` takes the difference of the two for the distance of the section from the start of
the range, of which it is the negative.
-/
namespace OmniCompiler.Acc

open MachineInt Interleaving FoldExcept

/-- `_ACC_GPU_COPY_HOST_TO_DEVICE` and `_ACC_GPU_COPY_DEVICE_TO_HOST`. -/
inductive Direction
  | hostToDevice
  | deviceToHost
  deriving DecidableEq

structure Bytes where
  host : ℤ → UInt8
  device : ℤ → UInt8

def gpuCopy (hostAddr deviceAddr : ℤ) (size : ℕ) (direction : Direction) (w : Bytes) : Bytes :=
  match direction with
  | .hostToDevice =>
    { w with device := fun x =>
        if deviceAddr ≤ x ∧ x < deviceAddr + size then w.host (hostAddr + (x - deviceAddr))
        else w.device x }
  | .deviceToHost =>
    { w with host := fun x =>
        if hostAddr ≤ x ∧ x < hostAddr + size then w.device (deviceAddr + (x - hostAddr))
        else w.host x }

namespace Heap

variable (s : Heap)

def isPointer (m : ℕ) : Bool := (s.memory m).any fun M => M.pointees.isSome

/-- `_ACC_memory_copy`. For an array of pointers the division by the size of a pointer and the
comparison with the number of pointers are unsigned. -/
def memoryCopy (direction : Direction) : ℕ → ℕ → ℤ → ℕ → Bytes → Except Fault Bytes
  | 0, _, _, _, _ => .error .deep
  | fuel + 1, m, offset, size, w =>
    match s.memory m with
    | none => .error .freed
    | some M =>
      match M.pointees with
      | none => .ok (gpuCopy (M.hostAddr + offset) (M.deviceAddr + offset) size direction w)
      | some pointees =>
        let pOffset := toInt (toULL offset / 8)
        if pOffset < 0 then .ok w
        else (pointees.drop pOffset.toNat).foldlM (fun w p =>
          match s.memory p.1 with
          | none => .error .freed
          | some P => memoryCopy direction fuel p.1 0 P.size w) w

def copyData (d : Desc) (direction : Direction) (fuel : ℕ) (w : Bytes) : Except Fault Bytes :=
  s.memoryCopy direction fuel d.memory (d.memoryOffset - d.offset) d.size w

end Heap

def Desc.sectionStart (d : Desc) : ℤ := d.hostAddr + d.offset

/-- The section lies in the range of the memory object, and the copy moves its bytes to or from
where the device mirrors them, and no others. -/
def CopiesSection (s : Heap) (d : Desc) : Prop :=
  ∃ M, s.memory d.memory = some M ∧ M.hostAddr ≤ d.sectionStart ∧
    d.sectionStart + d.size ≤ M.hostAddr + M.size ∧
    ∀ direction w, ∃ fuel, s.copyData d direction fuel w = .ok (gpuCopy d.sectionStart
      (M.deviceAddr + (d.sectionStart - M.hostAddr)) d.size direction w)

/-- Where a region of the table encloses the section, it begins with the section. -/
def StartsRegion (s : Heap) (mode : Mode) (start : ℤ) (size : ℕ) : Prop :=
  mode ≠ .default → ∀ m ∈ s.find start size, ∀ M ∈ s.memory m, M.hostAddr = start

/-! ## One copy -/

/-- Two copies of the same number of bytes to the device agree only on the same addresses. -/
theorem gpuCopy_inj {hostAddr deviceAddr hostAddr' deviceAddr' : ℤ} {size : ℕ} (hsize : 0 < size)
    (h : ∀ w, gpuCopy hostAddr deviceAddr size .hostToDevice w =
      gpuCopy hostAddr' deviceAddr' size .hostToDevice w) : deviceAddr = deviceAddr' := by
  have hbytes := fun x => congrFun (congrArg Bytes.device (h ⟨fun _ => 1, fun _ => 0⟩)) x
  simp only [gpuCopy] at hbytes
  have h1 := hbytes deviceAddr
  have h2 := hbytes deviceAddr'
  rw [if_pos (by omega)] at h1
  rw [if_pos (show deviceAddr' ≤ deviceAddr' ∧ deviceAddr' < deviceAddr' + size by omega)] at h2
  split_ifs at h1 h2
  · omega
  · exact absurd h2 (by decide)
  · exact absurd h1 (by decide)
  · exact absurd h1 (by decide)

theorem gpuCopy_zero (hostAddr deviceAddr : ℤ) (direction : Direction) (w : Bytes) :
    gpuCopy hostAddr deviceAddr 0 direction w = w := by
  cases direction with
  | hostToDevice =>
    have hnone : ∀ x, ¬ (deviceAddr ≤ x ∧ x < deviceAddr + (0 : ℕ)) := fun x => by omega
    simp only [gpuCopy, if_neg (hnone _)]
  | deviceToHost =>
    have hnone : ∀ x, ¬ (hostAddr ≤ x ∧ x < hostAddr + (0 : ℕ)) := fun x => by omega
    simp only [gpuCopy, if_neg (hnone _)]

theorem copyData_plain {s : Heap} {d : Desc} {M : Memory} (hm : s.memory d.memory = some M)
    (hplain : M.pointees = none) (direction : Direction) (fuel : ℕ) (w : Bytes) :
    s.copyData d direction (fuel + 1) w =
      .ok (gpuCopy (M.hostAddr + (d.memoryOffset - d.offset))
        (M.deviceAddr + (d.memoryOffset - d.offset)) d.size direction w) := by
  rw [Heap.copyData, Heap.memoryCopy, hm]
  dsimp only
  rw [hplain]

/-- The copy is right for sections at the start of the range, and for empty ones. -/
theorem copiesSection_iff {s : Heap} {d : Desc} {M : Memory} (hm : s.memory d.memory = some M)
    (hplain : M.pointees = none) (hoff : d.memoryOffset = M.hostAddr - d.hostAddr)
    (hlow : M.hostAddr ≤ d.sectionStart) (hhigh : d.sectionStart + d.size ≤ M.hostAddr + M.size) :
    CopiesSection s d ↔ d.size = 0 ∨ M.hostAddr = d.sectionStart := by
  have hdist : d.memoryOffset - d.offset = M.hostAddr - d.sectionStart := by
    rw [hoff, Desc.sectionStart]
    omega
  constructor
  · rintro ⟨N, hN, -, -, hcopy⟩
    obtain rfl : M = N := by
      rw [hm] at hN
      exact Option.some.inj hN
    by_cases hsize : d.size = 0
    · exact Or.inl hsize
    right
    have hall : ∀ w, gpuCopy (M.hostAddr + (d.memoryOffset - d.offset))
        (M.deviceAddr + (d.memoryOffset - d.offset)) d.size .hostToDevice w =
        gpuCopy d.sectionStart (M.deviceAddr + (d.sectionStart - M.hostAddr)) d.size
          .hostToDevice w := by
      intro w
      obtain ⟨fuel, hw⟩ := hcopy .hostToDevice w
      cases fuel with
      | zero => cases hw
      | succ fuel =>
        rw [copyData_plain hm hplain] at hw
        exact Except.ok.inj hw
    have hsame := gpuCopy_inj (Nat.pos_of_ne_zero hsize) hall
    omega
  · intro hcond
    refine ⟨M, hm, hlow, hhigh, fun direction w => ⟨1, ?_⟩⟩
    rw [copyData_plain hm hplain, hdist]
    obtain hsize | hstart := hcond
    · rw [hsize, gpuCopy_zero, gpuCopy_zero]
    · rw [hstart, sub_self, add_zero, add_zero]

/-! ## The entries of the table -/

namespace Heap

/-- The entries are of objects there have been, and have the ranges of those still there. -/
structure Ranged (s : Heap) : Prop where
  older : ∀ e ∈ s.table, e.memory < s.next
  fresh : ∀ m, s.next ≤ m → s.memory m = none
  range : ∀ e ∈ s.table, ∀ M, s.memory e.memory = some M → e.addr = M.hostAddr ∧ e.size = M.size

variable {s : Heap} {m : ℕ} {M : Memory}

theorem Ranged.lt_next (h : s.Ranged) (hm : s.memory m = some M) : m < s.next := by
  by_contra hc
  have hnone := h.fresh m (by omega)
  rw [hm] at hnone
  cases hnone

theorem Ranged.set {M' : Memory} (h : s.Ranged) (hm : s.memory m = some M)
    (haddr : M'.hostAddr = M.hostAddr) (hsize : M'.size = M.size) : (s.set m M').Ranged where
  older := h.older
  fresh i hi := by
    have hne : i ≠ m := by
      have := h.lt_next hm
      change s.next ≤ i at hi
      omega
    simpa [Heap.set, hne] using h.fresh i hi
  range e he N hN := by
    by_cases heq : e.memory = m
    · obtain rfl : M' = N := by simpa [Heap.set, heq] using hN
      rw [haddr, hsize]
      exact h.range e he M (heq ▸ hm)
    · exact h.range e he N (by simpa [Heap.set, heq] using hN)

theorem Ranged.alloc (h : s.Ranged) (addr : ℤ) (size : ℕ) (dev : ℤ) :
    (s.alloc addr size dev).Ranged where
  older e he := by
    change e.memory < s.next + 1
    obtain rfl | he := List.mem_cons.mp he
    · exact Nat.lt_succ_self _
    · exact (h.older e he).trans (Nat.lt_succ_self _)
  fresh i hi := by
    change s.next + 1 ≤ i at hi
    have hne : i ≠ s.next := by omega
    simpa [Heap.alloc, hne] using h.fresh i (by omega)
  range e he N hN := by
    obtain rfl | he := List.mem_cons.mp he
    · simp only [Heap.alloc, Function.update_self, Option.some.injEq] at hN
      rw [← hN]
      exact ⟨rfl, rfl⟩
    · have hne : e.memory ≠ s.next := (h.older e he).ne
      exact h.range e he N (by simpa [Heap.alloc, hne] using hN)

theorem Ranged.remove {s' : Heap} {addr : ℤ} {size : ℕ} (h : s.Ranged)
    (hs : s.remove addr size = some s') : (s'.free m).Ranged := by
  unfold Heap.remove at hs
  split_ifs at hs
  obtain rfl := Option.some.inj hs
  refine ⟨fun e he => h.older e (List.mem_of_mem_eraseP he), fun i hi => ?_, fun e he N hN => ?_⟩
  · by_cases hi' : i = m
    · simp [Heap.free, hi']
    · simpa [Heap.free, hi'] using h.fresh i hi
  · by_cases heq : e.memory = m
    · simp [Heap.free, heq] at hN
    · exact h.range e (List.mem_of_mem_eraseP he) N (by simpa [Heap.free, heq] using hN)

abbrev Any (_ : Fault) : Prop := True

theorem Ranged.ensures_increment (h : s.Ranged) (m : ℕ) :
    Ensures Ranged Any (s.incrementRefcount m) := by
  unfold incrementRefcount
  split
  · trivial
  · next M hm => exact h.set hm rfl rfl

theorem Ranged.ensures_decrement (h : s.Ranged) (m : ℕ) :
    Ensures Ranged Any (s.decrementRefcount m) := by
  unfold decrementRefcount
  split
  · trivial
  · next M hm =>
    split_ifs
    · trivial
    · exact h.set hm rfl rfl

theorem Ranged.ensures_setPointees (h : s.Ranged) (m : ℕ) (pointees : List (ℕ × ℤ)) :
    Ensures Ranged Any (s.setPointees m pointees) := by
  unfold setPointees
  split
  · trivial
  · next M hm => exact h.set hm rfl rfl

theorem Ranged.ensures_freeUnused (h : s.Ranged) (m : ℕ) : Ensures Ranged Any (s.freeUnused m) := by
  unfold freeUnused
  split
  · trivial
  · next M hm =>
    split_ifs
    · split
      · trivial
      · next s' hs => exact h.remove hs
    · exact h

theorem Ranged.ensures_found (h : s.Ranged) (m : ℕ) :
    Ensures (fun r : Heap × ℕ => r.1.Ranged) Any
      (s.incrementRefcount m >>= fun s => pure (s, m)) :=
  Ensures.bind (h.ensures_increment m) fun _ ht => ht

theorem Ranged.ensures_initMemory (env : Env) (mode : Mode) (typeSize : ℕ) (top : List Dim)
    (rest : List (List Dim)) (addr : ℤ) (h : s.Ranged) :
    Ensures (fun r : Heap × ℕ => r.1.Ranged) Any
      (initMemory env mode typeSize top rest addr s) := by
  induction rest generalizing top addr s with
  | nil =>
    unfold initMemory
    dsimp only
    by_cases hlow : (top.tail.any fun d => decide (d.lower ≠ 0)) = true
    · rw [if_pos hlow]
      trivial
    rw [if_neg hlow]
    split
    · exact h.ensures_found _
    · by_cases hp : mode = .present
      · rw [if_pos hp]
        trivial
      · rw [if_neg hp]
        exact (h.alloc _ _ _).ensures_found _
  | cons top' rest ih =>
    unfold initMemory
    dsimp only
    by_cases hlow : (top.tail.any fun d => decide (d.lower ≠ 0)) = true
    · rw [if_pos hlow]
      trivial
    rw [if_neg hlow]
    split
    · exact h.ensures_found _
    · by_cases hp : mode = .present
      · rw [if_pos hp]
        trivial
      rw [if_neg hp]
      apply Ensures.bind (?_ : Ensures (fun r : Heap × List (ℕ × ℤ) => r.1.Ranged) Any _)
      · intro sp hsp
        exact Ensures.bind (hsp.ensures_setPointees _ _) fun t ht => ht.ensures_found _
      · apply Ensures.foldlM
        · exact h.alloc _ _ _
        · intro sp i _ hsp
          apply Ensures.bind (ih top' _ hsp)
          intro p hp
          unfold hostOffset
          split
          · trivial
          · exact hp

theorem Ranged.ensures_freeMemory (fuel m : ℕ) (h : s.Ranged) :
    Ensures Ranged Any (freeMemory fuel m s) := by
  induction fuel generalizing m s with
  | zero => trivial
  | succ fuel ih =>
    unfold freeMemory
    split
    · trivial
    · apply Ensures.bind (Ensures.foldlM h fun t p _ ht => ih p.1 ht)
      intro t ht
      exact Ensures.bind (ht.ensures_decrement m) fun u hu => hu.ensures_freeUnused m

end Heap

theorem ranged_step {c : Call} {s s' : Session} (hs : s.heap.Ranged) (h : step c s = some s') :
    s'.heap.Ranged := by
  have hexec := exec_of_step h
  cases c with
  | init kind mode env addr typeSize dims pointerDimBit =>
    obtain ⟨r, hr, rfl⟩ := exec_init hexec
    have hens : Ensures (fun r : Heap × Desc × ℤ => r.1.Ranged) Heap.Any
        (initData env mode addr typeSize dims pointerDimBit s.heap) := by
      unfold initData
      dsimp only
      apply Ensures.bind (hs.ensures_initMemory env mode typeSize _ _ addr)
      intro p hp
      split
      · trivial
      · exact hp
    rw [hr] at hens
    exact hens
  | finalize i fuel =>
    obtain ⟨-, rfl⟩ | ⟨d, kind, h', -, hf, rfl⟩ := exec_finalize hexec
    · exact hs
    · have hfree : ∀ t : Heap, t.Ranged → Ensures Heap.Ranged Heap.Any
          (if kind = .data ∨ kind = .exit then freeMemory fuel d.memory t else pure t) := by
        intro t ht
        split_ifs
        · exact ht.ensures_freeMemory fuel _
        · exact ht
      have hens : Ensures Heap.Ranged Heap.Any (finalizeData d kind fuel s.heap) := by
        unfold finalizeData
        dsimp only
        by_cases hexit : kind = .exit
        · rw [if_pos hexit]
          exact Ensures.bind (hs.ensures_decrement _) hfree
        · rw [if_neg hexit]
          exact hfree _ hs
      rw [hf] at hens
      exact hens

theorem ranged_of_reachable {s : Session} (h : Reachable (· = Session.start) step s) :
    s.heap.Ranged := by
  apply h.invariant
  · intro s hs
    rw [hs]
    exact ⟨fun e he => absurd he List.not_mem_nil, fun _ _ => rfl,
      fun e he => absurd he List.not_mem_nil⟩
  · intro c s s' hs hstep
    exact ranged_step hs hstep

/-! ## Descriptors of arrays without pointers -/

theorem groups_fst {pointerDimBit i : ℕ} {dims : List Dim}
    (h : (groups pointerDimBit i dims).2 = []) : (groups pointerDimBit i dims).1 = dims := by
  induction dims generalizing i with
  | nil => rfl
  | cons d ds ih =>
    rw [groups] at h ⊢
    dsimp only at h ⊢
    split_ifs at h ⊢
    rw [ih h]

/-- What a call makes for an array without pointer dimensions: a region of the table that encloses
the section, with one reference more, or a new one. -/
structure Described (s : Heap) (mode : Mode) (addr : ℤ) (typeSize : ℕ) (dims : List Dim) (h' : Heap)
    (d : Desc) (M : Memory) : Prop where
  memory : h'.memory d.memory = some M
  hostAddr : d.hostAddr = addr
  memoryOffset : d.memoryOffset = M.hostAddr - addr
  offset : M.pointees = none → d.offset = offsetElements dims * typeSize
  size : M.pointees = none → d.size = numElements dims * typeSize
  region : (∃ M', mode ≠ .default ∧
      s.find (addr + (offsetElements dims * typeSize : ℕ)) (numElements dims * typeSize) =
        some d.memory ∧
      s.memory d.memory = some M' ∧ M = { M' with refCount := M'.refCount + 1 }) ∨
    ((mode = .default ∨
      s.find (addr + (offsetElements dims * typeSize : ℕ)) (numElements dims * typeSize) = none) ∧
      M.hostAddr = addr + (offsetElements dims * typeSize : ℕ) ∧
      M.size = numElements dims * typeSize)

theorem described_of_initMemory {s h' : Heap} {env : Env} {mode : Mode} {addr : ℤ} {typeSize : ℕ}
    {dims : List Dim} {m : ℕ} (h : initMemory env mode typeSize dims [] addr s = .ok (h', m)) :
    ∃ M, h'.memory m = some M ∧
      ((∃ M', mode ≠ .default ∧
        s.find (addr + (offsetElements dims * typeSize : ℕ)) (numElements dims * typeSize) =
          some m ∧
        s.memory m = some M' ∧ M = { M' with refCount := M'.refCount + 1 }) ∨
      ((mode = .default ∨
        s.find (addr + (offsetElements dims * typeSize : ℕ)) (numElements dims * typeSize) = none) ∧
        M.hostAddr = addr + (offsetElements dims * typeSize : ℕ) ∧
        M.size = numElements dims * typeSize)) := by
  unfold initMemory at h
  simp only [List.isEmpty_nil, if_true] at h
  by_cases hlow : (dims.tail.any fun d => decide (d.lower ≠ 0)) = true
  · rw [if_pos hlow] at h
    cases h
  rw [if_neg hlow] at h
  split at h
  · next m' hm =>
    split_ifs at hm with hmode
    cases hM : s.memory m' with
    | none =>
      rw [Heap.incrementRefcount, hM] at h
      cases h
    | some M' =>
      rw [Heap.incrementRefcount, hM] at h
      cases h
      exact ⟨_, Function.update_self _ _ _, Or.inl ⟨M', hmode, hm, hM, rfl⟩⟩
  · next hm =>
    by_cases hp : mode = .present
    · rw [if_pos hp] at h
      cases h
    rw [if_neg hp] at h
    have hnew : (s.alloc (addr + (offsetElements dims * typeSize : ℕ)) (numElements dims * typeSize)
        (env.deviceAlloc s.next)).memory s.next = some
        { hostAddr := addr + (offsetElements dims * typeSize : ℕ)
          deviceAddr := env.deviceAlloc s.next
          size := numElements dims * typeSize
          refCount := 0
          pointees := none } := Function.update_self _ _ _
    simp only [pure_bind, Heap.incrementRefcount, hnew] at h
    cases h
    refine ⟨_, Function.update_self _ _ _, Or.inr ⟨?_, rfl, rfl⟩⟩
    split_ifs at hm with hmode
    · exact Or.inl hmode
    · exact Or.inr hm

theorem described_of_initData {s h' : Heap} {env : Env} {mode : Mode} {addr : ℤ} {typeSize : ℕ}
    {dims : List Dim} {pointerDimBit : ℕ} {d : Desc} {dev : ℤ}
    (hdims : (groups pointerDimBit 0 dims).2 = [])
    (h : initData env mode addr typeSize dims pointerDimBit s = .ok (h', d, dev)) :
    ∃ M, Described s mode addr typeSize dims h' d M := by
  unfold initData at h
  simp only [hdims, groups_fst hdims] at h
  cases hm : initMemory env mode typeSize dims [] addr s with
  | error f =>
    rw [hm] at h
    cases h
  | ok r =>
    obtain ⟨t, m⟩ := r
    obtain ⟨M, hM, hregion⟩ := described_of_initMemory hm
    rw [hm] at h
    change (match t.memory m with
      | none => _
      | some M => _) = _ at h
    rw [hM] at h
    cases h
    refine ⟨M, hM, rfl, rfl, fun hplain => ?_, fun hplain => ?_, hregion⟩
    · simp [hplain]
    · simp [hplain]

end OmniCompiler.Acc
