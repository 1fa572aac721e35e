import OmniCompiler.Arithmetic.MachineInt
import OmniCompiler.Concurrency.Interleaving
import OmniCompiler.Memory.Regions

/-!
# The GPU memory pool (`acc_mpool_cuda.c`)

A block is a slot of the pool or, when no slot is free, a region of its own. Within a block pieces
are given out one behind the other, and what does not fit gets a region of its own. Which of the two
it was is told from the address when it is freed.
-/
namespace OmniCompiler.Acc.GpuPool

open OmniCompiler.Memory MachineInt Interleaving

def blockSize : ℕ := 1024 * 1024 * 1

def numBlocks : ℕ := 8

/-- A block in use. `fromGpu` records that `_ACC_gpu_alloc` returned the pointer. -/
structure Block where
  ptr : ℕ
  fromGpu : Bool
  deriving DecidableEq

def Block.region (b : Block) : Region := ⟨b.ptr, blockSize⟩

/-- What `_ACC_mpool_alloc` returned for the block at `mpool`. -/
structure Allocation where
  region : Region
  fromGpu : Bool
  mpool : ℕ
  deriving DecidableEq

/-- A pointer that has been freed, and whether `_ACC_gpu_free` was called for it. -/
structure Freed where
  ptr : ℕ
  fromGpu : Bool
  gpuFree : Bool
  deriving DecidableEq

/-- `pool` and `flags` are the pool itself, `pos` is the variable of the user of a block, and `gpu`
are the regions of `_ACC_gpu_alloc` that have not been freed. -/
structure State where
  pool : ℕ
  flags : ℕ → Bool
  pos : ℕ → ℤ
  gpu : List Region
  blocks : List Block
  allocs : List Allocation
  freed : List Freed

namespace State

def storage (s : State) : Region := ⟨s.pool, blockSize * numBlocks⟩

def slot (s : State) (i : ℕ) : Region := ⟨s.pool + blockSize * i, blockSize⟩

/-- What `_ACC_gpu_alloc` may return. -/
def Free (s : State) (r : Region) : Prop :=
  r.ptr + r.size ≤ 2 ^ 64 ∧ ∀ t ∈ s.gpu, r.Disjoint t

instance (s : State) (r : Region) : Decidable (s.Free r) := inferInstanceAs (Decidable (_ ∧ _))

def gpuAlloc (s : State) (r : Region) : Option State :=
  if s.Free r then some { s with gpu := r :: s.gpu } else none

def gpuFree (s : State) (ptr : ℕ) : State :=
  { s with gpu := s.gpu.filter fun r => r.ptr ≠ ptr }

def addBlock (s : State) (b : Block) : State :=
  { s with blocks := b :: s.blocks, pos := Function.update s.pos b.ptr 0 }

def addAllocation (s : State) (x : Allocation) : State := { s with allocs := x :: s.allocs }

def create (pool : ℕ) : State where
  pool := pool
  flags := fun _ => true
  pos := fun _ => 0
  gpu := [⟨pool, blockSize * numBlocks⟩]
  blocks := []
  allocs := []
  freed := []

/-- `_ACC_mpool_alloc_block`, where `_ACC_gpu_alloc` would return `a`. -/
def mpoolAllocBlock (s : State) (a : ℕ) : Option State :=
  match (List.range numBlocks).find? s.flags with
  | some i =>
    some ({ s with flags := Function.update s.flags i false }.addBlock
      ⟨s.pool + blockSize * i, false⟩)
  | none => (s.gpuAlloc ⟨a, blockSize⟩).map fun t => t.addBlock ⟨a, true⟩

def dropBlock (s : State) (b : Block) : State :=
  { s with
    blocks := s.blocks.erase b
    allocs := s.allocs.filter fun x => x.fromGpu || x.mpool != b.ptr }

/-- `i` of `_ACC_mpool_free_block`. -/
def blockIndex (s : State) (ptr : ℕ) : ℤ := (toLL (ptr - s.pool)).tdiv blockSize

def mpoolFreeBlock (s : State) (b : Block) : State :=
  let i := s.blockIndex b.ptr
  let t := s.dropBlock b
  if 0 ≤ i ∧ i < numBlocks then
    { t with
      flags := Function.update t.flags i.toNat true
      freed := ⟨b.ptr, b.fromGpu, false⟩ :: t.freed }
  else { t.gpuFree b.ptr with freed := ⟨b.ptr, b.fromGpu, true⟩ :: t.freed }

def alignedSize (size : ℤ) : ℤ := toLL (((size - 1).tdiv 8 + 1) * 8)

/-- `_ACC_mpool_alloc`, where `_ACC_gpu_alloc` would return `a`. -/
def mpoolAlloc (s : State) (mpool : ℕ) (size : ℤ) (a : ℕ) : Option State :=
  let pos := s.pos mpool
  let next := toLL (pos + alignedSize size)
  if next ≤ blockSize then
    some ({ s with pos := Function.update s.pos mpool next }.addAllocation
      ⟨⟨(toULL (mpool + pos)).toNat, size.toNat⟩, false, mpool⟩)
  else (s.gpuAlloc ⟨a, size.toNat⟩).map fun t => t.addAllocation ⟨⟨a, size.toNat⟩, true, mpool⟩

def mpoolFree (s : State) (x : Allocation) : State :=
  let pos := toLL (x.region.ptr - x.mpool)
  let t := { s with allocs := s.allocs.erase x }
  if pos < 0 ∨ blockSize ≤ pos then
    { t.gpuFree x.region.ptr with freed := ⟨x.region.ptr, x.fromGpu, true⟩ :: t.freed }
  else { t with freed := ⟨x.region.ptr, x.fromGpu, false⟩ :: t.freed }

end State

inductive Call
  | allocBlock (a : ℕ)
  | freeBlock (b : Block)
  | alloc (b : Block) (size : ℤ) (a : ℕ)
  | free (x : Allocation)
  /-- `mpool_pos = 0`, by the next user of a block that has no pieces -/
  | reuse (b : Block)

/-- A call, on a block that is in use or an allocation that has not been freed. -/
def step : Call → State → Option State
  | .allocBlock a, s => s.mpoolAllocBlock a
  | .freeBlock b, s => if b ∈ s.blocks then some (s.mpoolFreeBlock b) else none
  | .alloc b size a, s =>
    if b ∈ s.blocks ∧ 1 ≤ size ∧ InLL size then s.mpoolAlloc b.ptr size a else none
  | .free x, s => if x ∈ s.allocs then some (s.mpoolFree x) else none
  | .reuse b, s =>
    if b ∈ s.blocks ∧ ∀ x ∈ s.allocs, x.mpool = b.ptr → x.fromGpu = true then
      some { s with pos := Function.update s.pos b.ptr 0 }
    else none

/-- The pool has been created. -/
def Start (s : State) : Prop := ∃ pool, pool + blockSize * numBlocks ≤ 2 ^ 64 ∧ s = .create pool

def roundUp (size : ℤ) : ℤ := (size + 7) / 8 * 8

/-- The requested size, rounded up and added to the position, is in the range of `long long`. -/
def SizeFits : Call → State → Prop
  | .alloc b size _, s => s.pos b.ptr + roundUp size < 2 ^ 63
  | _, _ => True

instance (l : Call) (s : State) : Decidable (SizeFits l s) := by
  cases l <;> unfold SizeFits <;> infer_instance

/-- What the pool promises its users. -/
structure Safe (s : State) : Prop where
  blocks_disjoint : s.blocks.Pairwise fun b c => b.region.Disjoint c.region
  allocs_disjoint : s.allocs.Pairwise fun x y => x.region.Disjoint y.region
  block_place : ∀ b ∈ s.blocks, b.region ∈ s.gpu ∧ b.fromGpu = true ∨
    ∃ i < numBlocks, b.region = s.slot i ∧ b.fromGpu = false
  alloc_place : ∀ x ∈ s.allocs, x.region ∈ s.gpu ∧ x.fromGpu = true ∨
    ∃ b ∈ s.blocks, b.ptr = x.mpool ∧ x.region.Within b.region ∧ x.fromGpu = false
  flags_iff : ∀ i < numBlocks, s.flags i = true ↔ ∀ b ∈ s.blocks, b.region.Disjoint (s.slot i)
  freed_right : ∀ f ∈ s.freed, f.gpuFree = f.fromGpu

theorem blockSize_pos : 0 < blockSize := by decide

namespace State

/-! ## Addresses -/

theorem blockIndex_slot (s : State) {i : ℕ}
    (hi : i < numBlocks) : s.blockIndex (s.pool + blockSize * i) = i := by
  have hdist : toLL (((s.pool + blockSize * i : ℕ) : ℤ) - s.pool) = (blockSize * i : ℕ) := by
    simp only [toLL, blockSize, numBlocks] at *
    omega
  rw [blockIndex, hdist, ← Int.ofNat_tdiv, Nat.mul_div_cancel_left i blockSize_pos]

theorem not_inRange_blockIndex {s : State} (hroom : s.pool + blockSize * numBlocks ≤ 2 ^ 64)
    {b : Block} (hb : b.ptr + blockSize ≤ 2 ^ 64) (h : b.region.Disjoint s.storage) :
    ¬ (0 ≤ s.blockIndex b.ptr ∧ s.blockIndex b.ptr < numBlocks) := by
  have hdist : toLL (b.ptr - s.pool) ≤ -blockSize ∨ (blockSize * numBlocks : ℕ) ≤
      toLL (b.ptr - s.pool) := by
    simp only [Region.Disjoint, Block.region, storage, toLL, blockSize, numBlocks] at *
    omega
  rw [blockIndex]
  rcases hdist with hbelow | habove
  · have hneg : (toLL (b.ptr - s.pool)).tdiv blockSize ≤ (-blockSize : ℤ).tdiv blockSize :=
      Int.tdiv_le_tdiv (by decide) hbelow
    have hone : (-blockSize : ℤ).tdiv blockSize = -1 := by decide
    omega
  · have hnonneg : 0 ≤ toLL (b.ptr - s.pool) := le_trans (Int.natCast_nonneg _) habove
    rw [Int.tdiv_eq_ediv_of_nonneg hnonneg]
    simp only [blockSize, numBlocks] at *
    omega

theorem inBlock_iff {x : Allocation} (hx : x.region.ptr + x.region.size ≤ 2 ^ 64)
    (hmpool : x.mpool + blockSize ≤ 2 ^ 64) (hpos : 0 < x.region.size) :
    (toLL (x.region.ptr - x.mpool) < 0 ∨ blockSize ≤ toLL (x.region.ptr - x.mpool)) ↔
      ¬ (x.mpool ≤ x.region.ptr ∧ x.region.ptr < x.mpool + blockSize) := by
  simp only [toLL, blockSize] at *
  omega

theorem alignedSize_eq {size pos : ℤ} (hone : 1 ≤ size) (hpos : 0 ≤ pos)
    (hfits : pos + roundUp size < 2 ^ 63) :
    alignedSize size = roundUp size ∧ toLL (pos + alignedSize size) = pos + roundUp size := by
  rw [alignedSize, Int.tdiv_eq_ediv_of_nonneg (by omega)]
  simp only [toLL, roundUp] at *
  omega

theorem alignedSize_overflow {size pos : ℤ} (hone : 1 ≤ size) (hsize : InLL size) (hpos : 0 ≤ pos)
    (hle : pos ≤ blockSize) (hfits : 2 ^ 63 ≤ pos + roundUp size) :
    toLL (pos + alignedSize size) < 0 ∧ blockSize < size := by
  have hlt := hsize.2
  rw [alignedSize, Int.tdiv_eq_ediv_of_nonneg (by omega)]
  simp only [toLL, roundUp, blockSize] at *
  omega
end State
/-! ## Invariant -/

/-- `Safe`, with where the regions of `_ACC_gpu_alloc` lie and how far a block has been used. -/
structure Inv (s : State) : Prop extends Safe s where
  storage_mem : s.storage ∈ s.gpu
  storage_room : s.pool + blockSize * numBlocks ≤ 2 ^ 64
  gpu_room : ∀ r ∈ s.gpu, r.ptr + r.size ≤ 2 ^ 64
  block_own : ∀ b ∈ s.blocks, b.fromGpu = true → b.region.Disjoint s.storage
  pos_range : ∀ b ∈ s.blocks, 0 ≤ s.pos b.ptr ∧ s.pos b.ptr ≤ blockSize
  alloc_size : ∀ x ∈ s.allocs, 0 < x.region.size ∧ x.mpool + blockSize ≤ 2 ^ 64
  alloc_own : ∀ x ∈ s.allocs, x.fromGpu = true → x.region.Disjoint s.storage ∧
    x.region.Disjoint ⟨x.mpool, blockSize⟩ ∧ ∀ b ∈ s.blocks, x.region.Disjoint b.region
  alloc_piece : ∀ x ∈ s.allocs, x.fromGpu = false →
    ((x.region.ptr + x.region.size : ℕ) : ℤ) ≤ x.mpool + s.pos x.mpool

namespace State

theorem slot_within {s : State} {i : ℕ} (hi : i < numBlocks) : (s.slot i).Within s.storage := by
  simp only [Region.Within, slot, storage, blockSize, numBlocks] at *
  omega

theorem slot_disjoint {s : State} {i j : ℕ} (hij : i ≠ j) : (s.slot i).Disjoint (s.slot j) := by
  simp only [Region.Disjoint, slot, blockSize]
  omega

/-- A region of `_ACC_gpu_alloc` is not lost when another one is freed. -/
theorem mem_gpuFree {s : State} {r : Region} {ptr : ℕ} (hr : r ∈ s.gpu) (hne : r.ptr ≠ ptr) :
    r ∈ (s.gpuFree ptr).gpu :=
  List.mem_filter.mpr ⟨hr, by simpa using hne⟩

theorem gpuAlloc_eq_some {s t : State} {r : Region} (h : s.gpuAlloc r = some t) :
    s.Free r ∧ t = { s with gpu := r :: s.gpu } := by
  unfold gpuAlloc at h
  split_ifs at h with hfree
  exact ⟨hfree, (Option.some.inj h).symm⟩

end State

namespace Inv

open State

variable {s : State}

theorem block_room (hs : Inv s) {b : Block} (hb : b ∈ s.blocks) : b.ptr + blockSize ≤ 2 ^ 64 := by
  rcases hs.block_place b hb with ⟨hgpu, _⟩ | ⟨i, hi, hslot, _⟩
  · exact hs.gpu_room _ hgpu
  · have hroom := hs.storage_room
    have hptr : b.ptr = s.pool + blockSize * i := congrArg Region.ptr hslot
    simp only [blockSize, numBlocks] at *
    omega

/-- What is disjoint from the regions of `_ACC_gpu_alloc` is disjoint from the blocks. -/
theorem disjoint_blocks (hs : Inv s) {r : Region} (hr : ∀ t ∈ s.gpu, r.Disjoint t) :
    ∀ b ∈ s.blocks, r.Disjoint b.region := by
  intro b hb
  rcases hs.block_place b hb with ⟨hgpu, _⟩ | ⟨i, hi, hslot, _⟩
  · exact hr _ hgpu
  · rw [hslot]
    exact ((hr _ hs.storage_mem).symm.mono (slot_within hi)).symm

theorem disjoint_allocs (hs : Inv s) {r : Region} (hr : ∀ t ∈ s.gpu, r.Disjoint t) :
    ∀ x ∈ s.allocs, r.Disjoint x.region := by
  intro x hx
  rcases hs.alloc_place x hx with ⟨hgpu, _⟩ | ⟨b, hb, _, hwithin, _⟩
  · exact hr _ hgpu
  · exact ((hs.disjoint_blocks hr b hb).symm.mono hwithin).symm

theorem create {pool : ℕ} (hroom : pool + blockSize * numBlocks ≤ 2 ^ 64) :
    Inv (.create pool) where
  blocks_disjoint := List.Pairwise.nil
  allocs_disjoint := List.Pairwise.nil
  block_place := by simp [State.create]
  alloc_place := by simp [State.create]
  flags_iff := by simp [State.create]
  freed_right := by simp [State.create]
  storage_mem := by simp [State.create, storage]
  storage_room := hroom
  gpu_room := by simpa [State.create] using hroom
  block_own := by simp [State.create]
  pos_range := by simp [State.create]
  alloc_size := by simp [State.create]
  alloc_own := by simp [State.create]
  alloc_piece := by simp [State.create]

theorem gpuAlloc (hs : Inv s) {t : State} {r : Region} (h : s.gpuAlloc r = some t) : Inv t := by
  obtain ⟨hfree, rfl⟩ := gpuAlloc_eq_some h
  exact { hs with
    block_place := by
      intro b hb
      rcases hs.block_place b hb with ⟨hgpu, hown⟩ | hslot
      · exact Or.inl ⟨List.mem_cons_of_mem _ hgpu, hown⟩
      · exact Or.inr hslot
    alloc_place := by
      intro x hx
      rcases hs.alloc_place x hx with ⟨hgpu, hown⟩ | hpiece
      · exact Or.inl ⟨List.mem_cons_of_mem _ hgpu, hown⟩
      · exact Or.inr hpiece
    storage_mem := List.mem_cons_of_mem _ hs.storage_mem
    gpu_room := List.forall_mem_cons.mpr ⟨hfree.1, hs.gpu_room⟩ }

/-! ## Blocks -/

theorem exists_block (hs : Inv s) {x : Allocation} (hx : x ∈ s.allocs)
    (hpiece : x.fromGpu = false) :
    ∃ b ∈ s.blocks, b.ptr = x.mpool ∧ x.region.Within b.region := by
  rcases hs.alloc_place x hx with ⟨_, hown⟩ | ⟨b, hb, hptr, hwithin, _⟩
  · exact absurd (hown.symm.trans hpiece) (by decide)
  · exact ⟨b, hb, hptr, hwithin⟩

/-- A new block, which is disjoint from the blocks and the separate allocations there are. -/
theorem addBlock (hs : Inv s) {b : Block} {flags : ℕ → Bool}
    (hblocks : ∀ c ∈ s.blocks, b.region.Disjoint c.region)
    (hallocs : ∀ x ∈ s.allocs, x.fromGpu = true → x.region.Disjoint b.region)
    (hplace : b.region ∈ s.gpu ∧ b.fromGpu = true ∨
      ∃ i < numBlocks, b.region = s.slot i ∧ b.fromGpu = false)
    (hown : b.fromGpu = true → b.region.Disjoint s.storage)
    (hflags : ∀ i < numBlocks,
      (flags i = true ↔ b.region.Disjoint (s.slot i) ∧ s.flags i = true)) :
    Inv ({ s with flags := flags }.addBlock b) := by
  have hptr : ∀ c ∈ s.blocks, c.ptr ≠ b.ptr := by
    intro c hc
    exact ((hblocks c hc).ptr_ne blockSize_pos blockSize_pos).symm
  exact { hs with
    blocks_disjoint := List.pairwise_cons.mpr ⟨hblocks, hs.blocks_disjoint⟩
    block_place := List.forall_mem_cons.mpr ⟨hplace, hs.block_place⟩
    alloc_place := by
      intro x hx
      rcases hs.alloc_place x hx with hgpu | ⟨c, hc, hpiece⟩
      · exact Or.inl hgpu
      · exact Or.inr ⟨c, List.mem_cons_of_mem _ hc, hpiece⟩
    flags_iff := by
      intro i hi
      have hcons := List.forall_mem_cons (p := fun c : Block => c.region.Disjoint (s.slot i))
        (a := b) (l := s.blocks)
      exact ((hflags i hi).trans (and_congr_right fun _ => hs.flags_iff i hi)).trans hcons.symm
    block_own := List.forall_mem_cons.mpr ⟨hown, hs.block_own⟩
    pos_range := by
      intro c hc
      rcases List.mem_cons.mp hc with rfl | hc
      · simp [State.addBlock]
      · simpa [State.addBlock, Function.update_of_ne (hptr c hc)] using hs.pos_range c hc
    alloc_own := by
      intro x hx hgpu
      obtain ⟨hstorage, hmpool, hdisjoint⟩ := hs.alloc_own x hx hgpu
      exact ⟨hstorage, hmpool, List.forall_mem_cons.mpr ⟨hallocs x hx hgpu, hdisjoint⟩⟩
    alloc_piece := by
      intro x hx hpiece
      obtain ⟨c, hc, hmpool, _⟩ := hs.exists_block hx hpiece
      have hne : x.mpool ≠ b.ptr := hmpool ▸ hptr c hc
      simpa [State.addBlock, Function.update_of_ne hne] using hs.alloc_piece x hx hpiece }

theorem mpoolAllocBlock (hs : Inv s) {t : State} {a : ℕ} (h : s.mpoolAllocBlock a = some t) :
    Inv t := by
  unfold State.mpoolAllocBlock at h
  split at h
  · rename_i i hfind
    obtain rfl := Option.some.inj h
    have hi : i < numBlocks := List.mem_range.mp (List.mem_of_find?_eq_some hfind)
    have hfree := (hs.flags_iff i hi).mp (List.find?_some hfind)
    apply hs.addBlock (b := ⟨s.pool + blockSize * i, false⟩)
    · intro c hc
      exact (hfree c hc).symm
    · intro x hx hown
      exact ((hs.alloc_own x hx hown).1.symm.mono (slot_within hi)).symm
    · exact Or.inr ⟨i, hi, rfl, rfl⟩
    · simp
    · intro j _
      by_cases hji : j = i
      · subst hji
        have hnot : ¬ (s.slot j).Disjoint (s.slot j) :=
          Region.not_disjoint_of_ptr_eq blockSize_pos blockSize_pos rfl
        rw [Function.update_self]
        exact iff_of_false Bool.false_ne_true fun hboth => hnot hboth.1
      · rw [Function.update_of_ne hji]
        exact (and_iff_right (slot_disjoint (Ne.symm hji))).symm
  · rw [Option.map_eq_some_iff] at h
    obtain ⟨u, hu, rfl⟩ := h
    obtain ⟨⟨hroom, hfree⟩, hgpu⟩ := gpuAlloc_eq_some hu
    have hu' := hs.gpuAlloc hu
    subst hgpu
    have hstorage := hfree _ hs.storage_mem
    apply @addBlock _ hu' ⟨a, true⟩ s.flags
    · exact hs.disjoint_blocks hfree
    · intro x hx _
      exact (hs.disjoint_allocs hfree x hx).symm
    · exact Or.inl ⟨List.mem_cons_self, rfl⟩
    · exact fun _ => hstorage
    · intro i hi
      exact (and_iff_right (hstorage.symm.mono (slot_within hi)).symm).symm

theorem isSlot_iff (hs : Inv s) {b : Block} (hb : b ∈ s.blocks) :
    (0 ≤ s.blockIndex b.ptr ∧ s.blockIndex b.ptr < numBlocks) ↔ b.fromGpu = false := by
  rcases hs.block_place b hb with ⟨_, hown⟩ | ⟨i, hi, hslot, hfrom⟩
  · have hnot := not_inRange_blockIndex hs.storage_room (hs.block_room hb)
      (hs.block_own b hb hown)
    simp [hnot, hown]
  · have hptr : b.ptr = s.pool + blockSize * i := congrArg Region.ptr hslot
    rw [hptr, blockIndex_slot s hi]
    simpa [hfrom] using hi

theorem dropBlock (hs : Inv s) {b : Block} (hb : b ∈ s.blocks) {flags : ℕ → Bool}
    (hflags : ∀ i < numBlocks,
      (flags i = true ↔ ∀ c ∈ s.blocks.erase b, c.region.Disjoint (s.slot i))) :
    Inv { s.dropBlock b with flags := flags } := by
  have herase : ∀ c ∈ s.blocks.erase b, c ∈ s.blocks := fun c => List.mem_of_mem_erase
  have hfilter : ∀ x ∈ (s.dropBlock b).allocs,
      x ∈ s.allocs ∧ (x.fromGpu = true ∨ x.mpool ≠ b.ptr) := by
    intro x hx
    simpa [State.dropBlock] using hx
  exact { hs with
    blocks_disjoint := hs.blocks_disjoint.sublist List.erase_sublist
    allocs_disjoint := hs.allocs_disjoint.sublist List.filter_sublist
    block_place := fun c hc => hs.block_place c (herase c hc)
    alloc_place := by
      intro x hx
      obtain ⟨hx, hkept⟩ := hfilter x hx
      rcases hs.alloc_place x hx with hgpu | ⟨c, hc, hmpool, hwithin, hpiece⟩
      · exact Or.inl hgpu
      · have hne : c ≠ b := by
          rintro rfl
          simp [hpiece, hmpool] at hkept
        exact Or.inr ⟨c, (List.mem_erase_of_ne hne).mpr hc, hmpool, hwithin, hpiece⟩
    flags_iff := hflags
    block_own := fun c hc => hs.block_own c (herase c hc)
    pos_range := fun c hc => hs.pos_range c (herase c hc)
    alloc_size := fun x hx => hs.alloc_size x (hfilter x hx).1
    alloc_own := by
      intro x hx hown
      obtain ⟨hstorage, hmpool, hdisjoint⟩ := hs.alloc_own x (hfilter x hx).1 hown
      exact ⟨hstorage, hmpool, fun c hc => hdisjoint c (herase c hc)⟩
    alloc_piece := fun x hx => hs.alloc_piece x (hfilter x hx).1 }

/-- A region is given back that is not that of the pool, a block or an allocation. -/
theorem gpuFree (hs : Inv s) {ptr : ℕ} (hstorage : s.pool ≠ ptr)
    (hblocks : ∀ b ∈ s.blocks, b.ptr ≠ ptr) (hallocs : ∀ x ∈ s.allocs, x.region.ptr ≠ ptr) :
    Inv (s.gpuFree ptr) :=
  { hs with
    block_place := by
      intro b hb
      rcases hs.block_place b hb with ⟨hgpu, hown⟩ | hslot
      · exact Or.inl ⟨mem_gpuFree hgpu (hblocks b hb), hown⟩
      · exact Or.inr hslot
    alloc_place := by
      intro x hx
      rcases hs.alloc_place x hx with ⟨hgpu, hown⟩ | hpiece
      · exact Or.inl ⟨mem_gpuFree hgpu (hallocs x hx), hown⟩
      · exact Or.inr hpiece
    storage_mem := mem_gpuFree hs.storage_mem hstorage
    gpu_room := fun r hr => hs.gpu_room r (List.mem_of_mem_filter hr) }

theorem addFreed (hs : Inv s) {f : Freed} (hf : f.gpuFree = f.fromGpu) :
    Inv { s with freed := f :: s.freed } :=
  { hs with freed_right := List.forall_mem_cons.mpr ⟨hf, hs.freed_right⟩ }

/-- Of what is disjoint from a block nothing is told by taking the block out. -/
theorem forall_erase_iff {b : Block} {r : Region} (hr : b.region.Disjoint r) :
    (∀ c ∈ s.blocks.erase b, c.region.Disjoint r) ↔ ∀ c ∈ s.blocks, c.region.Disjoint r := by
  constructor
  · intro h c hc
    by_cases hcb : c = b
    · exact hcb ▸ hr
    · exact h c ((List.mem_erase_of_ne hcb).mpr hc)
  · intro h c hc
    exact h c (List.mem_of_mem_erase hc)

theorem mpoolFreeBlock (hs : Inv s) {b : Block} (hb : b ∈ s.blocks) : Inv (s.mpoolFreeBlock b) := by
  have hothers := related_of_mem_erase Region.Disjoint.symm hs.blocks_disjoint hb
  have hindex := hs.isSlot_iff hb
  unfold State.mpoolFreeBlock
  dsimp only
  split_ifs with hrange
  · have hfrom := hindex.mp hrange
    rcases hs.block_place b hb with ⟨_, hown⟩ | ⟨i, hi, hregion, _⟩
    · exact absurd (hown.symm.trans hfrom) (by decide)
    · have hptr : b.ptr = s.pool + blockSize * i := congrArg Region.ptr hregion
      have hflags : ∀ j < numBlocks, (Function.update s.flags i true j = true ↔
          ∀ c ∈ s.blocks.erase b, c.region.Disjoint (s.slot j)) := by
        intro j hj
        by_cases hji : j = i
        · subst hji
          rw [Function.update_self]
          exact iff_of_true rfl fun c hc => (hregion ▸ hothers c hc).symm
        · rw [Function.update_of_ne hji, forall_erase_iff (hregion ▸ slot_disjoint (Ne.symm hji))]
          exact hs.flags_iff j hj
      have hnumber : (s.blockIndex b.ptr).toNat = i := by
        rw [hptr, blockIndex_slot s hi, Int.toNat_natCast]
      rw [hnumber]
      exact (hs.dropBlock hb hflags).addFreed (f := ⟨b.ptr, b.fromGpu, false⟩) hfrom.symm
  · have hown : b.fromGpu = true := by simpa using mt hindex.mpr hrange
    have hstorage := hs.block_own b hb hown
    have hflags : ∀ i < numBlocks, (s.flags i = true ↔
        ∀ c ∈ s.blocks.erase b, c.region.Disjoint (s.slot i)) := by
      intro i hi
      rw [forall_erase_iff (hstorage.symm.mono (slot_within hi)).symm]
      exact hs.flags_iff i hi
    have hdrop := hs.dropBlock hb hflags
    have hfree : Inv ((s.dropBlock b).gpuFree b.ptr) := by
      apply hdrop.gpuFree
      · exact (hstorage.ptr_ne blockSize_pos (Nat.mul_pos blockSize_pos (by decide))).symm
      · intro c hc
        exact ((hothers c hc).ptr_ne blockSize_pos blockSize_pos).symm
      · intro x hx
        have hdisjoint : x.region.Disjoint b.region := by
          rcases Bool.eq_false_or_eq_true x.fromGpu with hgpu | hpiece
          · exact (hs.alloc_own x (List.mem_of_mem_filter hx) hgpu).2.2 b hb
          · obtain ⟨c, hc, _, hwithin⟩ := hdrop.exists_block hx hpiece
            exact (hothers c hc).symm.mono hwithin
        exact hdisjoint.ptr_ne (hdrop.alloc_size x hx).1 blockSize_pos
    exact hfree.addFreed (f := ⟨b.ptr, b.fromGpu, true⟩) hown.symm

/-! ## Pieces -/

theorem addAllocation (hs : Inv s) {x : Allocation}
    (hsize : 0 < x.region.size ∧ x.mpool + blockSize ≤ 2 ^ 64)
    (hdisjoint : ∀ y ∈ s.allocs, x.region.Disjoint y.region)
    (hplace : x.region ∈ s.gpu ∧ x.fromGpu = true ∨
      ∃ b ∈ s.blocks, b.ptr = x.mpool ∧ x.region.Within b.region ∧ x.fromGpu = false)
    (hown : x.fromGpu = true → x.region.Disjoint s.storage ∧
      x.region.Disjoint ⟨x.mpool, blockSize⟩ ∧ ∀ b ∈ s.blocks, x.region.Disjoint b.region)
    (hpiece : x.fromGpu = false →
      ((x.region.ptr + x.region.size : ℕ) : ℤ) ≤ x.mpool + s.pos x.mpool) :
    Inv (s.addAllocation x) :=
  { hs with
    allocs_disjoint := List.pairwise_cons.mpr ⟨hdisjoint, hs.allocs_disjoint⟩
    alloc_place := List.forall_mem_cons.mpr ⟨hplace, hs.alloc_place⟩
    alloc_size := List.forall_mem_cons.mpr ⟨hsize, hs.alloc_size⟩
    alloc_own := List.forall_mem_cons.mpr ⟨hown, hs.alloc_own⟩
    alloc_piece := List.forall_mem_cons.mpr ⟨hpiece, hs.alloc_piece⟩ }

theorem setPos (hs : Inv s) {mpool : ℕ} {p : ℤ} (hp : 0 ≤ p ∧ p ≤ blockSize)
    (hpieces : ∀ x ∈ s.allocs, x.fromGpu = false → x.mpool = mpool →
      ((x.region.ptr + x.region.size : ℕ) : ℤ) ≤ mpool + p) :
    Inv { s with pos := Function.update s.pos mpool p } :=
  { hs with
    pos_range := by
      intro b hb
      by_cases hptr : b.ptr = mpool
      · subst hptr
        simpa using hp
      · simpa [Function.update_of_ne hptr] using hs.pos_range b hb
    alloc_piece := by
      intro x hx hpiece
      by_cases hptr : x.mpool = mpool
      · subst hptr
        simpa using hpieces x hx hpiece rfl
      · simpa [Function.update_of_ne hptr] using hs.alloc_piece x hx hpiece }

/-- What lies in a block behind its position is disjoint from all allocations. -/
theorem disjoint_of_pos_le (hs : Inv s) {b : Block} (hb : b ∈ s.blocks) {r : Region}
    (hwithin : r.Within b.region) (hpos : (b.ptr : ℤ) + s.pos b.ptr ≤ r.ptr) :
    ∀ x ∈ s.allocs, r.Disjoint x.region := by
  intro x hx
  rcases Bool.eq_false_or_eq_true x.fromGpu with hown | hpiece
  · exact ((hs.alloc_own x hx hown).2.2 b hb).symm.mono hwithin
  · obtain ⟨c, hc, hmpool, hin⟩ := hs.exists_block hx hpiece
    by_cases hcb : c = b
    · have hend := hs.alloc_piece x hx hpiece
      rw [← hmpool, hcb] at hend
      exact Or.inr (by omega)
    · have hblocks := related_of_ne Region.Disjoint.symm hs.blocks_disjoint hb hc hcb
      exact ((hblocks.mono hwithin).symm.mono hin).symm

/-- A size that fits gets the next piece of the block or a region of its own. -/
theorem mpoolAlloc (hs : Inv s) {t : State} {b : Block} (hb : b ∈ s.blocks) {size : ℤ} {a : ℕ}
    (hone : 1 ≤ size) (hfits : s.pos b.ptr + roundUp size < 2 ^ 63)
    (h : s.mpoolAlloc b.ptr size a = some t) : Inv t := by
  obtain ⟨hpos, hle⟩ := hs.pos_range b hb
  have hroom := hs.block_room hb
  obtain ⟨-, hnext⟩ := alignedSize_eq hone hpos hfits
  have hsize : 0 < size.toNat := by omega
  have hround : size ≤ roundUp size := by
    unfold roundUp
    omega
  simp only [State.mpoolAlloc, hnext] at h
  split_ifs at h with hblock
  · obtain rfl := Option.some.inj h
    have hptr : ((toULL (b.ptr + s.pos b.ptr)).toNat : ℤ) = b.ptr + s.pos b.ptr := by
      rw [toULL, Int.emod_eq_of_lt (by omega) (by omega), Int.toNat_of_nonneg (by omega)]
    have hwithin : Region.Within ⟨(toULL (b.ptr + s.pos b.ptr)).toNat, size.toNat⟩ b.region := by
      simp only [Region.Within, Block.region]
      omega
    have hmoved := @setPos _ hs b.ptr _ ⟨by omega, hblock⟩ (by
      intro x hx hpiece hmpool
      have hend := hs.alloc_piece x hx hpiece
      rw [hmpool] at hend
      omega)
    apply hmoved.addAllocation (x := ⟨⟨_, size.toNat⟩, false, b.ptr⟩)
    · exact ⟨hsize, hroom⟩
    · exact hs.disjoint_of_pos_le hb hwithin hptr.ge
    · exact Or.inr ⟨b, hb, rfl, hwithin, rfl⟩
    · simp
    · intro _
      simp only [Function.update_self]
      omega
  · rw [Option.map_eq_some_iff] at h
    obtain ⟨u, hu, rfl⟩ := h
    obtain ⟨⟨_, hfree⟩, hgpu⟩ := gpuAlloc_eq_some hu
    have hu' := hs.gpuAlloc hu
    subst hgpu
    have hblocks := hs.disjoint_blocks hfree
    apply hu'.addAllocation (x := ⟨⟨a, size.toNat⟩, true, b.ptr⟩)
    · exact ⟨hsize, hroom⟩
    · exact hs.disjoint_allocs hfree
    · exact Or.inl ⟨List.mem_cons_self, rfl⟩
    · exact fun _ => ⟨hfree _ hs.storage_mem, hblocks b hb, hblocks⟩
    · simp

/-- An allocation is told to be a region of its own if and only if it is one. -/
theorem isOwn_iff (hs : Inv s) {x : Allocation} (hx : x ∈ s.allocs) :
    (toLL (x.region.ptr - x.mpool) < 0 ∨ blockSize ≤ toLL (x.region.ptr - x.mpool)) ↔
      x.fromGpu = true := by
  obtain ⟨hsize, hmpool⟩ := hs.alloc_size x hx
  rcases hs.alloc_place x hx with ⟨hgpu, hown⟩ | ⟨b, hb, hptr, hwithin, hpiece⟩
  · have hdisjoint := (hs.alloc_own x hx hown).2.1
    rw [inBlock_iff (hs.gpu_room _ hgpu) hmpool hsize]
    refine iff_of_true ?_ hown
    simp only [Region.Disjoint] at hdisjoint
    omega
  · simp only [Region.Within, Block.region, hptr] at hwithin
    rw [inBlock_iff (hwithin.2.trans hmpool) hmpool hsize]
    refine iff_of_false ?_ (by simp [hpiece])
    omega

theorem dropAllocation (hs : Inv s) (x : Allocation) : Inv { s with allocs := s.allocs.erase x } :=
  { hs with
    allocs_disjoint := hs.allocs_disjoint.sublist List.erase_sublist
    alloc_place := fun y hy => hs.alloc_place y (List.mem_of_mem_erase hy)
    alloc_size := fun y hy => hs.alloc_size y (List.mem_of_mem_erase hy)
    alloc_own := fun y hy => hs.alloc_own y (List.mem_of_mem_erase hy)
    alloc_piece := fun y hy => hs.alloc_piece y (List.mem_of_mem_erase hy) }

theorem mpoolFree (hs : Inv s) {x : Allocation} (hx : x ∈ s.allocs) : Inv (s.mpoolFree x) := by
  have hothers := related_of_mem_erase Region.Disjoint.symm hs.allocs_disjoint hx
  have hsize := (hs.alloc_size x hx).1
  have hisOwn := hs.isOwn_iff hx
  have hdrop := hs.dropAllocation x
  unfold State.mpoolFree
  dsimp only
  split_ifs with hrange
  · have hown := hisOwn.mp hrange
    obtain ⟨hstorage, _, hblocks⟩ := hs.alloc_own x hx hown
    have hfree : Inv ({ s with allocs := s.allocs.erase x }.gpuFree x.region.ptr) := by
      apply hdrop.gpuFree
      · exact (hstorage.ptr_ne hsize (Nat.mul_pos blockSize_pos (by decide))).symm
      · intro b hb
        exact ((hblocks b hb).ptr_ne hsize blockSize_pos).symm
      · intro y hy
        exact ((hothers y hy).ptr_ne hsize (hdrop.alloc_size y hy).1).symm
    exact hfree.addFreed (f := ⟨x.region.ptr, x.fromGpu, true⟩) hown.symm
  · have hpiece : x.fromGpu = false := by simpa using mt hisOwn.mpr hrange
    exact hdrop.addFreed (f := ⟨x.region.ptr, x.fromGpu, false⟩) hpiece.symm

/-- A size that does not fit gets a piece that is larger than the block. -/
theorem not_safe_of_not_fits (hs : Inv s) {t : State} {b : Block} (hb : b ∈ s.blocks) {size : ℤ}
    {a : ℕ} (hone : 1 ≤ size) (hsize : InLL size) (hfits : 2 ^ 63 ≤ s.pos b.ptr + roundUp size)
    (h : s.mpoolAlloc b.ptr size a = some t) : ¬ Safe t := by
  intro hsafe
  obtain ⟨hpos, hle⟩ := hs.pos_range b hb
  obtain ⟨hnext, hlarge⟩ := alignedSize_overflow hone hsize hpos hle hfits
  rw [State.mpoolAlloc, if_pos (hnext.le.trans (Int.natCast_nonneg _))] at h
  obtain rfl := Option.some.inj h
  rcases hsafe.alloc_place _ List.mem_cons_self with ⟨_, hown⟩ | ⟨c, _, _, hwithin, _⟩
  · exact Bool.false_ne_true hown
  · simp only [Region.Within, Block.region] at hwithin
    omega

theorem step (hs : Inv s) {t : State} {l : Call} (h : GpuPool.step l s = some t) :
    SizeFits l s ∧ Inv t ∨ ¬ SizeFits l s ∧ ¬ Safe t := by
  cases l with
  | allocBlock a => exact Or.inl ⟨trivial, hs.mpoolAllocBlock h⟩
  | freeBlock b =>
    simp only [GpuPool.step] at h
    split_ifs at h with hb
    obtain rfl := Option.some.inj h
    exact Or.inl ⟨trivial, hs.mpoolFreeBlock hb⟩
  | alloc b size a =>
    simp only [GpuPool.step] at h
    split_ifs at h with hcall
    obtain ⟨hb, hone, hsize⟩ := hcall
    by_cases hfits : s.pos b.ptr + roundUp size < 2 ^ 63
    · exact Or.inl ⟨hfits, hs.mpoolAlloc hb hone hfits h⟩
    · exact Or.inr ⟨hfits, hs.not_safe_of_not_fits hb hone hsize (not_lt.mp hfits) h⟩
  | free x =>
    simp only [GpuPool.step] at h
    split_ifs at h with hx
    obtain rfl := Option.some.inj h
    exact Or.inl ⟨trivial, hs.mpoolFree hx⟩
  | reuse b =>
    simp only [GpuPool.step] at h
    split_ifs at h with hcall
    obtain ⟨_, hnone⟩ := hcall
    obtain rfl := Option.some.inj h
    refine Or.inl ⟨trivial, hs.setPos ⟨le_rfl, Int.natCast_nonneg _⟩ ?_⟩
    intro x hx hpiece hmpool
    exact absurd ((hnone x hx hmpool).symm.trans hpiece) (by decide)

theorem of_start (h : Start s) : Inv s := by
  obtain ⟨pool, hroom, rfl⟩ := h
  exact create hroom

end Inv

/-- As long as the sizes fit the pool is safe, and the first size that does not fit ends that. -/
theorem safe_and_step_iff {s : State} (h : ReachableIf Start SizeFits step s) :
    Safe s ∧ ∀ l t, step l s = some t → (Safe t ↔ SizeFits l s) := by
  have hs : Inv s := by
    apply h.invariant fun s => Inv.of_start
    intro l s t hs hok hstep
    rcases hs.step hstep with ⟨_, ht⟩ | ⟨hnot, _⟩
    · exact ht
    · exact absurd hok hnot
  refine ⟨hs.toSafe, ?_⟩
  intro l t hstep
  rcases hs.step hstep with ⟨hfits, ht⟩ | ⟨hnot, hunsafe⟩
  · exact iff_of_true ht.toSafe hfits
  · exact iff_of_false hunsafe hnot

/-- A piece of the first block and an allocation that does not fit, which lies just below the pool.
All are freed. -/
def belowThePool : List Call :=
  [.allocBlock 0, .alloc ⟨1048576, false⟩ 100 0, .alloc ⟨1048576, false⟩ 1048576 0,
    .free ⟨⟨0, 1048576⟩, true, 1048576⟩, .free ⟨⟨1048576, 100⟩, false, 1048576⟩,
    .freeBlock ⟨1048576, false⟩]

theorem safe_belowThePool : ∃ s, run step belowThePool (.create 1048576) = some s ∧ Safe s ∧
    s.freed = [⟨1048576, false, false⟩, ⟨1048576, false, false⟩, ⟨0, true, true⟩] :=
  ⟨_, rfl, (safe_and_step_iff (reachableIf_of_run belowThePool
    ⟨1048576, by decide, rfl⟩ rfl)).1, rfl⟩

/-- A size for which the rounding overflows gets a piece of the block. -/
theorem not_safe_huge : ∃ s, Reachable Start step s ∧
    s.allocs = [⟨⟨1048576, 2 ^ 63 - 1⟩, false, 1048576⟩] ∧ ¬ Safe s := by
  refine ⟨_, reachable_of_run [.allocBlock 0, .alloc ⟨1048576, false⟩ (2 ^ 63 - 1) 0]
    ⟨1048576, by decide, rfl⟩ rfl, rfl, ?_⟩
  intro hsafe
  rcases hsafe.alloc_place ⟨⟨1048576, 2 ^ 63 - 1⟩, false, 1048576⟩ List.mem_cons_self with
    ⟨_, hown⟩ | ⟨b, _, _, hwithin, _⟩
  · exact Bool.false_ne_true hown
  · simp only [Region.Within, Block.region, blockSize] at hwithin
    omega

end OmniCompiler.Acc.GpuPool
