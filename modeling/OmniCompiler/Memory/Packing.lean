import OmniCompiler.Memory.Blocks

/-!
# Packing blocks into a buffer

Blocks of `n` cells at given offsets are copied one after the other into a
buffer, or back. Both are described by the list of the blocks' cells in order:
position `j` of the buffer belongs to the `j`-th cell, however the cells are
cut into blocks. Unpacking may meet a cell twice; it has to be told the same
contents each time.
-/
namespace OmniCompiler.Memory

variable {β : Type*} {n : ℕ} {os : List ℤ} {buf base : ℤ}

/-- The cells of the blocks of length `n` at the offsets `os`. -/
def blockCells (n : ℕ) (os : List ℤ) : List ℤ :=
  os.flatMap fun o => (List.range n).map fun r : ℕ => o + r

/-- The buffer holds the cells in order and nothing else is changed. -/
structure Packed (buf base : ℤ) (cs : List ℤ) (mem mem' : ℤ → β) : Prop where
  moved : ∀ (j : ℕ) c, cs[j]? = some c → mem' (buf + j) = mem (base + c)
  kept : ∀ a, ¬ (buf ≤ a ∧ a < buf + cs.length) → mem' a = mem a

/-- The cells hold what the buffer holds, in order, and nothing else is changed. -/
structure Unpacked (buf base : ℤ) (cs : List ℤ) (mem mem' : ℤ → β) : Prop where
  moved : ∀ (j : ℕ) c, cs[j]? = some c → mem' (base + c) = mem (buf + j)
  kept : ∀ a, (∀ c ∈ cs, a ≠ base + c) → mem' a = mem a

/-- The buffer and the cells have no address in common. -/
def Apart (buf base : ℤ) (cs : List ℤ) : Prop :=
  ∀ c ∈ cs, ¬ (buf ≤ base + c ∧ base + c < buf + cs.length)

/-- One `memcpy` into the buffer, whose offset is counted along. -/
def packStep (n : ℕ) (buf base : ℤ) (s : (ℤ → β) × ℕ) (o : ℤ) : Option ((ℤ → β) × ℕ) :=
  (memcpy n s.1 (buf + s.2) (base + o)).map (·, s.2 + n)

/-- One `memcpy` out of the buffer. -/
def unpackStep (n : ℕ) (buf base : ℤ) (s : (ℤ → β) × ℕ) (o : ℤ) : Option ((ℤ → β) × ℕ) :=
  (memcpy n s.1 (base + o) (buf + s.2)).map (·, s.2 + n)

/-- The places of the blocks in the buffer and in the memory, from block `k` on. -/
def bufferBlocks (n : ℕ) (buf base : ℤ) (k : ℕ) (os : List ℤ) : List (ℤ × ℤ) :=
  (os.zipIdx k).map fun p => (buf + (p.2 * n : ℕ), base + p.1)

theorem bufferBlocks_cons (k : ℕ) (o : ℤ) : bufferBlocks n buf base k (o :: os) =
    (buf + (k * n : ℕ), base + o) :: bufferBlocks n buf base (k + 1) os := rfl

theorem blockCells_cons (o : ℤ) :
    blockCells n (o :: os) = (List.range n).map (fun r : ℕ => o + r) ++ blockCells n os := rfl

theorem cells_bufferBlocks (k : ℕ) : cells n (bufferBlocks n buf base k os) =
    ((blockCells n os).zipIdx (k * n)).map fun p => (buf + (p.2 : ℤ), base + p.1) := by
  induction os generalizing k with
  | nil => rfl
  | cons o os ih =>
    have hhead : ((List.range n).map (fun r : ℕ => o + (r : ℤ))).zipIdx (k * n) =
        (List.range n).map fun r : ℕ => (o + (r : ℤ), k * n + r) := by
      apply List.ext_getElem
      · simp
      · intro i h1 h2
        simp
    rw [bufferBlocks_cons, blockCells_cons, List.zipIdx_append, List.map_append, List.length_map,
      List.length_range, ← add_one_mul, ← ih, hhead, cells, List.flatMap_cons, List.map_map]
    congr 1
    apply List.map_congr_left
    intro r _
    simp only [Function.comp_apply, Nat.cast_add, add_assoc]

theorem cells_map_swap (blocks : List (ℤ × ℤ)) :
    cells n (blocks.map Prod.swap) = (cells n blocks).map Prod.swap := by
  rw [cells, cells, List.flatMap_map, List.map_flatMap]
  congr 1
  funext p
  rw [List.map_map]
  rfl

theorem mem_cells_bufferBlocks {q : ℤ × ℤ} : q ∈ cells n (bufferBlocks n buf base 0 os) ↔
    ∃ (j : ℕ) (c : ℤ), (blockCells n os)[j]? = some c ∧ q = (buf + (j : ℤ), base + c) := by
  rw [cells_bufferBlocks, zero_mul, List.mem_map]
  constructor
  · rintro ⟨p, hp, rfl⟩
    exact ⟨p.2, p.1, List.mem_zipIdx_iff_getElem?.mp hp, rfl⟩
  · rintro ⟨j, c, hj, rfl⟩
    exact ⟨(c, j), List.mem_zipIdx_iff_getElem?.mpr hj, rfl⟩

/-- Buffer and cells apart: no block of the one meets a block of the other. -/
theorem bufferBlocks_sep (h : Apart buf base (blockCells n os)) :
    ∀ p ∈ bufferBlocks n buf base 0 os, ∀ q ∈ bufferBlocks n buf base 0 os,
      p.1 + n ≤ q.2 ∨ q.2 + n ≤ p.1 := by
  intro p hp q hq
  by_contra hmeet
  -- the later of the two starts is an address of both blocks
  obtain ⟨r, r', hr, hr', heq⟩ : ∃ r r' : ℕ, r < n ∧ r' < n ∧ p.1 + (r : ℤ) = q.2 + (r' : ℤ) := by
    rcases le_total p.1 q.2 with hle | hle
    · exact ⟨(q.2 - p.1).toNat, 0, by omega, by omega, by omega⟩
    · exact ⟨0, (p.1 - q.2).toNat, by omega, by omega, by omega⟩
  obtain ⟨j, c, hj, hpj⟩ := mem_cells_bufferBlocks.mp (mem_cells.mpr ⟨p, hp, r, hr, rfl⟩)
  obtain ⟨j', c', hj', hqj⟩ := mem_cells_bufferBlocks.mp (mem_cells.mpr ⟨q, hq, r', hr', rfl⟩)
  rw [Prod.mk.injEq] at hpj hqj
  have hlt := (List.getElem?_eq_some_iff.mp hj).1
  apply h c' (List.mem_of_getElem? hj')
  rw [← hqj.2, ← heq, hpj.1]
  omega

theorem packed_iff {mem mem' : ℤ → β} :
    IsAssignment n (bufferBlocks n buf base 0 os) mem mem mem' ↔
      Packed buf base (blockCells n os) mem mem' := by
  rw [isAssignment_iff_cells]
  constructor
  · rintro ⟨hm, hk⟩
    refine ⟨fun j c hj => hm (buf + j, base + c) (mem_cells_bufferBlocks.mpr ⟨j, c, hj, rfl⟩), ?_⟩
    intro a ha
    apply hk
    rintro q hq rfl
    obtain ⟨j, c, hj, rfl⟩ := mem_cells_bufferBlocks.mp hq
    have hlt := (List.getElem?_eq_some_iff.mp hj).1
    exact ha (by dsimp only; omega)
  · intro h
    constructor
    · intro q hq
      obtain ⟨j, c, hj, rfl⟩ := mem_cells_bufferBlocks.mp hq
      exact h.moved j c hj
    · intro a ha
      apply h.kept
      rintro ⟨h1, h2⟩
      have hlt : (a - buf).toNat < (blockCells n os).length := by omega
      refine ha _ (mem_cells_bufferBlocks.mpr
        ⟨(a - buf).toNat, _, List.getElem?_eq_getElem hlt, rfl⟩) ?_
      dsimp only
      omega

theorem unpacked_iff {mem mem' : ℤ → β} :
    IsAssignment n ((bufferBlocks n buf base 0 os).map Prod.swap) mem mem mem' ↔
      Unpacked buf base (blockCells n os) mem mem' := by
  rw [isAssignment_iff_cells, cells_map_swap]
  constructor
  · rintro ⟨hm, hk⟩
    constructor
    · intro j c hj
      exact hm (base + c, buf + j) (List.mem_map.mpr
        ⟨_, mem_cells_bufferBlocks.mpr ⟨j, c, hj, rfl⟩, rfl⟩)
    · intro a ha
      apply hk
      rintro q hq rfl
      obtain ⟨p, hp, rfl⟩ := List.mem_map.mp hq
      obtain ⟨j, c, hj, rfl⟩ := mem_cells_bufferBlocks.mp hp
      exact ha c (List.mem_of_getElem? hj) rfl
  · intro h
    constructor
    · intro q hq
      obtain ⟨p, hp, rfl⟩ := List.mem_map.mp hq
      obtain ⟨j, c, hj, rfl⟩ := mem_cells_bufferBlocks.mp hp
      exact h.moved j c hj
    · intro a ha
      apply h.kept
      intro c hc
      obtain ⟨j, hj⟩ := List.mem_iff_getElem?.mp hc
      exact ha _ (List.mem_map.mpr ⟨_, mem_cells_bufferBlocks.mpr ⟨j, c, hj, rfl⟩, rfl⟩)

theorem foldlM_packStep (k : ℕ) (mem : ℤ → β) :
    os.foldlM (packStep n buf base) (mem, k * n) =
      ((bufferBlocks n buf base k os).foldlM (fun m p => memcpy n m p.1 p.2) mem).map
        (·, (k + os.length) * n) := by
  induction os generalizing k mem with
  | nil => rfl
  | cons o os ih =>
    rw [List.foldlM_cons, bufferBlocks_cons, List.foldlM_cons, packStep]
    cases memcpy n mem (buf + (k * n : ℕ)) (base + o) with
    | none => rfl
    | some m =>
      have hnext := ih (k + 1) m
      rw [add_one_mul] at hnext
      rw [List.length_cons, Nat.add_comm os.length 1, ← add_assoc]
      exact hnext

theorem foldlM_unpackStep (k : ℕ) (mem : ℤ → β) :
    os.foldlM (unpackStep n buf base) (mem, k * n) =
      (((bufferBlocks n buf base k os).map Prod.swap).foldlM (fun m p => memcpy n m p.1 p.2)
        mem).map (·, (k + os.length) * n) := by
  induction os generalizing k mem with
  | nil => rfl
  | cons o os ih =>
    rw [List.foldlM_cons, bufferBlocks_cons, List.map_cons, List.foldlM_cons, unpackStep]
    dsimp only [Prod.swap]
    cases memcpy n mem (base + o) (buf + (k * n : ℕ)) with
    | none => rfl
    | some m =>
      have hnext := ih (k + 1) m
      rw [add_one_mul] at hnext
      rw [List.length_cons, Nat.add_comm os.length 1, ← add_assoc]
      exact hnext

theorem exists_packed (h : Apart buf base (blockCells n os)) (mem : ℤ → β) :
    ∃ mem', os.foldlM (packStep n buf base) (mem, 0) = some (mem', os.length * n) ∧
      Packed buf base (blockCells n os) mem mem' := by
  have hsep := bufferBlocks_sep h
  have hcount := @foldlM_packStep β n os buf base 0 mem
  rw [zero_mul, zero_add, foldlM_memcpy mem fun p hp => hsep p hp p hp] at hcount
  refine ⟨_, hcount, ?_⟩
  rw [moves_eq_transfers hsep mem fun _ _ _ _ => rfl, ← packed_iff]
  apply @isAssignment_transfers_of_agree β n _ mem
    fun a => mem (base + (blockCells n os).getD (a - buf).toNat 0)
  intro p hp r hr
  obtain ⟨j, c, hj, heq⟩ := mem_cells_bufferBlocks.mp (mem_cells.mpr ⟨p, hp, r, hr, rfl⟩)
  rw [Prod.mk.injEq] at heq
  rw [heq.1, heq.2, add_sub_cancel_left, Int.toNat_natCast, List.getD_eq_getElem?_getD, hj,
    Option.getD_some]

theorem exists_unpacked (h : Apart buf base (blockCells n os)) {mem f : ℤ → β}
    (hf : ∀ (j : ℕ) c, (blockCells n os)[j]? = some c → mem (buf + j) = f c) :
    ∃ mem', os.foldlM (unpackStep n buf base) (mem, 0) = some (mem', os.length * n) ∧
      Unpacked buf base (blockCells n os) mem mem' := by
  have hsep : ∀ p ∈ (bufferBlocks n buf base 0 os).map Prod.swap,
      ∀ q ∈ (bufferBlocks n buf base 0 os).map Prod.swap,
        p.1 + n ≤ q.2 ∨ q.2 + n ≤ p.1 := by
    intro p hp q hq
    obtain ⟨p', hp', rfl⟩ := List.mem_map.mp hp
    obtain ⟨q', hq', rfl⟩ := List.mem_map.mp hq
    exact (bufferBlocks_sep h q' hq' p' hp').symm
  have hcount := @foldlM_unpackStep β n os buf base 0 mem
  rw [zero_mul, zero_add, foldlM_memcpy mem fun p hp => hsep p hp p hp] at hcount
  refine ⟨_, hcount, ?_⟩
  rw [moves_eq_transfers hsep mem fun _ _ _ _ => rfl, ← unpacked_iff]
  apply @isAssignment_transfers_of_agree β n _ mem fun a => f (a - base)
  intro p hp r hr
  obtain ⟨p', hp', rfl⟩ := List.mem_map.mp hp
  obtain ⟨j, c, hj, heq⟩ := mem_cells_bufferBlocks.mp (mem_cells.mpr ⟨p', hp', r, hr, rfl⟩)
  rw [Prod.mk.injEq] at heq
  rw [Prod.fst_swap, Prod.snd_swap, heq.1, heq.2, add_sub_cancel_left]
  exact hf j c hj

theorem Packed.unique {cs : List ℤ} {mem mem₁ mem₂ : ℤ → β} (h₁ : Packed buf base cs mem mem₁)
    (h₂ : Packed buf base cs mem mem₂) : mem₁ = mem₂ := by
  funext a
  by_cases ha : buf ≤ a ∧ a < buf + cs.length
  · obtain ⟨j, rfl⟩ : ∃ j : ℕ, a = buf + j := ⟨(a - buf).toNat, by omega⟩
    have hj := List.getElem?_eq_getElem (show j < cs.length by omega)
    rw [h₁.moved j _ hj, h₂.moved j _ hj]
  · rw [h₁.kept a ha, h₂.kept a ha]

theorem blockCells_flatMap {α : Type*} (l : List α) (g : α → List ℤ) :
    blockCells n (l.flatMap g) = l.flatMap fun a => blockCells n (g a) :=
  List.flatMap_assoc

theorem blockCells_map_add (x : ℤ) :
    blockCells n (os.map (x + ·)) = (blockCells n os).map (x + ·) := by
  rw [blockCells, blockCells, List.flatMap_map, List.map_flatMap]
  congr 1
  funext o
  rw [List.map_map]
  apply List.map_congr_left
  intro r _
  exact add_assoc x o r

theorem blockCells_adjacent (k : ℕ) :
    blockCells n ((List.range k).map fun i : ℕ => ((n * i : ℕ) : ℤ)) = blockCells (n * k) [0] := by
  induction k with
  | zero => simp [blockCells]
  | succ k ih =>
    rw [List.range_succ, List.map_append, blockCells, List.flatMap_append, ← blockCells, ih,
      mul_add_one]
    simp [blockCells, List.range_add]

end OmniCompiler.Memory
