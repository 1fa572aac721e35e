import OmniCompiler.Memory.SortedArray

/-!
# The sorted table of memory chunks (`xmpf_coarray_alloc.c`, structure III)

The chunks that are not empty are kept in a table in order of their addresses, between
an entry for address 0 and one for the largest address. The size of the memory that the
table is in is doubled and halved. Indices are exact.
-/
namespace OmniCompiler.Xmpf

open Memory

/-- A memory chunk: the structure it is, `orgAddr` and `nbytes`. -/
structure Chunk where
  ptr : ℕ
  orgAddr : ℕ
  nbytes : ℕ
  deriving DecidableEq

/-- The largest address, `~0L`. -/
def maxAddr : ℕ := 2 ^ 64 - 1

structure SortedChunkEntry where
  orgAddr : ℕ
  chunk : Option Chunk

/-- `_sortedChunkTable`, `_sortedChunkTableMallocSize` and `_sortedChunkTableSize`. -/
structure SortedChunkTable where
  table : ℕ → SortedChunkEntry
  mallocSize : ℕ
  size : ℕ

namespace SortedChunkTable

/-- `_initSortedChunkTable`; the other entries of the allocated table are arbitrary. -/
def init (fresh : ℕ → SortedChunkEntry) : SortedChunkTable where
  table := Function.update (Function.update fresh 0 ⟨0, none⟩) 1 ⟨maxAddr, none⟩
  mallocSize := 256
  size := 2

variable (T : SortedChunkTable)

/-- `_searchSortedChunkTable`; the end of a chunk is a sum of type `unsigned long`. -/
def search (addrKey : ℕ) : ℕ × Bool :=
  let r := searchLoop (fun i => (T.table i).orgAddr) addrKey 0 (T.size - 1)
  if r.2 then r
  else match (T.table r.1).chunk with
    | none => (r.1, false)
    | some chunk => (r.1, addrKey < (chunk.orgAddr + chunk.nbytes) % 2 ^ 64)

/-- `_addMemoryChunkInSortedChunkTable`; `none` is the error that the chunk is already booked. -/
def add (chunk : Chunk) : Option SortedChunkTable :=
  if chunk.nbytes = 0 then some T
  else
    let mallocSize := if T.size = T.mallocSize then T.mallocSize * 2 else T.mallocSize
    let (idx, found) := T.search chunk.orgAddr
    if found then none
    else some {
      table := Function.update (shiftUp idx (T.size - 1) T.table) (idx + 1)
        ⟨chunk.orgAddr, some chunk⟩
      mallocSize := mallocSize
      size := T.size + 1 }

/-- `_delMemoryChunkInSortedChunkTable`; `none` is the error that the chunk is not booked. -/
def del (chunk : Chunk) : Option SortedChunkTable :=
  if chunk.nbytes = 0 then some T
  else
    let mallocSize :=
      if T.size * 4 ≤ T.mallocSize ∧ 256 < T.mallocSize then T.mallocSize / 2 else T.mallocSize
    let (idx, found) := T.search chunk.orgAddr
    if ¬ found then none
    else some {
      table := shiftDown idx (T.size - 1 - idx) T.table
      mallocSize := mallocSize
      size := T.size - 1 }

def find (addr : ℕ) : Option Chunk :=
  let (idx, found) := T.search addr
  if ¬ found then none else (T.table idx).chunk

end SortedChunkTable

/-! ## Calls -/

/-- A call for a chunk that is not empty. -/
inductive TableCall
  | add (chunk : Chunk)
  | del (chunk : Chunk)

/-- No address is in both chunks. -/
def Chunk.Apart (c c' : Chunk) : Prop :=
  c.orgAddr + c.nbytes ≤ c'.orgAddr ∨ c'.orgAddr + c'.nbytes ≤ c.orgAddr

/-- The address is in the chunk. -/
def Chunk.Covers (c : Chunk) (addr : ℕ) : Prop := c.orgAddr ≤ addr ∧ addr < c.orgAddr + c.nbytes

/-- The chunk is not empty, and its addresses are neither 0 nor the largest one. -/
def Chunk.Proper (c : Chunk) : Prop :=
  0 < c.nbytes ∧ 0 < c.orgAddr ∧ c.orgAddr + c.nbytes ≤ maxAddr

/-- What the call does. -/
def TableCall.run (T : SortedChunkTable) : TableCall → Option SortedChunkTable
  | .add chunk => T.add chunk
  | .del chunk => T.del chunk

/-- The live chunks after the call. -/
def TableCall.live (live : List Chunk) : TableCall → List Chunk
  | .add chunk => chunk :: live
  | .del chunk => live.erase chunk

/-- A proper chunk is added apart from the live ones, and a live one is deleted. -/
def TableCall.Legal (live : List Chunk) : TableCall → Prop
  | .add chunk => chunk.Proper ∧ ∀ c ∈ live, chunk.Apart c
  | .del chunk => chunk ∈ live

/-- Every call of the sequence is legal where it is made. -/
def LegalCalls : List Chunk → List TableCall → Prop
  | _, [] => True
  | live, call :: calls => call.Legal live ∧ LegalCalls (call.live live) calls

/-! ## The table of the live chunks -/

/-- The table holds the live chunks in order between its two sentinels. -/
structure SortedChunkTable.Holds (T : SortedChunkTable) (live : List Chunk) : Prop where
  two_le : 2 ≤ T.size
  first : T.table 0 = ⟨0, none⟩
  last : T.table (T.size - 1) = ⟨maxAddr, none⟩
  sorted : ∀ i j, i < j → j < T.size → (T.table i).orgAddr < (T.table j).orgAddr
  entry : ∀ i, 0 < i → i + 1 < T.size → ∃ c ∈ live, T.table i = ⟨c.orgAddr, some c⟩
  booked : ∀ c ∈ live, ∃ i, 0 < i ∧ i + 1 < T.size ∧ T.table i = ⟨c.orgAddr, some c⟩
  size_le : T.size ≤ T.mallocSize

structure LiveChunks (live : List Chunk) : Prop where
  proper : ∀ c ∈ live, c.Proper
  apart : live.Pairwise Chunk.Apart

variable {T : SortedChunkTable} {live : List Chunk}

theorem holds_init (fresh : ℕ → SortedChunkEntry) : (SortedChunkTable.init fresh).Holds [] := by
  constructor
  · exact le_rfl
  · rfl
  · rfl
  · intro i j hij hj
    obtain rfl : j = 1 := by
      have hsize : j < 2 := hj
      omega
    obtain rfl : i = 0 := by omega
    show 0 < maxAddr
    decide
  · intro i hpos hi
    have hsize : i + 1 < 2 := hi
    omega
  · intro c hc
    cases hc
  · show 2 ≤ 256
    decide

theorem Chunk.Covers.eq (hl : LiveChunks live) {c c' : Chunk} (hc : c ∈ live) (hc' : c' ∈ live)
    {addr : ℕ} (h : c.Covers addr) (h' : c'.Covers addr) : c = c' := by
  by_contra hne
  have hsymm : Std.Symm Chunk.Apart := ⟨fun a b hab => hab.symm⟩
  have happ : c.Apart c' := hl.apart.forall hc hc' hne
  unfold Chunk.Apart at happ
  unfold Chunk.Covers at h h'
  omega

/-- Where the search ends in a table of live chunks: behind the entries up to the address, with the
answer whether the chunk there covers it. -/
structure Located (T : SortedChunkTable) (live : List Chunk) (addr : ℕ) (r : ℕ × Bool) : Prop where
  inside : r.1 + 1 < T.size
  below : r.1 = 0 ∨ (T.table r.1).orgAddr ≤ addr
  above : r.1 + 2 = T.size ∨ addr < (T.table (r.1 + 1)).orgAddr
  found : r.2 = true ↔ ∃ c ∈ live, T.table r.1 = ⟨c.orgAddr, some c⟩ ∧ c.Covers addr

theorem search_located (hT : T.Holds live) (hl : LiveChunks live) (addr : ℕ) :
    Located T live addr (T.search addr) := by
  have htwo := hT.two_le
  have hends := searchLoop_ends (fun i => (T.table i).orgAddr) addr 0 (T.size - 1) (by omega)
  unfold SortedChunkTable.search
  generalize searchLoop (fun i => (T.table i).orgAddr) addr 0 (T.size - 1) = r at hends ⊢
  obtain ⟨idx, hit⟩ := r
  have hidx : idx + 1 < T.size := by
    have := hends.lt_over
    omega
  dsimp only at hends ⊢
  cases hit with
  | true =>
    obtain ⟨hpos, -, haddr⟩ := hends.hit rfl
    dsimp only at hpos haddr
    obtain ⟨c, hc, hentry⟩ := hT.entry idx hpos hidx
    have hkey : addr = c.orgAddr := by rw [haddr, hentry]
    have hproper := hl.proper c hc
    rw [if_pos rfl]
    refine ⟨hidx, Or.inr haddr.ge, ?_, ?_⟩
    · right
      show addr < (T.table (idx + 1)).orgAddr
      have := hT.sorted idx (idx + 1) (Nat.lt_succ_self idx) hidx
      omega
    · refine iff_of_true rfl ⟨c, hc, hentry, ?_⟩
      have := hproper.1
      exact ⟨by omega, by omega⟩
  | false =>
    have hbelow := hends.below rfl
    have habove := hends.above rfl
    dsimp only at hbelow habove
    rw [if_neg (by decide)]
    obtain rfl | hpos := Nat.eq_zero_or_pos idx
    · rw [hT.first]
      dsimp only
      refine ⟨hidx, Or.inl rfl, habove.imp_left (by omega), ?_⟩
      refine iff_of_false Bool.false_ne_true ?_
      intro ⟨c, _, hentry, _⟩
      rw [hT.first] at hentry
      exact absurd (congrArg SortedChunkEntry.chunk hentry) (by simp)
    · obtain ⟨c, hc, hentry⟩ := hT.entry idx hpos hidx
      have hlt : c.orgAddr < addr := by
        obtain h0 | hlt := hbelow
        · omega
        · rwa [hentry] at hlt
      have hproper := hl.proper c hc
      have hend : (c.orgAddr + c.nbytes) % 2 ^ 64 = c.orgAddr + c.nbytes := by
        have := hproper.2.2
        unfold maxAddr at this
        omega
      rw [hentry]
      dsimp only
      rw [hend]
      refine ⟨hidx, Or.inr ?_, habove.imp_left (by omega), ?_⟩
      · dsimp only
        rw [hentry]
        exact hlt.le
      · dsimp only
        rw [decide_eq_true_iff, hentry]
        constructor
        · intro h
          exact ⟨c, hc, rfl, hlt.le, h⟩
        · intro ⟨c', _, heq, hcovers⟩
          obtain rfl := Option.some.inj (congrArg SortedChunkEntry.chunk heq)
          exact hcovers.2

/-- A chunk covers an address only where the search for the address ends. -/
theorem Located.covers (hT : T.Holds live) {addr : ℕ} {r : ℕ × Bool} (h : Located T live addr r)
    (hl : LiveChunks live) {c : Chunk} (hc : c ∈ live) (hcovers : c.Covers addr) :
    T.table r.1 = ⟨c.orgAddr, some c⟩ := by
  obtain ⟨i, hpos, hi, hentry⟩ := hT.booked c hc
  have hle : i ≤ r.1 := by
    by_contra hgt
    have hnext : addr < (T.table (r.1 + 1)).orgAddr := by
      obtain hlast | hlt := h.above
      · omega
      · exact hlt
    have hmono : (T.table (r.1 + 1)).orgAddr ≤ (T.table i).orgAddr := by
      obtain heq | hlt := Nat.eq_or_lt_of_le (Nat.lt_of_not_le hgt)
      · rw [← heq]
      · exact (hT.sorted _ _ hlt (by omega)).le
    rw [hentry] at hmono
    have := hcovers.1
    dsimp only at hmono
    omega
  obtain rfl | hlt := Nat.eq_or_lt_of_le hle
  · exact hentry
  · -- Otherwise the chunk where the search ends starts within `c`.
    exfalso
    have hinside := h.inside
    obtain ⟨c', hc', hentry'⟩ := hT.entry r.1 (by omega) hinside
    have hkeys := hT.sorted i r.1 hlt (by omega)
    rw [hentry, hentry'] at hkeys
    dsimp only at hkeys
    have hat : c'.orgAddr ≤ addr := by
      obtain h0 | hat := h.below
      · omega
      · rwa [hentry'] at hat
    have hstart : c.Covers c'.orgAddr := ⟨hkeys.le, by have := hcovers.2; omega⟩
    have hself : c'.Covers c'.orgAddr := ⟨le_rfl, by have := (hl.proper c' hc').1; omega⟩
    have heq := Chunk.Covers.eq hl hc hc' hstart hself
    rw [heq] at hkeys
    omega

theorem find_eq_some_iff (hT : T.Holds live) (hl : LiveChunks live) (addr : ℕ) (c : Chunk) :
    T.find addr = some c ↔ c ∈ live ∧ c.Covers addr := by
  have hloc := search_located hT hl addr
  unfold SortedChunkTable.find
  generalize T.search addr = r at hloc ⊢
  obtain ⟨idx, found⟩ := r
  dsimp only
  constructor
  · intro h
    split_ifs at h with hno
    obtain ⟨c', hc', hentry, hcovers⟩ := hloc.found.mp (by simpa using hno)
    rw [hentry] at h
    cases h
    exact ⟨hc', hcovers⟩
  · intro ⟨hc, hcovers⟩
    have hentry := hloc.covers hT hl hc hcovers
    have hfound : found = true := hloc.found.mpr ⟨c, hc, hentry, hcovers⟩
    rw [hfound, if_neg (by decide), hentry]

/-! ## Adding and deleting -/

theorem LiveChunks.nodup (hl : LiveChunks live) : live.Nodup := by
  apply hl.apart.imp_of_mem
  intro c c' hc _ happ heq
  have := (hl.proper c hc).1
  rw [← heq] at happ
  unfold Chunk.Apart at happ
  omega

theorem LiveChunks.cons (hl : LiveChunks live) {chunk : Chunk} (hproper : chunk.Proper)
    (happ : ∀ c ∈ live, chunk.Apart c) : LiveChunks (chunk :: live) := by
  constructor
  · intro c hc
    obtain rfl | hc := List.mem_cons.mp hc
    · exact hproper
    · exact hl.proper c hc
  · exact List.pairwise_cons.mpr ⟨happ, hl.apart⟩

theorem LiveChunks.erase (hl : LiveChunks live) (chunk : Chunk) : LiveChunks (live.erase chunk) :=
  ⟨fun c hc => hl.proper c (List.mem_of_mem_erase hc), hl.apart.sublist List.erase_sublist⟩

theorem holds_insert (hT : T.Holds live) {chunk : Chunk} {idx mallocSize : ℕ}
    (hidx : idx + 1 < T.size) (hbelow : (T.table idx).orgAddr < chunk.orgAddr)
    (habove : chunk.orgAddr < (T.table (idx + 1)).orgAddr) (hsize : T.size + 1 ≤ mallocSize) :
    SortedChunkTable.Holds ⟨Function.update (shiftUp idx (T.size - 1) T.table) (idx + 1)
      ⟨chunk.orgAddr, some chunk⟩, mallocSize, T.size + 1⟩ (chunk :: live) := by
  have hle : ∀ i j, i ≤ j → j < T.size → (T.table i).orgAddr ≤ (T.table j).orgAddr := by
    intro i j hij hj
    obtain rfl | hlt := Nat.eq_or_lt_of_le hij
    · exact le_rfl
    · exact (hT.sorted i j hlt hj).le
  have hlow : ∀ i, i ≤ idx → Function.update (shiftUp idx (T.size - 1) T.table) (idx + 1)
      ⟨chunk.orgAddr, some chunk⟩ i = T.table i := by
    intro i hi
    rw [Function.update_of_ne (by omega), shiftUp_apply, if_neg (by omega)]
  have hhigh : ∀ i, idx + 1 < i → i ≤ T.size → Function.update (shiftUp idx (T.size - 1) T.table)
      (idx + 1) ⟨chunk.orgAddr, some chunk⟩ i = T.table (i - 1) := by
    intro i hi hsize
    rw [Function.update_of_ne (by omega), shiftUp_apply, if_pos (by omega)]
  constructor
  · show 2 ≤ T.size + 1
    have := hT.two_le
    omega
  · rw [← hT.first]
    exact hlow 0 (Nat.zero_le idx)
  · rw [← hT.last]
    exact hhigh T.size hidx le_rfl
  · intro i j hij hj
    have hjsize : j < T.size + 1 := hj
    dsimp only
    obtain hjlow | rfl | hjhigh : j ≤ idx ∨ j = idx + 1 ∨ idx + 1 < j := by omega
    · rw [hlow j hjlow, hlow i (by omega)]
      exact hT.sorted i j hij (by omega)
    · rw [hlow i (by omega), Function.update_self]
      exact (hle i idx (by omega) (by omega)).trans_lt hbelow
    · rw [hhigh j hjhigh (by omega)]
      obtain hilow | rfl | hihigh : i ≤ idx ∨ i = idx + 1 ∨ idx + 1 < i := by omega
      · rw [hlow i hilow]
        exact hT.sorted i (j - 1) (by omega) (by omega)
      · rw [Function.update_self]
        exact habove.trans_le (hle (idx + 1) (j - 1) (by omega) (by omega))
      · rw [hhigh i hihigh (by omega)]
        exact hT.sorted (i - 1) (j - 1) (by omega) (by omega)
  · intro i hpos hi
    have hisize : i + 1 < T.size + 1 := hi
    dsimp only
    obtain hilow | rfl | hihigh : i ≤ idx ∨ i = idx + 1 ∨ idx + 1 < i := by omega
    · obtain ⟨c, hc, hentry⟩ := hT.entry i hpos (by omega)
      exact ⟨c, List.mem_cons_of_mem _ hc, by rw [hlow i hilow, hentry]⟩
    · exact ⟨chunk, List.mem_cons_self, Function.update_self ..⟩
    · obtain ⟨c, hc, hentry⟩ := hT.entry (i - 1) (by omega) (by omega)
      exact ⟨c, List.mem_cons_of_mem _ hc, by rw [hhigh i hihigh (by omega), hentry]⟩
  · intro c hc
    obtain rfl | hc := List.mem_cons.mp hc
    · exact ⟨idx + 1, Nat.succ_pos idx, by dsimp only; omega, Function.update_self ..⟩
    · obtain ⟨i, hpos, hi, hentry⟩ := hT.booked c hc
      obtain hilow | hihigh : i ≤ idx ∨ idx < i := by omega
      · exact ⟨i, hpos, by dsimp only; omega, by rw [← hentry]; exact hlow i hilow⟩
      · refine ⟨i + 1, Nat.succ_pos i, by dsimp only; omega, ?_⟩
        rw [← hentry]
        exact hhigh (i + 1) (by omega) (by omega)
  · exact hsize

theorem add_holds (hT : T.Holds live) (hl : LiveChunks live) {chunk : Chunk}
    (hproper : chunk.Proper) (happ : ∀ c ∈ live, chunk.Apart c) :
    ∃ T', T.add chunk = some T' ∧ T'.Holds (chunk :: live) := by
  have hloc := search_located hT hl chunk.orgAddr
  unfold SortedChunkTable.add
  generalize T.search chunk.orgAddr = r at hloc ⊢
  obtain ⟨idx, found⟩ := r
  obtain ⟨hnbytes, horg, hend⟩ := hproper
  have huncovered : ∀ c ∈ live, ¬ c.Covers chunk.orgAddr := by
    intro c hc hcovers
    have := happ c hc
    unfold Chunk.Apart at this
    unfold Chunk.Covers at hcovers
    omega
  have hnot : found = false := by
    rw [← Bool.not_eq_true]
    intro hfound
    obtain ⟨c, hc, -, hcovers⟩ := hloc.found.mp hfound
    exact huncovered c hc hcovers
  have hidx : idx + 1 < T.size := hloc.inside
  have hbelow : (T.table idx).orgAddr < chunk.orgAddr := by
    obtain rfl | hpos := Nat.eq_zero_or_pos idx
    · rw [hT.first]
      exact horg
    · obtain ⟨c, hc, hentry⟩ := hT.entry idx hpos hidx
      obtain h0 | hle := hloc.below
      · exact absurd h0 hpos.ne'
      · dsimp only at hle
        rw [hentry] at hle ⊢
        dsimp only at hle ⊢
        by_contra hge
        apply huncovered c hc
        have := (hl.proper c hc).1
        exact ⟨hle, by omega⟩
  have habove : chunk.orgAddr < (T.table (idx + 1)).orgAddr := by
    obtain hlast | hlt := hloc.above
    · dsimp only at hlast
      have hlast' : idx + 1 = T.size - 1 := by omega
      rw [hlast', hT.last]
      dsimp only
      omega
    · exact hlt
  rw [if_neg hnbytes.ne', hnot]
  refine ⟨_, rfl, holds_insert hT hidx hbelow habove ?_⟩
  have htwo := hT.two_le
  have hsize := hT.size_le
  split_ifs
  · omega
  · omega

theorem holds_remove (hT : T.Holds live) (hl : LiveChunks live) {chunk : Chunk} {idx mallocSize : ℕ}
    (hpos : 0 < idx) (hidx : idx + 1 < T.size)
    (hentry : T.table idx = ⟨chunk.orgAddr, some chunk⟩) (hsize : T.size - 1 ≤ mallocSize) :
    SortedChunkTable.Holds ⟨shiftDown idx (T.size - 1 - idx) T.table, mallocSize, T.size - 1⟩
      (live.erase chunk) := by
  have hlow : ∀ i, i < idx → shiftDown idx (T.size - 1 - idx) T.table i = T.table i := by
    intro i hi
    rw [shiftDown_apply, if_neg (by omega)]
  have hhigh : ∀ i, idx ≤ i → i + 1 < T.size →
      shiftDown idx (T.size - 1 - idx) T.table i = T.table (i + 1) := by
    intro i hi hsize
    rw [shiftDown_apply, if_pos (by omega)]
  constructor
  · show 2 ≤ T.size - 1
    omega
  · rw [← hT.first]
    exact hlow 0 hpos
  · rw [← hT.last]
    dsimp only
    rw [hhigh (T.size - 1 - 1) (by omega) (by omega)]
    congr 1
    omega
  · intro i j hij hj
    have hjsize : j < T.size - 1 := hj
    dsimp only
    obtain hjlow | hjhigh := Nat.lt_or_ge j idx
    · rw [hlow j hjlow, hlow i (by omega)]
      exact hT.sorted i j hij (by omega)
    · rw [hhigh j hjhigh (by omega)]
      obtain hilow | hihigh := Nat.lt_or_ge i idx
      · rw [hlow i hilow]
        exact hT.sorted i (j + 1) (by omega) (by omega)
      · rw [hhigh i hihigh (by omega)]
        exact hT.sorted (i + 1) (j + 1) (by omega) (by omega)
  · intro i hipos hi
    have hisize : i + 1 < T.size - 1 := hi
    have hother : ∀ k, k ≠ idx → k < T.size → ∀ c, T.table k = ⟨c.orgAddr, some c⟩ → c ≠ chunk := by
      intro k hk hksize c hc heq
      have hkeys : (T.table k).orgAddr = (T.table idx).orgAddr := by rw [hc, hentry, heq]
      obtain hlt | hgt := Nat.lt_or_gt_of_ne hk
      · exact absurd hkeys (hT.sorted k idx hlt (by omega)).ne
      · exact absurd hkeys (hT.sorted idx k hgt hksize).ne'
    dsimp only
    obtain hilow | hihigh := Nat.lt_or_ge i idx
    · obtain ⟨c, hc, hci⟩ := hT.entry i hipos (by omega)
      have hne := hother i (by omega) (by omega) c hci
      exact ⟨c, (List.mem_erase_of_ne hne).mpr hc, by rw [hlow i hilow, hci]⟩
    · obtain ⟨c, hc, hci⟩ := hT.entry (i + 1) (by omega) (by omega)
      have hne := hother (i + 1) (by omega) (by omega) c hci
      exact ⟨c, (List.mem_erase_of_ne hne).mpr hc, by rw [hhigh i hihigh (by omega), hci]⟩
  · intro c hc
    obtain ⟨hne, hc⟩ := hl.nodup.mem_erase_iff.mp hc
    obtain ⟨i, hipos, hi, hci⟩ := hT.booked c hc
    have hiidx : i ≠ idx := by
      intro heq
      rw [heq, hentry] at hci
      exact hne (Option.some.inj (congrArg SortedChunkEntry.chunk hci)).symm
    obtain hilow | hihigh := Nat.lt_or_gt_of_ne hiidx
    · refine ⟨i, hipos, by dsimp only; omega, ?_⟩
      rw [← hci]
      exact hlow i hilow
    · refine ⟨i - 1, by omega, by dsimp only; omega, ?_⟩
      dsimp only
      rw [hhigh (i - 1) (by omega) (by omega), Nat.sub_add_cancel (by omega), hci]
  · exact hsize

theorem del_holds (hT : T.Holds live) (hl : LiveChunks live) {chunk : Chunk} (hc : chunk ∈ live) :
    ∃ T', T.del chunk = some T' ∧ T'.Holds (live.erase chunk) := by
  have hloc := search_located hT hl chunk.orgAddr
  obtain ⟨hnbytes, -, -⟩ := hl.proper chunk hc
  have hcovers : chunk.Covers chunk.orgAddr := ⟨le_rfl, by omega⟩
  have hentry := hloc.covers hT hl hc hcovers
  have hfound := hloc.found.mpr ⟨chunk, hc, hentry, hcovers⟩
  have hidx := hloc.inside
  unfold SortedChunkTable.del
  generalize T.search chunk.orgAddr = r at hentry hfound hidx ⊢
  obtain ⟨idx, found⟩ := r
  dsimp only at hentry hfound hidx ⊢
  have hpos : 0 < idx := by
    apply Nat.pos_of_ne_zero
    intro h0
    rw [h0, hT.first] at hentry
    exact absurd (congrArg SortedChunkEntry.chunk hentry) (by simp)
  rw [if_neg hnbytes.ne', hfound, if_neg (by decide)]
  refine ⟨_, rfl, holds_remove hT hl hpos hidx hentry ?_⟩
  have hsize := hT.size_le
  split_ifs with hshrink
  · omega
  · omega

/-! ## Runs -/

/-- The calls, one after the other. -/
def runCalls (calls : List TableCall) (T : SortedChunkTable) : Option SortedChunkTable :=
  calls.foldlM (fun T call => call.run T) T

/-- The live chunks after the calls. -/
def liveAfter (calls : List TableCall) (live : List Chunk) : List Chunk :=
  calls.foldl TableCall.live live

theorem call_holds (hT : T.Holds live) (hl : LiveChunks live) {call : TableCall}
    (hlegal : call.Legal live) :
    ∃ T', call.run T = some T' ∧ T'.Holds (call.live live) ∧ LiveChunks (call.live live) := by
  cases call with
  | add chunk =>
    obtain ⟨T', hrun, hT'⟩ := add_holds hT hl hlegal.1 hlegal.2
    exact ⟨T', hrun, hT', hl.cons hlegal.1 hlegal.2⟩
  | del chunk =>
    obtain ⟨T', hrun, hT'⟩ := del_holds hT hl hlegal
    exact ⟨T', hrun, hT', hl.erase chunk⟩

theorem runCalls_holds {calls : List TableCall} (hT : T.Holds live) (hl : LiveChunks live)
    (hlegal : LegalCalls live calls) : ∃ T', runCalls calls T = some T' ∧
      T'.Holds (liveAfter calls live) ∧ LiveChunks (liveAfter calls live) := by
  induction calls generalizing T live with
  | nil => exact ⟨T, rfl, hT, hl⟩
  | cons call calls ih =>
    obtain ⟨T₁, hcall, hT₁, hl₁⟩ := call_holds hT hl hlegal.1
    obtain ⟨T', hrun, hT', hl'⟩ := ih hT₁ hl₁ hlegal.2
    refine ⟨T', ?_, hT', hl'⟩
    rw [runCalls, List.foldlM_cons, hcall]
    exact hrun

/-- After any legal calls the table holds the live chunks, within the memory that it has, and finds
for an address the live chunk that covers it. -/
theorem table_finds_live (fresh : ℕ → SortedChunkEntry) (calls : List TableCall)
    (hlegal : LegalCalls [] calls) :
    ∃ T, runCalls calls (SortedChunkTable.init fresh) = some T ∧ T.Holds (liveAfter calls []) ∧
      (∀ addr c, T.find addr = some c ↔ c ∈ liveAfter calls [] ∧ c.Covers addr) ∧
      ∀ addr, T.find addr = none ↔ ∀ c ∈ liveAfter calls [], ¬ c.Covers addr := by
  obtain ⟨T, hrun, hT, hl⟩ := runCalls_holds (holds_init fresh) ⟨by simp, List.Pairwise.nil⟩ hlegal
  have hfind := fun addr c => find_eq_some_iff hT hl addr c
  refine ⟨T, hrun, hT, hfind, ?_⟩
  intro addr
  rw [Option.eq_none_iff_forall_ne_some]
  constructor
  · intro h c hc hcovers
    exact h c ((hfind addr c).mpr ⟨hc, hcovers⟩)
  · intro h c hc
    obtain ⟨hc, hcovers⟩ := (hfind addr c).mp hc
    exact h c hc hcovers

theorem table_finds_live_second : ∃ T,
    runCalls [.add ⟨1, 16, 8⟩, .add ⟨2, 64, 16⟩, .del ⟨1, 16, 8⟩]
      (SortedChunkTable.init fun _ => ⟨7, none⟩) = some T ∧ T.find 70 = some ⟨2, 64, 16⟩ := by
  obtain ⟨T, hrun, -, hfind, -⟩ := table_finds_live (fun _ => ⟨7, none⟩)
    [.add ⟨1, 16, 8⟩, .add ⟨2, 64, 16⟩, .del ⟨1, 16, 8⟩] (by
      refine ⟨⟨⟨by decide, by decide, by decide⟩, by simp⟩, ⟨⟨by decide, by decide, by decide⟩, ?_⟩,
        ?_, trivial⟩
      · intro c hc
        obtain rfl := List.mem_singleton.mp hc
        exact Or.inr (by decide)
      · exact List.mem_cons_of_mem _ List.mem_cons_self)
  exact ⟨T, hrun, (hfind 70 ⟨2, 64, 16⟩).mpr ⟨by decide, by decide, by decide⟩⟩

end OmniCompiler.Xmpf
