import OmniCompiler.Acc.DataTable
import OmniCompiler.Arithmetic.FoldExcept

/-!
# Runs of data directives (`acc_data.c`)

Data regions, `enter data` and `exit data` each hold or give back references to
memory objects. Whatever the counts are, an initialisation adds one reference to
the object it returns and one for each pointee slot it fills, and it keeps the
table in step with the objects.
-/
namespace OmniCompiler.Acc

/-- A program run: the heap, the descriptors not yet finalised, and the objects with a reference
left by a finished `enter data`. -/
structure Session where
  heap : Heap
  descs : List (Desc × Kind)
  entered : List ℕ

def Session.start : Session where
  heap := { memory := fun _ => none, next := 0, table := [] }
  descs := []
  entered := []

/-- Descriptor `i` is finalised; `heap` is what that leaves. -/
def Session.finish (s : Session) (i : ℕ) (d : Desc) (kind : Kind) (heap : Heap) : Session where
  heap := heap
  descs := s.descs.eraseIdx i
  entered := match kind with
    | .data => s.entered
    | .enter => d.memory :: s.entered
    | .exit => s.entered.erase d.memory

inductive Call
  | init (kind : Kind) (mode : Mode) (env : Env) (addr : ℤ) (typeSize : ℕ) (dims : List Dim)
      (pointerDimBit : ℕ)
  | finalize (i fuel : ℕ)

def exec : Call → Session → Except Fault Session
  | .init kind mode env addr typeSize dims pointerDimBit, s => do
    let (h, d, _) ← initData env mode addr typeSize dims pointerDimBit s.heap
    pure { s with heap := h, descs := s.descs ++ [(d, kind)] }
  | .finalize i fuel, s =>
    match s.descs[i]? with
    | none => pure s
    | some (d, kind) => do
      let h ← finalizeData d kind fuel s.heap
      pure (s.finish i d kind h)

def step (c : Call) (s : Session) : Option Session := (exec c s).toOption

/-! ## References -/

namespace Heap

variable (s : Heap)

def refOf (m : ℕ) : ℕ := (s.memory m).elim 0 Memory.refCount

def pointeesOf (m : ℕ) : List ℕ :=
  (s.memory m).elim [] fun M => (M.pointees.getD []).map Prod.fst

/-- Pointee slots with object `m` in objects outside of `D`. -/
def slots (D : Finset ℕ) (m : ℕ) : ℕ :=
  ∑ i ∈ Finset.range s.next, if i ∈ D then 0 else (s.pointeesOf i).count m

/-- Every object has one entry in the table, and the entries are those of the objects, newest
first. -/
structure Listed : Prop where
  sorted : (s.table.map Entry.memory).Pairwise (· > ·)
  entry : ∀ e ∈ s.table, ∃ M, s.memory e.memory = some M ∧ e.addr = M.hostAddr ∧ e.size = M.size
  listed : ∀ m M, s.memory m = some M → ∃ e ∈ s.table, e.memory = m

/-- Reference counts are the pointee slots outside of `D`, the references `tok` and, for the
objects of `D`, which are just being released, one reference each. -/
structure Sound (D : Finset ℕ) (tok : ℕ → ℤ) : Prop where
  count : ∀ m, (s.refOf m : ℤ) = s.slots D m + (if m ∈ D then 1 else 0) + tok m
  alone : ∀ m ∈ D, s.refOf m = 1
  fresh : ∀ m, s.next ≤ m → s.memory m = none

structure Ready (tok : ℕ → ℤ) : Prop where
  sound : s.Sound ∅ tok
  listed : s.Listed

end Heap

/-- Unfinalised references to an object. -/
def Session.refs (s : Session) (m : ℕ) : ℕ :=
  (s.descs.map fun d => d.1.memory).count m + s.entered.count m + s.heap.slots ∅ m

/-! ## The heap under its operations -/

namespace Heap

variable {s s' : Heap} {D : Finset ℕ} {tok : ℕ → ℤ} {m : ℕ} {M : Memory}

theorem refOf_set (m' : ℕ) : (s.set m M).refOf m' = if m' = m then M.refCount else s.refOf m' := by
  by_cases h : m' = m
  · simp [refOf, set, h]
  · simp [refOf, set, h]

theorem refOf_of_memory (h : s.memory m = some M) : s.refOf m = M.refCount := by
  simp [refOf, h]

theorem exists_memory (h : 0 < s.refOf m) : ∃ M, s.memory m = some M ∧ M.refCount = s.refOf m := by
  unfold refOf at h ⊢
  cases hm : s.memory m with
  | none => simp [hm] at h
  | some M => exact ⟨M, rfl, rfl⟩

theorem slots_congr (hnext : s'.next = s.next)
    (h : ∀ i, i ∉ D → s'.pointeesOf i = s.pointeesOf i) (m : ℕ) : s'.slots D m = s.slots D m := by
  rw [slots, slots, hnext]
  apply Finset.sum_congr rfl
  intro i _
  by_cases hi : i ∈ D
  · rw [if_pos hi, if_pos hi]
  · rw [if_neg hi, if_neg hi, h i hi]

theorem pointeesOf_set (hm : s.memory m = some M) (c i : ℕ) :
    (s.set m { M with refCount := c }).pointeesOf i = s.pointeesOf i := by
  by_cases h : i = m
  · simp [pointeesOf, set, h, hm]
  · simp [pointeesOf, set, h]

theorem slots_set (hm : s.memory m = some M) (c : ℕ) (D : Finset ℕ) (i : ℕ) :
    (s.set m { M with refCount := c }).slots D i = s.slots D i := by
  apply slots_congr
  · rfl
  · intro j _
    exact pointeesOf_set hm c j

theorem Sound.lt_next (h : s.Sound D tok) (hm : s.memory m = some M) : m < s.next := by
  by_contra hc
  have := h.fresh m (by omega)
  rw [hm] at this
  cases this

theorem Listed.set {M' : Memory} (h : s.Listed) (hm : s.memory m = some M)
    (haddr : M'.hostAddr = M.hostAddr) (hsize : M'.size = M.size) : (s.set m M').Listed where
  sorted := h.sorted
  entry e he := by
    obtain ⟨N, hN, h1, h2⟩ := h.entry e he
    by_cases heq : e.memory = m
    · rw [heq, hm] at hN
      cases hN
      exact ⟨M', by simp [Heap.set, heq], h1.trans haddr.symm, h2.trans hsize.symm⟩
    · exact ⟨N, by simpa [Heap.set, heq] using hN, h1, h2⟩
  listed i N hN := by
    by_cases heq : i = m
    · rw [heq]
      exact h.listed m M hm
    · exact h.listed i N (by simpa [Heap.set, heq] using hN)

theorem Sound.increment (h : s.Sound ∅ tok) (hm : s.memory m = some M) :
    (s.set m { M with refCount := M.refCount + 1 }).Sound ∅
      (fun i => tok i + if i = m then 1 else 0) := by
  constructor
  · intro i
    have hc := h.count i
    rw [slots_set hm, refOf_set]
    by_cases hi : i = m
    · subst hi
      rw [refOf_of_memory hm] at hc
      simp at hc ⊢
      omega
    · simp [hi] at hc ⊢
      omega
  · simp
  · intro i hi
    have hlt := h.lt_next hm
    change s.next ≤ i at hi
    have hne : i ≠ m := by omega
    simpa [Heap.set, hne] using h.fresh i hi

theorem Ready.increment (h : s.Ready tok) (hm : s.memory m = some M) :
    (s.set m { M with refCount := M.refCount + 1 }).Ready
      (fun i => tok i + if i = m then 1 else 0) :=
  ⟨h.sound.increment hm, h.listed.set hm rfl rfl⟩

theorem Listed.find_memory (h : s.Listed) {addr : ℤ} {size m : ℕ} (hf : s.find addr size = some m) :
    ∃ M, s.memory m = some M ∧ M.hostAddr ≤ addr ∧ addr + size ≤ M.hostAddr + M.size := by
  rw [find, Option.map_eq_some_iff] at hf
  obtain ⟨e, he, rfl⟩ := hf
  have hp := List.find?_some he
  obtain ⟨M, hM, h1, h2⟩ := h.entry e (List.mem_of_find?_eq_some he)
  simp only [Bool.and_eq_true, decide_eq_true_eq] at hp
  refine ⟨M, hM, ?_, ?_⟩
  · rw [← h1]
    exact hp.1
  · rw [← h1, ← h2]
    exact hp.2

theorem Listed.find_isSome (h : s.Listed) {addr : ℤ} {size : ℕ} (hm : s.memory m = some M)
    (h1 : M.hostAddr ≤ addr) (h2 : addr + size ≤ M.hostAddr + M.size) :
    (s.find addr size).isSome := by
  obtain ⟨e, he, rfl⟩ := h.listed m M hm
  obtain ⟨N, hN, haddr, hsize⟩ := h.entry e he
  rw [hm] at hN
  cases hN
  rw [find, Option.isSome_map, List.find?_isSome]
  exact ⟨e, he, by simp [haddr, hsize, h1, h2]⟩

theorem Sound.alloc (h : s.Sound ∅ tok) (addr : ℤ) (size : ℕ) (dev : ℤ) :
    (s.alloc addr size dev).Sound ∅ tok := by
  have hnone := h.fresh s.next le_rfl
  have hpoint : ∀ i, (s.alloc addr size dev).pointeesOf i = s.pointeesOf i := by
    intro i
    by_cases hi : i = s.next
    · simp [pointeesOf, Heap.alloc, hi, hnone]
    · simp [pointeesOf, Heap.alloc, hi]
  have hslots : ∀ i, (s.alloc addr size dev).slots ∅ i = s.slots ∅ i := by
    intro i
    unfold slots
    simp only [hpoint]
    have hlast : s.pointeesOf s.next = [] := by simp [pointeesOf, hnone]
    change ∑ j ∈ Finset.range (s.next + 1), _ = _
    rw [Finset.sum_range_succ]
    simp [hlast]
  constructor
  · intro i
    rw [hslots, ← h.count i]
    by_cases hi : i = s.next
    · simp [refOf, Heap.alloc, hi, hnone]
    · simp [refOf, Heap.alloc, hi]
  · simp
  · intro i hi
    change s.next + 1 ≤ i at hi
    have hne : i ≠ s.next := by omega
    simpa [Heap.alloc, hne] using h.fresh i (by omega)

theorem Listed.alloc (h : s.Listed) (hfresh : ∀ i, s.next ≤ i → s.memory i = none) (addr : ℤ)
    (size : ℕ) (dev : ℤ) : (s.alloc addr size dev).Listed := by
  have hold : ∀ e ∈ s.table, e.memory < s.next := by
    intro e he
    obtain ⟨M, hM, -⟩ := h.entry e he
    by_contra hc
    rw [hfresh _ (Nat.le_of_not_lt hc)] at hM
    cases hM
  constructor
  · change ((_ :: s.table).map Entry.memory).Pairwise _
    rw [List.map_cons, List.pairwise_cons]
    refine ⟨?_, h.sorted⟩
    intro i hi
    obtain ⟨e, he, rfl⟩ := List.mem_map.mp hi
    exact hold e he
  · intro e he
    obtain rfl | he := List.mem_cons.mp he
    · exact ⟨_, Function.update_self _ _ _, rfl, rfl⟩
    · obtain ⟨M, hM, h1⟩ := h.entry e he
      have hne : e.memory ≠ s.next := (hold e he).ne
      exact ⟨M, by simpa [Heap.alloc, hne] using hM, h1⟩
  · intro i N hN
    by_cases hi : i = s.next
    · exact ⟨_, List.mem_cons_self, hi.symm⟩
    · obtain ⟨e, he, h1⟩ := h.listed i N (by simpa [Heap.alloc, hi] using hN)
      exact ⟨e, List.mem_cons_of_mem _ he, h1⟩

theorem slots_insert (hm : m ∉ D) (hlt : m < s.next) (i : ℕ) :
    s.slots D i = s.slots (insert m D) i + (s.pointeesOf m).count i := by
  have hterm : ∀ j, (if j ∈ D then 0 else (s.pointeesOf j).count i) =
      (if j ∈ insert m D then 0 else (s.pointeesOf j).count i) +
        if j = m then (s.pointeesOf m).count i else 0 := by
    intro j
    by_cases hj : j = m
    · simp [hj, hm]
    · simp [hj]
  rw [slots, slots]
  simp only [hterm]
  rw [Finset.sum_add_distrib, Finset.sum_ite_eq', if_pos (Finset.mem_range.mpr hlt)]

theorem Sound.setPointees {ps : List (ℕ × ℤ)}
    (h : s.Sound ∅ fun i => tok i + (ps.map Prod.fst).count i) (hm : s.memory m = some M)
    (hnone : M.pointees = none) : (s.set m { M with pointees := some ps }).Sound ∅ tok := by
  have hlt := h.lt_next hm
  have hslots : ∀ i, (s.set m { M with pointees := some ps }).slots ∅ i =
      s.slots ∅ i + (ps.map Prod.fst).count i := by
    intro i
    rw [slots_insert (Finset.notMem_empty m) hlt, slots_insert (Finset.notMem_empty m)
      (show m < (s.set m { M with pointees := some ps }).next from hlt)]
    have hold : s.pointeesOf m = [] := by simp [pointeesOf, hm, hnone]
    have hnew : (s.set m { M with pointees := some ps }).pointeesOf m = ps.map Prod.fst := by
      simp [pointeesOf, set]
    have hother : (s.set m { M with pointees := some ps }).slots (insert m ∅) i =
        s.slots (insert m ∅) i := by
      apply slots_congr
      · rfl
      · intro j hj
        have hne : j ≠ m := by simpa using hj
        simp [pointeesOf, set, hne]
    rw [hold, hnew, hother]
    simp
  constructor
  · intro i
    have hc := h.count i
    rw [hslots, refOf_set]
    by_cases hi : i = m
    · subst hi
      rw [refOf_of_memory hm] at hc
      simp at hc ⊢
      omega
    · simp [hi] at hc ⊢
      omega
  · simp
  · intro i hi
    have hne : i ≠ m := by
      change s.next ≤ i at hi
      omega
    simpa [Heap.set, hne] using h.fresh i hi

/-- What an initialisation leaves of the objects there were, and that the new ones have
references. -/
structure Grows (s s' : Heap) : Prop where
  next : s.next ≤ s'.next
  kept : ∀ m M, s.memory m = some M → ∃ M', s'.memory m = some M' ∧ M.refCount ≤ M'.refCount ∧
    M'.pointees = M.pointees
  old : ∀ m M', m < s.next → s'.memory m = some M' → ∃ M, s.memory m = some M
  pos : ∀ m M, s.next ≤ m → s'.memory m = some M → 0 < M.refCount

theorem Sound.grows_increment (h : s.Sound D tok) (hm : s.memory m = some M) :
    Grows s (s.set m { M with refCount := M.refCount + 1 }) where
  next := le_rfl
  kept i N hN := by
    by_cases hi : i = m
    · subst hi
      rw [hm] at hN
      cases hN
      exact ⟨_, Function.update_self _ _ _, Nat.le_succ _, rfl⟩
    · exact ⟨N, by simpa [set, hi] using hN, le_rfl, rfl⟩
  old i N _ hN := by
    by_cases hi : i = m
    · exact ⟨M, hi ▸ hm⟩
    · exact ⟨N, by simpa [set, hi] using hN⟩
  pos i N hi hN := by
    have hlt := h.lt_next hm
    have hne : i ≠ m := by omega
    have := h.fresh i hi
    simp [set, hne, this] at hN

def UserError (f : Fault) : Prop := f = .nonZeroLower ∨ f = .dataNotFound

structure Initialised (s : Heap) (tok : ℕ → ℤ) (r : Heap × ℕ) : Prop where
  ready : r.1.Ready fun i => tok i + if i = r.2 then 1 else 0
  grows : Grows s r.1
  live : ∃ M, r.1.memory r.2 = some M

open FoldExcept

/-- What holds while object `s.next` is being made. -/
structure Creating (s : Heap) (tok : ℕ → ℤ) (t : Heap) : Prop where
  ready : t.Ready tok
  next : s.next ≤ t.next
  kept : ∀ m M, s.memory m = some M → ∃ M', t.memory m = some M' ∧ M.refCount ≤ M'.refCount ∧
    M'.pointees = M.pointees
  old : ∀ m M', m < s.next → t.memory m = some M' → ∃ M, s.memory m = some M
  pos : ∀ m M, s.next < m → t.memory m = some M → 0 < M.refCount
  live : ∃ N, t.memory s.next = some N

theorem Ready.creating_alloc (h : s.Ready tok) (addr : ℤ) (size : ℕ) (dev : ℤ) :
    Creating s tok (s.alloc addr size dev) := by
  have hother : ∀ i, i ≠ s.next → (s.alloc addr size dev).memory i = s.memory i := by
    intro i hi
    simp [alloc, hi]
  constructor
  · exact ⟨h.sound.alloc addr size dev, h.listed.alloc h.sound.fresh addr size dev⟩
  · exact Nat.le_succ _
  · intro i N hN
    rw [hother i (h.sound.lt_next hN).ne]
    exact ⟨N, hN, le_rfl, rfl⟩
  · intro i N hi hN
    rw [hother i hi.ne] at hN
    exact ⟨N, hN⟩
  · intro i N hi hN
    rw [hother i hi.ne', h.sound.fresh i hi.le] at hN
    cases hN
  · exact ⟨_, Function.update_self _ _ _⟩

theorem Creating.pointee {t : Heap} {p : Heap × ℕ} (h : Creating s tok t)
    (hp : Initialised t tok p) :
    Creating s (fun i => tok i + if i = p.2 then 1 else 0) p.1 where
  ready := hp.ready
  next := h.next.trans hp.grows.next
  kept m M hM := by
    obtain ⟨M', hM', hle, hpt⟩ := h.kept m M hM
    obtain ⟨M'', hM'', hle', hpt'⟩ := hp.grows.kept m M' hM'
    exact ⟨M'', hM'', hle.trans hle', hpt'.trans hpt⟩
  old m M' hm hM := by
    obtain ⟨M, hM⟩ := hp.grows.old m M' (hm.trans_le h.next) hM
    exact h.old m M hm hM
  pos m M hm hM := by
    by_cases hlt : m < t.next
    · obtain ⟨M', hM'⟩ := hp.grows.old m M hlt hM
      obtain ⟨M'', hM'', hle, -⟩ := hp.grows.kept m M' hM'
      have hpos := h.pos m M' hm hM'
      rw [hM] at hM''
      cases hM''
      omega
    · exact hp.grows.pos m M (by omega) hM
  live := by
    obtain ⟨N, hN⟩ := h.live
    obtain ⟨N', hN', -⟩ := hp.grows.kept _ N hN
    exact ⟨N', hN'⟩

theorem Creating.ensures_increment {t : Heap} (h : Creating s tok t) :
    Ensures (Initialised s tok) UserError
      (t.incrementRefcount s.next >>= fun t => pure (t, s.next)) := by
  obtain ⟨N, hN⟩ := h.live
  have hg := h.ready.sound.grows_increment hN
  rw [incrementRefcount, hN]
  refine ⟨h.ready.increment hN, ?_, ⟨_, Function.update_self _ _ _⟩⟩
  constructor
  · exact h.next
  · intro m M hM
    obtain ⟨M', hM', hle, hp⟩ := h.kept m M hM
    obtain ⟨M'', hM'', hle', hp'⟩ := hg.kept m M' hM'
    exact ⟨M'', hM'', hle.trans hle', hp'.trans hp⟩
  · intro m M' hm hM
    obtain ⟨M, hM⟩ := hg.old m M' (hm.trans_le h.next) hM
    exact h.old m M hm hM
  · intro m M hm hM
    by_cases hself : m = s.next
    · subst hself
      have hrow : M = { N with refCount := N.refCount + 1 } := by
        simpa [set] using hM.symm
      rw [hrow]
      exact Nat.succ_pos _
    · have hsame : t.memory m = some M := by simpa [set, hself] using hM
      exact h.pos m M (by omega) hsame

theorem ensures_found (h : s.Ready tok) {c : Prop} [Decidable c] {addr : ℤ} {size m : ℕ}
    (hm : (if c then none else s.find addr size) = some m) :
    Ensures (Initialised s tok) UserError (s.incrementRefcount m >>= fun t => pure (t, m)) := by
  have hfind : s.find addr size = some m := by
    by_cases hc : c
    · rw [if_pos hc] at hm
      cases hm
    · rwa [if_neg hc] at hm
  obtain ⟨M, hM, -⟩ := h.listed.find_memory hfind
  rw [incrementRefcount, hM]
  exact ⟨h.increment hM, h.sound.grows_increment hM, ⟨_, Function.update_self _ _ _⟩⟩

/-- What holds while the pointees `ps` have been made for object `s.next`. -/
structure Pointing (s : Heap) (tok : ℕ → ℤ) (sp : Heap × List (ℕ × ℤ)) : Prop where
  creating : Creating s (fun i => tok i + (sp.2.map Prod.fst).count i) sp.1
  plain : ∃ N, sp.1.memory s.next = some N ∧ N.pointees = none

theorem Pointing.pointee {sp : Heap × List (ℕ × ℤ)} {p : Heap × ℕ} (h : Pointing s tok sp)
    (hp : Initialised sp.1 (fun i => tok i + (sp.2.map Prod.fst).count i) p) (offset : ℤ) :
    Pointing s tok (p.1, sp.2 ++ [(p.2, offset)]) := by
  constructor
  · have hc := h.creating.pointee hp
    have htok : (fun i => tok i + (sp.2.map Prod.fst).count i + if i = p.2 then 1 else 0) =
        fun i => tok i + ((sp.2 ++ [(p.2, offset)]).map Prod.fst).count i := by
      funext i
      rw [List.map_append, List.count_append]
      by_cases hi : i = p.2
      · simp [hi]
        omega
      · simp [hi, Ne.symm hi]
    rw [htok] at hc
    exact hc
  · obtain ⟨N, hN, hnone⟩ := h.plain
    obtain ⟨N', hN', -, hpt⟩ := hp.grows.kept _ N hN
    exact ⟨N', hN', hpt.trans hnone⟩

theorem Pointing.ensures_setPointees {sp : Heap × List (ℕ × ℤ)} (h : Pointing s tok sp)
    (hfresh : s.memory s.next = none) :
    Ensures (Creating s tok) UserError (sp.1.setPointees s.next sp.2) := by
  obtain ⟨N, hN, hnone⟩ := h.plain
  rw [setPointees, hN]
  have hother : ∀ i, i ≠ s.next →
      (sp.1.set s.next { N with pointees := some sp.2 }).memory i = sp.1.memory i := by
    intro i hi
    simp [set, hi]
  constructor
  · exact ⟨h.creating.ready.sound.setPointees hN hnone, h.creating.ready.listed.set hN rfl rfl⟩
  · exact h.creating.next
  · intro m M hM
    have hne : m ≠ s.next := by
      intro hm
      rw [hm, hfresh] at hM
      cases hM
    rw [hother m hne]
    exact h.creating.kept m M hM
  · intro m M' hm hM
    rw [hother m hm.ne] at hM
    exact h.creating.old m M' hm hM
  · intro m M hm hM
    rw [hother m hm.ne'] at hM
    exact h.creating.pos m M hm hM
  · exact ⟨_, Function.update_self _ _ _⟩

theorem ensures_initMemory (env : Env) (mode : Mode) (typeSize : ℕ) (top : List Dim)
    (rest : List (List Dim)) (addr : ℤ) (h : s.Ready tok) :
    Ensures (Initialised s tok) UserError (initMemory env mode typeSize top rest addr s) := by
  induction rest generalizing top addr s tok with
  | nil =>
    unfold initMemory
    dsimp only
    by_cases hlow : (top.tail.any fun d => decide (d.lower ≠ 0)) = true
    · rw [if_pos hlow]
      exact Or.inl rfl
    rw [if_neg hlow]
    split
    · next m hm => exact ensures_found h hm
    · by_cases hp : mode = .present
      · rw [if_pos hp]
        exact Or.inr rfl
      · rw [if_neg hp]
        exact (h.creating_alloc _ _ _).ensures_increment
  | cons top' rest ih =>
    unfold initMemory
    dsimp only
    by_cases hlow : (top.tail.any fun d => decide (d.lower ≠ 0)) = true
    · rw [if_pos hlow]
      exact Or.inl rfl
    rw [if_neg hlow]
    split
    · next m hm => exact ensures_found h hm
    · by_cases hp : mode = .present
      · rw [if_pos hp]
        exact Or.inr rfl
      rw [if_neg hp]
      apply Ensures.bind (?_ : Ensures (Pointing s tok) UserError _)
      · intro sp hsp
        exact Ensures.bind (hsp.ensures_setPointees (h.sound.fresh _ le_rfl)) fun t ht =>
          ht.ensures_increment
      · apply Ensures.foldlM
        · constructor
          · simpa using h.creating_alloc _ _ _
          · exact ⟨_, Function.update_self _ _ _, rfl⟩
        · intro sp i _ hsp
          apply Ensures.bind (ih top' _ hsp.creating.ready)
          intro p hpi
          obtain ⟨N, hN⟩ := hpi.live
          rw [hostOffset, hN]
          exact hsp.pointee hpi _

theorem ensures_initData (env : Env) (mode : Mode) (addr : ℤ) (typeSize : ℕ) (dims : List Dim)
    (pointerDimBit : ℕ) (h : s.Ready tok) :
    Ensures (fun r : Heap × Desc × ℤ => Initialised s tok (r.1, r.2.1.memory)) UserError
      (initData env mode addr typeSize dims pointerDimBit s) := by
  unfold initData
  dsimp only
  apply Ensures.bind (ensures_initMemory env mode typeSize (groups pointerDimBit 0 dims).1
    (groups pointerDimBit 0 dims).2 addr h)
  intro p hp
  obtain ⟨M, hM⟩ := hp.live
  rw [hM]
  exact hp

end Heap

end OmniCompiler.Acc
