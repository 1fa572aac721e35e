import OmniCompiler.Acc.Session
import OmniCompiler.Concurrency.Interleaving

/-!
# The present table (`acc_memory_table.c`)

The entry of a freed object is found by its range, so of several entries of one
range the newest goes. A call that frees objects leaves the table in step with the
objects when those that it frees are the newest of their ranges; the order in
which it frees them does not matter.
-/
namespace OmniCompiler.Acc

open Interleaving

/-! ## Suffixes of filtered lists -/

section Lists

variable {α : Type*} {p q : α → Bool}

theorem filter_eraseP_self (l : List α) : (l.eraseP p).filter p = (l.filter p).tail := by
  induction l with
  | nil => rfl
  | cons a l ih =>
    cases h : p a with
    | true => simp [h]
    | false => simp [h, ih]

theorem filter_eraseP_of_disjoint (hpq : ∀ a, p a = true → q a = false) (l : List α) :
    (l.eraseP p).filter q = l.filter q := by
  induction l with
  | nil => rfl
  | cons a l ih =>
    cases h : p a with
    | true => simp [h, hpq a h]
    | false => simp [h, List.filter_cons, ih]

theorem filter_isSuffix {l : List α}
    (h : l.Pairwise fun a b => p b = false → p a = false) : l.filter p <:+ l := by
  induction l with
  | nil => exact List.suffix_rfl
  | cons a l ih =>
    rw [List.pairwise_cons] at h
    cases ha : p a with
    | false =>
      rw [List.filter_cons_of_neg (by simp [ha])]
      exact (ih h.2).trans (List.suffix_cons a l)
    | true =>
      have hall : ∀ b ∈ a :: l, p b = true := by
        intro b hb
        obtain rfl | hb := List.mem_cons.mp hb
        · exact ha
        · cases hpb : p b with
          | true => rfl
          | false =>
            rw [h.1 b hb hpb] at ha
            cases ha
      rw [List.filter_eq_self.mpr hall]

end Lists

/-- The test of `_ACC_memory_table_remove`. -/
def Entry.isOf (addr : ℤ) (size : ℕ) (e : Entry) : Bool :=
  decide (e.addr = addr) && decide (e.size = size)

theorem Entry.isOf_iff {addr : ℤ} {size : ℕ} {e : Entry} :
    e.isOf addr size = true ↔ e.addr = addr ∧ e.size = size := by
  simp [Entry.isOf]

namespace Heap

/-- The objects that `free_memory` comes to, in its order. -/
def visits (s : Heap) : ℕ → ℕ → List ℕ
  | 0, _ => []
  | fuel + 1, m => (s.pointeesOf m).flatMap (s.visits fuel) ++ [m]

/-- The end of `free_memory`. -/
def release (s : Heap) (m : ℕ) : Except Fault Heap := do
  let s ← s.decrementRefcount m
  s.freeUnused m

/-- The heap after object `m`, with the record `M`, has been freed. -/
def without (s : Heap) (m : ℕ) (M : Memory) : Heap where
  memory := Function.update s.memory m none
  next := s.next
  table := s.table.eraseP (Entry.isOf M.hostAddr M.size)

def objects (s : Heap) (addr : ℤ) (size : ℕ) : Finset ℕ :=
  (Finset.range s.next).filter fun m =>
    (s.memory m).any fun M => decide (M.hostAddr = addr) && decide (M.size = size)

variable {s t t' : Heap} {m : ℕ} {M : Memory}

theorem mem_objects {addr : ℤ} {size : ℕ} : m ∈ s.objects addr size ↔
    m < s.next ∧ ∃ M, s.memory m = some M ∧ M.hostAddr = addr ∧ M.size = size := by
  rw [objects, Finset.mem_filter, Finset.mem_range, Option.any_eq_true]
  simp

/-! ## Releasing one reference -/

theorem release_cases (h : t.release m = .ok t') :
    ∃ M, t.memory m = some M ∧
      (1 < M.refCount ∧ t' = t.set m { M with refCount := M.refCount - 1 } ∨
        M.refCount = 1 ∧ (t.table.any (Entry.isOf M.hostAddr M.size)) = true ∧
          t' = t.without m M) := by
  cases hm : t.memory m with
  | none =>
    rw [release, decrementRefcount, hm] at h
    cases h
  | some M =>
    refine ⟨M, rfl, ?_⟩
    rw [release, decrementRefcount, hm] at h
    dsimp only at h
    by_cases h0 : M.refCount = 0
    · rw [if_pos h0] at h
      cases h
    rw [if_neg h0] at h
    change (t.set m { M with refCount := M.refCount - 1 }).freeUnused m = .ok t' at h
    have hself : (t.set m { M with refCount := M.refCount - 1 }).memory m =
        some { M with refCount := M.refCount - 1 } := Function.update_self _ _ _
    rw [freeUnused, hself] at h
    dsimp only at h
    by_cases h1 : M.refCount - 1 = 0
    · rw [if_pos h1] at h
      by_cases hany : (t.table.any (Entry.isOf M.hostAddr M.size)) = true
      · right
        refine ⟨by omega, hany, ?_⟩
        have hremove : (t.set m { M with refCount := M.refCount - 1 }).remove M.hostAddr M.size =
            some { t.set m { M with refCount := M.refCount - 1 } with
              table := t.table.eraseP (Entry.isOf M.hostAddr M.size) } := if_pos hany
        rw [hremove] at h
        cases h
        rw [Heap.free, Heap.without, Heap.set]
        simp
      · have hremove : (t.set m { M with refCount := M.refCount - 1 }).remove M.hostAddr M.size =
            none := if_neg hany
        rw [hremove] at h
        cases h
    · rw [if_neg h1] at h
      cases h
      left
      exact ⟨by omega, rfl⟩

/-- What `t` has left of the objects of `s`. -/
structure Remains (s t : Heap) : Prop where
  next : t.next = s.next
  kept : ∀ m M', t.memory m = some M' → ∃ M, s.memory m = some M ∧ M'.hostAddr = M.hostAddr ∧
    M'.size = M.size ∧ M'.pointees = M.pointees ∧ M'.refCount ≤ M.refCount

theorem Remains.refl (s : Heap) : Remains s s where
  next := rfl
  kept _ M' hM := ⟨M', hM, rfl, rfl, rfl, le_rfl⟩

theorem Remains.trans {u : Heap} (h : Remains s t) (h' : Remains t u) : Remains s u where
  next := h'.next.trans h.next
  kept m M'' hM := by
    obtain ⟨M', hM', h1, h2, h3, h4⟩ := h'.kept m M'' hM
    obtain ⟨M, hM, g1, g2, g3, g4⟩ := h.kept m M' hM'
    exact ⟨M, hM, h1.trans g1, h2.trans g2, h3.trans g3, h4.trans g4⟩

theorem remains_set (hm : t.memory m = some M) {c : ℕ} (hc : c ≤ M.refCount) :
    Remains t (t.set m { M with refCount := c }) where
  next := rfl
  kept x X hX := by
    by_cases hx : x = m
    · subst hx
      obtain rfl : { M with refCount := c } = X := by simpa [Heap.set] using hX
      exact ⟨M, hm, rfl, rfl, rfl, hc⟩
    · exact ⟨X, by simpa [Heap.set, hx] using hX, rfl, rfl, rfl, le_rfl⟩

theorem remains_without (t : Heap) (m : ℕ) (M : Memory) : Remains t (t.without m M) where
  next := rfl
  kept x X hX := by
    by_cases hx : x = m
    · simp [without, hx] at hX
    · exact ⟨X, by simpa [without, hx] using hX, rfl, rfl, rfl, le_rfl⟩

theorem remains_release (h : t.release m = .ok t') : Remains t t' := by
  obtain ⟨M, hm, ⟨-, rfl⟩ | ⟨-, -, rfl⟩⟩ := release_cases h
  · exact remains_set hm (Nat.sub_le _ _)
  · exact remains_without _ _ _

theorem remains_releases {L : List ℕ} (h : L.foldlM release t = .ok t') : Remains t t' := by
  induction L generalizing t with
  | nil =>
    cases h
    exact Remains.refl _
  | cons m L ih =>
    rw [List.foldlM_cons] at h
    cases hm : t.release m with
    | error f =>
      rw [hm] at h
      cases h
    | ok u =>
      rw [hm] at h
      exact (remains_release hm).trans (ih h)

/-- Freeing an object is releasing the objects it comes to, one after the other. -/
theorem releases_of_freeMemory {fuel : ℕ} (hr : Remains s t) (h : freeMemory fuel m t = .ok t') :
    (s.visits fuel m).foldlM release t = .ok t' := by
  induction fuel generalizing m t t' with
  | zero => cases h
  | succ fuel ih =>
    unfold freeMemory at h
    cases hm : t.memory m with
    | none =>
      rw [hm] at h
      cases h
    | some M =>
      rw [hm] at h
      dsimp only at h
      have hfold : ∀ (ps : List (ℕ × ℤ)) (u u' : Heap), Remains s u →
          ps.foldlM (fun s p => freeMemory fuel p.1 s) u = .ok u' →
          ((ps.map Prod.fst).flatMap (s.visits fuel)).foldlM release u = .ok u' := by
        intro ps
        induction ps with
        | nil =>
          intro u u' _ hu
          exact hu
        | cons p ps ihps =>
          intro u u' hru hu
          rw [List.foldlM_cons] at hu
          cases hp : freeMemory fuel p.1 u with
          | error f =>
            rw [hp] at hu
            cases hu
          | ok v =>
            rw [hp] at hu
            have hfirst := ih hru hp
            rw [List.map_cons, List.flatMap_cons, List.foldlM_append, hfirst]
            exact ihps v u' (hru.trans (remains_releases hfirst)) hu
      obtain ⟨N, hN, -, -, hp, -⟩ := hr.kept m M hm
      have hpointees : s.pointeesOf m = (M.pointees.getD []).map Prod.fst := by
        simp [pointeesOf, hN, hp]
      cases hu : (M.pointees.getD []).foldlM (fun s p => freeMemory fuel p.1 s) t with
      | error f =>
        rw [hu] at h
        cases h
      | ok u =>
        rw [hu] at h
        rw [visits, hpointees, List.foldlM_append, hfold _ t u hr hu, ← h]
        simp only [List.foldlM_cons, List.foldlM_nil, bind_pure]
        rfl

/-! ## The objects that are left -/

theorem memory_release (h : t.release m = .ok t') {x : ℕ} (hx : x ≠ m) :
    t'.memory x = t.memory x := by
  obtain ⟨M, -, ⟨-, rfl⟩ | ⟨-, -, rfl⟩⟩ := release_cases h
  · simp [Heap.set, hx]
  · simp [without, hx]

/-- Object `x` after `k` of its references have been given back. -/
def after (s : Heap) (k x : ℕ) : Option Memory :=
  (s.memory x).bind fun X =>
    if 0 < k ∧ k = X.refCount then none else some { X with refCount := X.refCount - k }

theorem memory_releases {L : List ℕ} (h : L.foldlM release s = .ok t) (x : ℕ) :
    t.memory x = s.after (L.count x) x ∧
      ∀ X, s.memory x = some X → L.count x ≤ X.refCount := by
  induction L using List.reverseRecOn generalizing t with
  | nil =>
    cases h
    constructor
    · cases hx : s.memory x <;> simp [after, hx]
    · simp
  | append_singleton L m ih =>
    obtain ⟨u, hu, hm⟩ := FoldExcept.foldlM_concat_eq_ok.mp h
    obtain ⟨hmem, hle⟩ := ih hu
    rw [List.count_append]
    by_cases hx : x = m
    · subst hx
      obtain ⟨M, hM, hcase⟩ := release_cases hm
      rw [hM, after] at hmem
      cases hX : s.memory x with
      | none =>
        rw [hX] at hmem
        cases hmem
      | some X =>
        rw [hX] at hmem
        dsimp only [Option.bind_some] at hmem
        have hle := hle X hX
        split_ifs at hmem with hdead
        obtain rfl := Option.some.inj hmem
        obtain ⟨hlt, rfl⟩ | ⟨hlast, -, rfl⟩ := hcase
        · dsimp only at hlt
          have hne : L.count x + 1 ≠ X.refCount := by omega
          constructor
          · simp [after, hX, Heap.set, hne]
            omega
          · intro Y hY
            cases hY
            simp
            omega
        · dsimp only at hlast
          constructor
          · have heq : L.count x + 1 = X.refCount := by omega
            have hpos : 0 < X.refCount := by omega
            simp [after, hX, without, heq, hpos.ne']
          · intro Y hY
            cases hY
            simp
            omega
    · rw [memory_release hm hx, hmem]
      simp [Ne.symm hx]
      exact hle

/-! ## The entries that are left -/

def Even (s : Heap) : Prop :=
  ∀ addr size, (s.table.filter (Entry.isOf addr size)).length = (s.objects addr size).card

def Trimmed (s t : Heap) : Prop :=
  ∀ addr size, t.table.filter (Entry.isOf addr size) <:+ s.table.filter (Entry.isOf addr size)

theorem objects_set (hm : t.memory m = some M) (c : ℕ) (addr : ℤ) (size : ℕ) :
    (t.set m { M with refCount := c }).objects addr size = t.objects addr size := by
  ext x
  rw [mem_objects, mem_objects]
  by_cases hx : x = m
  · subst hx
    simp [Heap.set, hm]
  · simp [Heap.set, hx]

theorem objects_without (hm : t.memory m = some M) (addr : ℤ) (size : ℕ) :
    (t.without m M).objects addr size = (t.objects addr size).erase m := by
  ext x
  rw [Finset.mem_erase, mem_objects, mem_objects]
  by_cases hx : x = m
  · subst hx
    simp [without]
  · simp [without, hx]

theorem isOf_disjoint {addr addr' : ℤ} {size size' : ℕ} (h : ¬ (addr = addr' ∧ size = size'))
    (e : Entry) (he : e.isOf addr size = true) : e.isOf addr' size' = false := by
  rw [Entry.isOf_iff] at he
  rw [Bool.eq_false_iff, Ne, Entry.isOf_iff]
  intro h'
  exact h ⟨he.1.symm.trans h'.1, he.2.symm.trans h'.2⟩

theorem trimmed_release (h : t.release m = .ok t') : Trimmed t t' := by
  obtain ⟨M, -, ⟨-, rfl⟩ | ⟨-, -, rfl⟩⟩ := release_cases h
  · intro addr size
    exact List.suffix_rfl
  · intro addr size
    change (t.table.eraseP _).filter _ <:+ _
    by_cases hr : M.hostAddr = addr ∧ M.size = size
    · rw [hr.1, hr.2, filter_eraseP_self]
      exact List.tail_suffix _
    · rw [filter_eraseP_of_disjoint (isOf_disjoint hr)]

theorem Even.release (he : t.Even) (hfresh : ∀ m, t.next ≤ m → t.memory m = none)
    (h : t.release m = .ok t') : t'.Even := by
  intro addr size
  obtain ⟨M, hm, ⟨-, rfl⟩ | ⟨-, hany, rfl⟩⟩ := release_cases h
  · rw [objects_set hm]
    exact he addr size
  · rw [objects_without hm]
    change ((t.table.eraseP _).filter _).length = _
    by_cases hr : M.hostAddr = addr ∧ M.size = size
    · have hmem : m ∈ t.objects addr size := by
        rw [mem_objects]
        refine ⟨?_, M, hm, hr⟩
        by_contra hc
        rw [hfresh m (Nat.le_of_not_lt hc)] at hm
        cases hm
      rw [hr.1, hr.2, filter_eraseP_self, List.length_tail, he addr size,
        Finset.card_erase_of_mem hmem]
    · have hmem : m ∉ t.objects addr size := by
        rw [mem_objects]
        intro ⟨_, N, hN, hr'⟩
        rw [hm] at hN
        cases hN
        exact hr hr'
      rw [filter_eraseP_of_disjoint (isOf_disjoint hr), he addr size,
        Finset.erase_eq_of_notMem hmem]

theorem fresh_of_remains (hfresh : ∀ m, s.next ≤ m → s.memory m = none) (hr : Remains s t) (m : ℕ)
    (hm : t.next ≤ m) : t.memory m = none := by
  cases h : t.memory m with
  | none => rfl
  | some M =>
    obtain ⟨M, hM, -⟩ := hr.kept m M h
    rw [hfresh m (hr.next ▸ hm)] at hM
    cases hM

theorem table_releases {L : List ℕ} (he : s.Even) (hfresh : ∀ m, s.next ≤ m → s.memory m = none)
    (h : L.foldlM release s = .ok t) : t.Even ∧ Trimmed s t ∧ t.table.Sublist s.table := by
  induction L using List.reverseRecOn generalizing t with
  | nil =>
    cases h
    exact ⟨he, fun _ _ => List.suffix_rfl, List.Sublist.refl _⟩
  | append_singleton L m ih =>
    obtain ⟨u, hu, hm⟩ := FoldExcept.foldlM_concat_eq_ok.mp h
    obtain ⟨heu, htrim, hsub⟩ := ih hu
    refine ⟨heu.release (fresh_of_remains hfresh (remains_releases hu)) hm, ?_, ?_⟩
    · intro addr size
      exact (trimmed_release hm addr size).trans (htrim addr size)
    · obtain ⟨M, -, ⟨-, rfl⟩ | ⟨-, -, rfl⟩⟩ := release_cases hm
      · exact hsub
      · exact (List.eraseP_sublist).trans hsub

theorem Listed.length_filter (h : s.Listed) (hfresh : ∀ m, s.next ≤ m → s.memory m = none)
    (hr : Remains s t) (addr : ℤ) (size : ℕ) :
    ((s.table.filter (Entry.isOf addr size)).filter fun e => (t.memory e.memory).isSome).length =
      (t.objects addr size).card := by
  have hsub : ((s.table.filter (Entry.isOf addr size)).filter fun e =>
      (t.memory e.memory).isSome).Sublist s.table :=
    List.filter_sublist.trans List.filter_sublist
  have hnodup := (h.sorted.sublist (hsub.map Entry.memory)).imp fun hgt => (ne_of_gt hgt)
  rw [← List.length_map Entry.memory, ← List.toFinset_card_of_nodup hnodup]
  congr 1
  ext m
  rw [List.mem_toFinset, List.mem_map, mem_objects]
  constructor
  · intro ⟨e, he, hem⟩
    rw [List.mem_filter, List.mem_filter, Entry.isOf_iff, Option.isSome_iff_exists] at he
    obtain ⟨⟨hmem, haddr, hsize⟩, M', hM'⟩ := he
    obtain ⟨M, hM, h1, h2⟩ := h.entry e hmem
    obtain ⟨N, hN, g1, g2, -⟩ := hr.kept e.memory M' hM'
    rw [hM] at hN
    cases hN
    subst hem
    refine ⟨?_, M', hM', ?_, ?_⟩
    · by_contra hc
      rw [hfresh _ (hr.next ▸ Nat.le_of_not_lt hc)] at hM
      cases hM
    · rw [g1, ← h1, haddr]
    · rw [g2, ← h2, hsize]
  · intro ⟨_, M', hM', haddr, hsize⟩
    obtain ⟨M, hM, g1, g2, -⟩ := hr.kept m M' hM'
    obtain ⟨e, he, rfl⟩ := h.listed m M hM
    obtain ⟨N, hN, h1, h2⟩ := h.entry e he
    rw [hM] at hN
    cases hN
    refine ⟨e, ?_, rfl⟩
    rw [List.mem_filter, List.mem_filter, Entry.isOf_iff]
    exact ⟨⟨he, by rw [h1, ← g1, haddr], by rw [h2, ← g2, hsize]⟩, by simp [hM']⟩

theorem Listed.even (h : s.Listed) (hfresh : ∀ m, s.next ≤ m → s.memory m = none) : s.Even := by
  intro addr size
  have hall : ∀ e ∈ s.table.filter (Entry.isOf addr size), (s.memory e.memory).isSome = true := by
    intro e he
    obtain ⟨M, hM, -⟩ := h.entry e (List.mem_of_mem_filter he)
    simp [hM]
  rw [← h.length_filter hfresh (Remains.refl s), List.filter_eq_self.mpr hall]

def LeavesOldest (s t : Heap) : Prop :=
  ∀ x X y Y, s.memory x = some X → s.memory y = some Y → X.hostAddr = Y.hostAddr →
    X.size = Y.size → x < y → t.memory x = none → t.memory y = none

theorem Listed.of_trimmed (h : s.Listed) (hfresh : ∀ m, s.next ≤ m → s.memory m = none)
    (hr : Remains s t) (he : t.Even) (htrim : Trimmed s t) (hsub : t.table.Sublist s.table)
    (hold : LeavesOldest s t) : t.Listed := by
  have hfilter : ∀ addr size, t.table.filter (Entry.isOf addr size) =
      (s.table.filter (Entry.isOf addr size)).filter fun e => (t.memory e.memory).isSome := by
    intro addr size
    have hlen := (h.length_filter hfresh hr addr size).trans (he addr size).symm
    have hsuffix : ((s.table.filter (Entry.isOf addr size)).filter fun e =>
        (t.memory e.memory).isSome) <:+ s.table.filter (Entry.isOf addr size) := by
      apply filter_isSuffix
      have hsorted := List.pairwise_map.mp h.sorted
      apply (hsorted.sublist List.filter_sublist).imp_of_mem
      intro a b ha hb hab hdead
      rw [List.mem_filter, Entry.isOf_iff] at ha hb
      obtain ⟨A, hA, a1, a2⟩ := h.entry a ha.1
      obtain ⟨B, hB, b1, b2⟩ := h.entry b hb.1
      rw [Option.isSome_eq_false_iff, Option.isNone_iff_eq_none] at hdead ⊢
      apply hold b.memory B a.memory A hB hA _ _ hab hdead
      · rw [← b1, ← a1, hb.2.1, ha.2.1]
      · rw [← b2, ← a2, hb.2.2, ha.2.2]
    have hle := List.suffix_of_suffix_length_le (htrim addr size) hsuffix hlen.ge
    exact hle.eq_of_length hlen.symm
  have hmem : ∀ e, e ∈ t.table ↔ e ∈ s.table ∧ (t.memory e.memory).isSome := by
    intro e
    have hself : e.isOf e.addr e.size = true := Entry.isOf_iff.mpr ⟨rfl, rfl⟩
    have := congrArg (e ∈ ·) (hfilter e.addr e.size)
    simpa [List.mem_filter, hself] using this
  constructor
  · exact h.sorted.sublist (hsub.map Entry.memory)
  · intro e he'
    obtain ⟨hes, hlive⟩ := (hmem e).mp he'
    obtain ⟨M', hM'⟩ := Option.isSome_iff_exists.mp hlive
    obtain ⟨M, hM, h1, h2⟩ := h.entry e hes
    obtain ⟨N, hN, g1, g2, -⟩ := hr.kept e.memory M' hM'
    rw [hM] at hN
    cases hN
    exact ⟨M', hM', h1.trans g1.symm, h2.trans g2.symm⟩
  · intro m M' hM'
    obtain ⟨M, hM, -⟩ := hr.kept m M' hM'
    obtain ⟨e, he', rfl⟩ := h.listed m M hM
    exact ⟨e, (hmem e).mpr ⟨he', by simp [hM']⟩, rfl⟩

/-! ## Runs -/

/-- The references that `_ACC_finalize_data` gives back. -/
def released (s : Heap) (d : Desc) (kind : Kind) (fuel : ℕ) : List ℕ :=
  match kind with
  | .data => s.visits fuel d.memory
  | .enter => []
  | .exit => d.memory :: s.visits fuel d.memory

/-- Giving back the references `L` leaves none to object `x`. -/
def Frees (s : Heap) (L : List ℕ) (x : ℕ) : Prop := x ∈ L ∧ s.refOf x ≤ L.count x

instance (s : Heap) (L : List ℕ) (x : ℕ) : Decidable (s.Frees L x) :=
  inferInstanceAs (Decidable (x ∈ L ∧ s.refOf x ≤ L.count x))

def rangeOf (s : Heap) (m : ℕ) : Option (ℤ × ℕ) := (s.memory m).map fun M => (M.hostAddr, M.size)

/-- An object that is freed is the newest of its range, but for others that are freed, too. -/
def FreesNewest (s : Heap) (L : List ℕ) : Prop :=
  ∀ x ∈ L, ∀ y < s.next, x < y ∧ s.rangeOf x = s.rangeOf y ∧ s.Frees L x → s.Frees L y

instance (s : Heap) (L : List ℕ) : Decidable (s.FreesNewest L) :=
  inferInstanceAs (Decidable
    (∀ x ∈ L, ∀ y < s.next, x < y ∧ s.rangeOf x = s.rangeOf y ∧ s.Frees L x → s.Frees L y))

structure Tidy (s : Heap) : Prop where
  fresh : ∀ m, s.next ≤ m → s.memory m = none
  pos : ∀ m M, s.memory m = some M → 0 < M.refCount
  listed : s.Listed

theorem tidy_releases {L : List ℕ} (hfresh : ∀ m, s.next ≤ m → s.memory m = none)
    (hlisted : s.Listed) (hpos : ∀ m M, s.memory m = some M → m ∉ L → 0 < M.refCount)
    (hnew : s.FreesNewest L) (h : L.foldlM release s = .ok t) : t.Tidy := by
  have hr := remains_releases h
  obtain ⟨heven, htrim, hsub⟩ := table_releases (hlisted.even hfresh) hfresh h
  have hdead : ∀ x X, s.memory x = some X → (t.memory x = none ↔ s.Frees L x) := by
    intro x X hX
    obtain ⟨hx, hle⟩ := memory_releases h x
    have hle := hle X hX
    rw [hx, after, hX, Option.bind_some, Frees, refOf, hX, ← List.count_pos_iff, Option.elim_some]
    split_ifs with hk
    · simp only [true_iff]
      exact ⟨hk.1, hk.2.ge⟩
    · simp only [false_iff]
      intro hfree
      exact hk ⟨hfree.1, Nat.le_antisymm hle hfree.2⟩
  constructor
  · exact fresh_of_remains hfresh hr
  · intro m M' hM'
    obtain ⟨M, hM, -⟩ := hr.kept m M' hM'
    obtain ⟨hm, hle⟩ := memory_releases h m
    have hle := hle M hM
    rw [hM', after, hM, Option.bind_some] at hm
    split_ifs at hm with hk
    cases hm
    by_cases hcount : 0 < L.count m
    · change 0 < M.refCount - L.count m
      omega
    · have hpos := hpos m M hM (by rwa [← List.count_pos_iff])
      change 0 < M.refCount - L.count m
      omega
  · apply hlisted.of_trimmed hfresh hr heven htrim hsub
    intro x X y Y hX hY haddr hsize hlt hx
    rw [hdead x X hX] at hx
    rw [hdead y Y hY]
    apply hnew x hx.1 y _ ⟨hlt, _, hx⟩
    · by_contra hc
      rw [hfresh y (Nat.le_of_not_lt hc)] at hY
      cases hY
    · simp [rangeOf, hX, hY, haddr, hsize]

theorem mem_visits {fuel : ℕ} (h : freeMemory fuel m t = .ok t') : m ∈ s.visits fuel m := by
  cases fuel with
  | zero => cases h
  | succ fuel => simp [visits]

theorem visits_congr (h : ∀ x, t.pointeesOf x = s.pointeesOf x) (fuel m : ℕ) :
    t.visits fuel m = s.visits fuel m := by
  induction fuel generalizing m with
  | zero => rfl
  | succ fuel ih =>
    have hfun : t.visits fuel = s.visits fuel := funext ih
    rw [visits, visits, h, hfun]

theorem Tidy.finalize {d : Desc} {kind : Kind} {fuel : ℕ} (hs : s.Tidy)
    (hnew : s.FreesNewest (s.released d kind fuel)) (h : finalizeData d kind fuel s = .ok t) :
    t.Tidy := by
  cases kind with
  | enter =>
    obtain rfl : s = t := by simpa [finalizeData, pure, Except.pure, bind, Except.bind] using h
    exact hs
  | data =>
    have hfree : freeMemory fuel d.memory s = .ok t := by
      simpa [finalizeData, pure, Except.pure, bind, Except.bind] using h
    apply tidy_releases hs.fresh hs.listed _ hnew (releases_of_freeMemory (Remains.refl s) hfree)
    intro m M hM _
    exact hs.pos m M hM
  | exit =>
    have hbind : (s.decrementRefcount d.memory >>= freeMemory fuel d.memory) = .ok t := by
      simpa [finalizeData] using h
    cases hm : s.memory d.memory with
    | none =>
      rw [decrementRefcount, hm] at hbind
      cases hbind
    | some M =>
      have hpos := hs.pos d.memory M hm
      rw [decrementRefcount, hm] at hbind
      dsimp only at hbind
      rw [if_neg hpos.ne'] at hbind
      -- The reference of the `exit data` itself is given back first.
      have hfree : freeMemory fuel d.memory
          (s.set d.memory { M with refCount := M.refCount - 1 }) = .ok t := hbind
      have hvisits := visits_congr (pointeesOf_set hm (M.refCount - 1)) fuel d.memory
      have hself := mem_visits (s := s) hfree
      have hlisted : (s.set d.memory { M with refCount := M.refCount - 1 }).Listed :=
        hs.listed.set hm rfl rfl
      apply tidy_releases _ hlisted _ _ (releases_of_freeMemory (Remains.refl _) hfree)
      · exact fresh_of_remains hs.fresh (remains_set hm (Nat.sub_le _ _))
      · intro m N hN hmem
        have hne : m ≠ d.memory := by
          intro heq
          rw [hvisits, heq] at hmem
          exact hmem hself
        exact hs.pos m N (by simpa [Heap.set, hne] using hN)
      · rw [hvisits]
        have hfrees : ∀ x, (s.set d.memory { M with refCount := M.refCount - 1 }).Frees
            (s.visits fuel d.memory) x ↔ s.Frees (s.released d .exit fuel) x := by
          intro x
          rw [Frees, Frees, refOf_set, released, List.mem_cons]
          by_cases hx : x = d.memory
          · subst hx
            rw [if_pos rfl, refOf_of_memory hm, List.count_cons_self]
            simp only [hself, true_or, true_and]
            omega
          · rw [if_neg hx, List.count_cons_of_ne (Ne.symm hx)]
            simp [hx]
        have hrange : ∀ x, (s.set d.memory { M with refCount := M.refCount - 1 }).rangeOf x =
            s.rangeOf x := by
          intro x
          by_cases hx : x = d.memory
          · simp [rangeOf, Heap.set, hx, hm]
          · simp [rangeOf, Heap.set, hx]
        intro x hx y hy h'
        rw [hfrees, hrange, hrange] at h'
        rw [hfrees]
        exact hnew x (List.mem_cons_of_mem _ hx) y hy h'

theorem Tidy.init {env : Env} {mode : Mode} {addr : ℤ} {typeSize : ℕ} {dims : List Dim}
    {pointerDimBit : ℕ} {r : Heap × Desc × ℤ} (hs : s.Tidy)
    (h : initData env mode addr typeSize dims pointerDimBit s = .ok r) : r.1.Tidy := by
  -- Any counts are sound for the references that make them so.
  have hready : s.Ready fun m => (s.refOf m : ℤ) - s.slots ∅ m := by
    refine ⟨⟨?_, by simp, hs.fresh⟩, hs.listed⟩
    intro m
    simp
  have hens := ensures_initData env mode addr typeSize dims pointerDimBit hready
  rw [h] at hens
  refine ⟨hens.ready.sound.fresh, ?_, hens.ready.listed⟩
  intro m N' hN'
  by_cases hlt : m < s.next
  · obtain ⟨N, hN⟩ := hens.grows.old m N' hlt hN'
    obtain ⟨N'', hN'', hle, -⟩ := hens.grows.kept m N hN
    rw [hN'] at hN''
    cases hN''
    exact (hs.pos m N hN).trans_le hle
  · exact hens.grows.pos m N' (Nat.le_of_not_lt hlt) hN'

end Heap

/-- Every call of `_ACC_finalize_data` frees the newest objects of their ranges. -/
def NewestFirst (c : Call) (s : Session) : Prop :=
  match c with
  | .init .. => True
  | .finalize i fuel => ∀ d ∈ s.descs[i]?, s.heap.FreesNewest (s.heap.released d.1 d.2 fuel)

instance (c : Call) (s : Session) : Decidable (NewestFirst c s) :=
  match c with
  | .init .. => instDecidableTrue
  | .finalize i fuel => inferInstanceAs (Decidable
      (∀ d ∈ s.descs[i]?, s.heap.FreesNewest (s.heap.released d.1 d.2 fuel)))

theorem exec_of_step {c : Call} {s s' : Session} (h : step c s = some s') : exec c s = .ok s' := by
  unfold step at h
  cases hc : exec c s with
  | error f =>
    rw [hc] at h
    cases h
  | ok t =>
    rw [hc] at h
    cases h
    rfl

theorem exec_init {kind : Kind} {mode : Mode} {env : Env} {addr : ℤ} {typeSize : ℕ}
    {dims : List Dim} {pointerDimBit : ℕ} {s s' : Session}
    (h : exec (.init kind mode env addr typeSize dims pointerDimBit) s = .ok s') :
    ∃ r, initData env mode addr typeSize dims pointerDimBit s.heap = .ok r ∧
      s' = { s with heap := r.1, descs := s.descs ++ [(r.2.1, kind)] } := by
  unfold exec at h
  dsimp only at h
  cases hr : initData env mode addr typeSize dims pointerDimBit s.heap with
  | error f =>
    rw [hr] at h
    cases h
  | ok r =>
    rw [hr] at h
    cases h
    exact ⟨r, rfl, rfl⟩

theorem exec_finalize {i fuel : ℕ} {s s' : Session} (h : exec (.finalize i fuel) s = .ok s') :
    s.descs[i]? = none ∧ s' = s ∨
      ∃ d kind h', s.descs[i]? = some (d, kind) ∧ finalizeData d kind fuel s.heap = .ok h' ∧
        s' = s.finish i d kind h' := by
  unfold exec at h
  dsimp only at h
  split at h
  · next hd =>
    cases h
    exact Or.inl ⟨hd, rfl⟩
  · next d kind hd =>
    cases hf : finalizeData d kind fuel s.heap with
    | error f =>
      rw [hf] at h
      cases h
    | ok h' =>
      rw [hf] at h
      cases h
      exact Or.inr ⟨d, kind, h', hd, hf, rfl⟩

theorem tidy_start : Session.start.heap.Tidy := by
  constructor
  · intro m _
    rfl
  · intro m M hM
    cases hM
  · constructor
    · exact List.Pairwise.nil
    · intro e he
      cases he
    · intro m M hM
      cases hM

theorem tidy_step {c : Call} {s s' : Session} (hs : s.heap.Tidy) (hok : NewestFirst c s)
    (h : step c s = some s') : s'.heap.Tidy := by
  have hexec := exec_of_step h
  cases c with
  | init kind mode env addr typeSize dims pointerDimBit =>
    obtain ⟨r, hr, rfl⟩ := exec_init hexec
    exact hs.init hr
  | finalize i fuel =>
    obtain ⟨-, rfl⟩ | ⟨d, kind, h', hd, hf, rfl⟩ := exec_finalize hexec
    · exact hs
    · exact hs.finalize (hok (d, kind) hd) hf

theorem tidy_of_reachable {s : Session}
    (h : ReachableIf (· = Session.start) NewestFirst step s) : s.heap.Tidy := by
  apply h.invariant
  · intro s hs
    rw [hs]
    exact tidy_start
  · intro c s s' hs hok hstep
    exact tidy_step hs hok hstep

end OmniCompiler.Acc
