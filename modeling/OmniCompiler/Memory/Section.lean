import OmniCompiler.Memory.Blocks

/-!
# Strided sections

A section of any rank is given by its axes, each with a number of elements and the
distances between them on the two sides of a copy. Nested loops over the axes, the
first one innermost, visit the elements in array-element order. An axis whose
elements are adjacent on both sides can be merged into the elements.
-/
namespace OmniCompiler.Memory

/-- Number of elements along an axis and their distances at the destination and the source. -/
structure Axis where
  count : ℕ
  dst : ℤ
  src : ℤ

/-- Loops over `loops`, the first one outermost, around `body`, which gets the addresses. -/
def nest {σ : Type*} (body : ℤ → ℤ → σ → Option σ) : List Axis → ℤ → ℤ → σ → Option σ
  | [], d, s, x => body d s x
  | a :: loops, d, s, x =>
    (List.range a.count).foldlM (fun x (i : ℕ) =>
      nest body loops (d + i * a.dst) (s + i * a.src) x) x

def visited : List Axis → ℤ → ℤ → List (ℤ × ℤ)
  | [], d, s => [(d, s)]
  | a :: loops, d, s =>
    (List.range a.count).flatMap fun i : ℕ => visited loops (d + i * a.dst) (s + i * a.src)

theorem nest_eq_foldlM {σ : Type*} (body : ℤ → ℤ → σ → Option σ) (loops : List Axis) (d s : ℤ)
    (x : σ) : nest body loops d s x =
      (visited loops d s).foldlM (fun x p => body p.1 p.2 x) x := by
  induction loops generalizing d s x with
  | nil => simp [nest, visited]
  | cons a loops ih =>
    have hflat : ∀ (l : List ℕ) (x : σ),
        l.foldlM (fun x (i : ℕ) => nest body loops (d + i * a.dst) (s + i * a.src) x) x =
          (l.flatMap fun i : ℕ => visited loops (d + i * a.dst) (s + i * a.src)).foldlM
            (fun x p => body p.1 p.2 x) x := by
      intro l
      induction l with
      | nil =>
        intro x
        rfl
      | cons i l ihl =>
        intro x
        rw [List.foldlM_cons, List.flatMap_cons, List.foldlM_append, ih]
        congr 1
        funext y
        exact ihl y
    exact hflat _ x

theorem visited_append (loops loops' : List Axis) (d s : ℤ) : visited (loops ++ loops') d s =
    (visited loops d s).flatMap fun p => visited loops' p.1 p.2 := by
  induction loops generalizing d s with
  | nil => simp [visited]
  | cons a loops ih =>
    rw [List.cons_append, visited, visited, List.flatMap_assoc]
    congr 1
    funext i
    exact ih _ _

theorem foldlM_keeps {σ α γ : Type*} (get : σ → γ) {step : σ → α → Option σ}
    (h : ∀ t a t', step t a = some t' → get t' = get t) {l : List α} {t t' : σ}
    (hrun : l.foldlM step t = some t') : get t' = get t := by
  induction l generalizing t with
  | nil =>
    cases hrun
    rfl
  | cons a l ih =>
    rw [List.foldlM_cons] at hrun
    obtain ⟨u, hu, hrest⟩ := Option.bind_eq_some_iff.mp hrun
    rw [ih hrest, h t a u hu]

/-- Steps that succeed where the state has a property, and keep it, succeed over a whole list. -/
theorem foldlM_isSome {σ α : Type*} (P : σ → Prop) {step : σ → α → Option σ} {l : List α}
    (h : ∀ t, ∀ a ∈ l, P t → ∃ t', step t a = some t' ∧ P t') {t : σ} (ht : P t) :
    ∃ t', l.foldlM step t = some t' ∧ P t' := by
  induction l generalizing t with
  | nil => exact ⟨t, rfl, ht⟩
  | cons a l ih =>
    obtain ⟨u, hu, hPu⟩ := h t a List.mem_cons_self ht
    obtain ⟨t', hrun, ht'⟩ := ih (fun t b hb => h t b (List.mem_cons_of_mem a hb)) hPu
    refine ⟨t', ?_, ht'⟩
    rw [List.foldlM_cons, hu]
    exact hrun

theorem visited_shift (loops : List Axis) (d s x y : ℤ) : visited loops (d + x) (s + y) =
    (visited loops d s).map fun p => (p.1 + x, p.2 + y) := by
  induction loops generalizing d s with
  | nil => rfl
  | cons a loops ih =>
    rw [visited, visited, List.map_flatMap]
    congr 1
    funext i
    rw [← ih, add_right_comm, add_right_comm s]

/-- Loops around a body that makes the transfers of inner loops make those of all loops. `get` is
the memory in the state of the loops. -/
theorem nest_transfers {σ β : Type*} (get : σ → ℤ → β) (body : ℤ → ℤ → σ → Option σ) {n : ℕ}
    {src : ℤ → β} {loops inner : List Axis} {d s x y : ℤ}
    (h : ∀ p ∈ visited loops d s, ∀ t, ∃ t', body p.1 p.2 t = some t' ∧
      get t' = transfers n src (get t) (visited inner (p.1 + x) (p.2 + y))) (t : σ) :
    ∃ t', nest body loops d s t = some t' ∧
      get t' = transfers n src (get t) (visited (loops ++ inner) (d + x) (s + y)) := by
  have hlist : ∀ ps : List (ℤ × ℤ), (∀ p ∈ ps, ∀ t, ∃ t', body p.1 p.2 t = some t' ∧
      get t' = transfers n src (get t) (visited inner (p.1 + x) (p.2 + y))) → ∀ t,
      ∃ t', ps.foldlM (fun t p => body p.1 p.2 t) t = some t' ∧ get t' =
        transfers n src (get t) (ps.flatMap fun p => visited inner (p.1 + x) (p.2 + y)) := by
    intro ps
    induction ps with
    | nil =>
      intro _ t
      exact ⟨t, rfl, rfl⟩
    | cons p ps ih =>
      intro hps t
      obtain ⟨u, hu, hget⟩ := hps p List.mem_cons_self t
      obtain ⟨t', ht', hget'⟩ := ih (fun q hq => hps q (List.mem_cons_of_mem _ hq)) u
      refine ⟨t', ?_, ?_⟩
      · rw [List.foldlM_cons, hu]
        exact ht'
      · rw [hget', hget, List.flatMap_cons, transfers, transfers, transfers, List.foldl_append]
  rw [nest_eq_foldlM]
  obtain ⟨t', ht', hget⟩ := hlist _ h t
  refine ⟨t', ht', ?_⟩
  rw [hget, visited_append, visited_shift, List.flatMap_map]

/-! ## Index vectors -/

def IsIndex (axes : List Axis) (v : List ℕ) : Prop := List.Forall₂ (fun i a => i < a.count) v axes

/-- Distance of the element with index `v` from the first one. -/
def place (g : Axis → ℤ) (axes : List Axis) (v : List ℕ) : ℤ :=
  (List.zipWith (fun (i : ℕ) a => (i : ℤ) * g a) v axes).sum

theorem isIndex_cons {a : Axis} {axes : List Axis} {i : ℕ} {v : List ℕ} :
    IsIndex (a :: axes) (i :: v) ↔ i < a.count ∧ IsIndex axes v := List.forall₂_cons

theorem place_cons (g : Axis → ℤ) (a : Axis) (axes : List Axis) (i : ℕ) (v : List ℕ) :
    place g (a :: axes) (i :: v) = i * g a + place g axes v := by simp [place]

theorem IsIndex.reverse {axes : List Axis} {v : List ℕ} (h : IsIndex axes v) :
    IsIndex axes.reverse v.reverse := List.rel_reverse h

theorem place_reverse {g : Axis → ℤ} {axes : List Axis} {v : List ℕ} (h : IsIndex axes v) :
    place g axes.reverse v.reverse = place g axes v := by
  rw [place, place, ← List.reverse_zipWith h.length_eq, List.sum_reverse]

def indices : List Axis → List (List ℕ)
  | [] => [[]]
  | a :: loops => (List.range a.count).flatMap fun i : ℕ => (indices loops).map (i :: ·)

theorem mem_indices {loops : List Axis} {v : List ℕ} : v ∈ indices loops ↔ IsIndex loops v := by
  induction loops generalizing v with
  | nil => simp [indices, IsIndex]
  | cons a loops ih =>
    simp only [indices, List.mem_flatMap, List.mem_range, List.mem_map]
    constructor
    · intro ⟨i, hi, w, hw, hv⟩
      subst hv
      exact isIndex_cons.mpr ⟨hi, ih.mp hw⟩
    · intro h
      cases h with
      | cons hi hw => exact ⟨_, hi, _, ih.mpr hw, rfl⟩

theorem nodup_indices (loops : List Axis) : (indices loops).Nodup := by
  induction loops with
  | nil => simp [indices]
  | cons a loops ih =>
    rw [indices, List.nodup_flatMap]
    constructor
    · intro i _
      exact ih.map fun v w h => (List.cons.inj h).2
    · apply List.nodup_range.imp
      intro i j hij v hv hw
      obtain ⟨x, -, rfl⟩ := List.mem_map.mp hv
      obtain ⟨y, -, hy⟩ := List.mem_map.mp hw
      exact hij (List.cons.inj hy).1.symm

theorem visited_eq_map (loops : List Axis) (d s : ℤ) : visited loops d s =
    (indices loops).map fun v => (d + place Axis.dst loops v, s + place Axis.src loops v) := by
  induction loops generalizing d s with
  | nil => simp [visited, indices, place]
  | cons a loops ih =>
    rw [visited, indices, List.map_flatMap]
    congr 1
    funext i
    rw [ih, List.map_map]
    apply List.map_congr_left
    intro v _
    simp only [Function.comp_apply, place_cons]
    ring_nf

/-! ## Copying a section -/

/-- Every element of the section at `d` holds the element of the same index of the section at
`s`, and nothing else has changed. -/
structure SectionAssigned {β : Type*} (n : ℕ) (axes : List Axis) (d s : ℤ) (src mem mem' : ℤ → β) :
    Prop where
  moved : ∀ v, IsIndex axes v → ∀ r : ℕ, r < n →
    mem' (d + place Axis.dst axes v + r) = src (s + place Axis.src axes v + r)
  kept : ∀ a, (∀ v, IsIndex axes v → ∀ r : ℕ, r < n → a ≠ d + place Axis.dst axes v + r) →
    mem' a = mem a

/-- No two elements of the section at the destination share a cell. -/
def SectionDisjoint (n : ℕ) (axes : List Axis) : Prop :=
  ∀ v w, IsIndex axes v → IsIndex axes w → v ≠ w →
    place Axis.dst axes v + n ≤ place Axis.dst axes w ∨
      place Axis.dst axes w + n ≤ place Axis.dst axes v

variable {β : Type*} {n : ℕ} {axes : List Axis} {d s : ℤ} {src mem mem' : ℤ → β}

theorem mem_visited_reverse {p : ℤ × ℤ} : p ∈ visited axes.reverse d s ↔
    ∃ v, IsIndex axes v ∧ p = (d + place Axis.dst axes v, s + place Axis.src axes v) := by
  rw [visited_eq_map, List.mem_map]
  constructor
  · intro ⟨v, hv, hp⟩
    have hv' := (mem_indices.mp hv).reverse
    rw [List.reverse_reverse] at hv'
    have hrev := fun g => place_reverse (g := g) hv'
    rw [List.reverse_reverse] at hrev
    exact ⟨v.reverse, hv', by rw [← hp, ← hrev, ← hrev]⟩
  · intro ⟨v, hv, hp⟩
    exact ⟨v.reverse, mem_indices.mpr hv.reverse, by rw [place_reverse hv, place_reverse hv, hp]⟩

theorem sectionAssigned_iff :
    SectionAssigned n axes d s src mem mem' ↔
      IsAssignment n (visited axes.reverse d s) src mem mem' := by
  constructor
  · intro h
    constructor
    · intro p hp r hr
      obtain ⟨v, hv, rfl⟩ := mem_visited_reverse.mp hp
      exact h.moved v hv r hr
    · intro a ha
      apply h.kept
      intro v hv r hr
      exact ha _ (mem_visited_reverse.mpr ⟨v, hv, rfl⟩) r hr
  · intro h
    constructor
    · intro v hv r hr
      exact h.moved _ (mem_visited_reverse.mpr ⟨v, hv, rfl⟩) r hr
    · intro a ha
      apply h.kept
      intro p hp r hr
      obtain ⟨v, hv, rfl⟩ := mem_visited_reverse.mp hp
      exact ha v hv r hr

theorem SectionDisjoint.disjointBlocks (h : SectionDisjoint n axes) :
    DisjointBlocks n (visited axes.reverse d s) := by
  rw [DisjointBlocks, visited_eq_map, List.pairwise_map]
  apply (nodup_indices axes.reverse).imp_of_mem
  intro v w hv hw hne
  have hv' := (mem_indices.mp hv).reverse
  have hw' := (mem_indices.mp hw).reverse
  rw [List.reverse_reverse] at hv' hw'
  have hrevv := place_reverse (g := Axis.dst) hv'
  have hrevw := place_reverse (g := Axis.dst) hw'
  rw [List.reverse_reverse] at hrevv hrevw
  have hdis := h v.reverse w.reverse hv' hw' fun heq => hne (List.reverse_injective heq)
  dsimp only
  omega

theorem sectionDisjoint_iff : SectionDisjoint n axes ↔
    ∀ v ∈ indices axes, ∀ w ∈ indices axes, v ≠ w →
      place Axis.dst axes v + n ≤ place Axis.dst axes w ∨
        place Axis.dst axes w + n ≤ place Axis.dst axes v := by
  constructor
  · intro h v hv w hw
    exact h v w (mem_indices.mp hv) (mem_indices.mp hw)
  · intro h v w hv hw
    exact h v (mem_indices.mpr hv) w (mem_indices.mpr hw)

theorem sectionAssigned_transfers (h : SectionDisjoint n axes) (d s : ℤ) (src mem : ℤ → β) :
    SectionAssigned n axes d s src mem (transfers n src mem (visited axes.reverse d s)) :=
  sectionAssigned_iff.mpr (isAssignment_transfers h.disjointBlocks src mem)

/-! ## Adjacent elements -/

theorem transfer_transfer (m n : ℕ) (src mem : ℤ → β) (d s : ℤ) :
    transfer n src (transfer m src mem d s) (d + m) (s + m) = transfer (m + n) src mem d s := by
  funext a
  unfold transfer
  by_cases h1 : d + m ≤ a ∧ a < d + m + n
  · rw [if_pos h1, if_pos (by push_cast; omega)]
    congr 1
    ring
  · rw [if_neg h1]
    by_cases h2 : d ≤ a ∧ a < d + m
    · rw [if_pos h2, if_pos (by push_cast; omega)]
    · rw [if_neg h2, if_neg (by push_cast; omega)]

@[simp] theorem transfer_zero (src mem : ℤ → β) (d s : ℤ) : transfer 0 src mem d s = mem := by
  funext a
  apply transfer_outside
  omega

theorem transfer_buffered (n : ℕ) (src buf mem : ℤ → β) (d s : ℤ) :
    transfer n (transfer n src buf 0 s) mem d 0 = transfer n src mem d s := by
  funext a
  unfold transfer
  by_cases h : d ≤ a ∧ a < d + n
  · rw [if_pos h, if_pos h, if_pos (by omega)]
    congr 1
    ring
  · rw [if_neg h, if_neg h]

theorem transfers_append (n : ℕ) (src mem : ℤ → β) (ps qs : List (ℤ × ℤ)) :
    transfers n src mem (ps ++ qs) = transfers n src (transfers n src mem ps) qs :=
  List.foldl_append

theorem transfers_row (n c : ℕ) (src mem : ℤ → β) (d s : ℤ) :
    transfers n src mem ((List.range c).map fun i : ℕ => (d + i * n, s + i * n)) =
      transfer (n * c) src mem d s := by
  induction c with
  | zero => simp
  | succ c ih =>
    have hstep := transfer_transfer (n * c) n src mem d s
    rw [List.range_succ, List.map_append, transfers_append, ih, Nat.mul_succ, ← hstep]
    simp [mul_comm]

/-- An innermost axis of adjacent elements can be merged into the elements. -/
theorem transfers_merge (n c : ℕ) (loops : List Axis) (d s : ℤ) (src mem : ℤ → β) :
    transfers n src mem (visited (loops ++ [⟨c, n, n⟩]) d s) =
      transfers (n * c) src mem (visited loops d s) := by
  rw [visited_append]
  generalize visited loops d s = ps
  induction ps generalizing mem with
  | nil => rfl
  | cons p ps ih =>
    have hrow := transfers_row n c src mem p.1 p.2
    rw [List.flatMap_cons, transfers_append, transfers_cons, ← hrow, ih]
    simp [visited, List.map_eq_flatMap]

theorem SectionDisjoint.merge {n c : ℕ} {axes : List Axis} (hn : 0 < n)
    (h : SectionDisjoint n (⟨c, n, n⟩ :: axes)) (hc : 0 < c) : SectionDisjoint (n * c) axes := by
  -- Of two merged elements, the first starts before the other one ends only if it reaches its
  -- start.
  have hord : ∀ v w, IsIndex axes v → IsIndex axes w → v ≠ w →
      place Axis.dst axes v ≤ place Axis.dst axes w →
      place Axis.dst axes v + (n * c : ℕ) ≤ place Axis.dst axes w := by
    intro v w hv hw hne hle
    by_contra hlt
    obtain ⟨i, hi⟩ : ∃ i : ℕ, ((place Axis.dst axes w - place Axis.dst axes v) / n : ℤ) = i :=
      Int.eq_ofNat_of_zero_le (Int.ediv_nonneg (by omega) (by omega))
    have hmod := Int.emod_add_mul_ediv (place Axis.dst axes w - place Axis.dst axes v) n
    have hnonneg := Int.emod_nonneg (place Axis.dst axes w - place Axis.dst axes v)
      (show (n : ℤ) ≠ 0 by omega)
    have hbelow := Int.emod_lt_of_pos (place Axis.dst axes w - place Axis.dst axes v)
      (show (0 : ℤ) < n by omega)
    rw [hi] at hmod
    have hic : i < c := by
      by_contra hge
      have hmul : (n : ℤ) * c ≤ n * i := by
        apply mul_le_mul_of_nonneg_left
        · exact_mod_cast Nat.le_of_not_lt hge
        · omega
      push_cast at hlt
      omega
    have hdis := h (i :: v) (0 :: w) (isIndex_cons.mpr ⟨hic, hv⟩) (isIndex_cons.mpr ⟨hc, hw⟩)
      fun heq => hne (List.cons.inj heq).2
    rw [place_cons, place_cons] at hdis
    simp only [Nat.cast_zero, zero_mul, zero_add] at hdis
    rw [mul_comm] at hmod
    omega
  intro v w hv hw hne
  obtain hle | hle := le_total (place Axis.dst axes v) (place Axis.dst axes w)
  · exact Or.inl (hord v w hv hw hne hle)
  · exact Or.inr (hord w v hw hv hne.symm hle)

theorem SectionAssigned.unique {mem'' : ℤ → β} (h : SectionAssigned n axes d s src mem mem')
    (h' : SectionAssigned n axes d s src mem mem'') : mem' = mem'' := by
  funext a
  by_cases ha : ∃ v, IsIndex axes v ∧ ∃ r : ℕ, r < n ∧ a = d + place Axis.dst axes v + r
  · obtain ⟨v, hv, r, hr, rfl⟩ := ha
    rw [h.moved v hv r hr, h'.moved v hv r hr]
  · have hout : ∀ v, IsIndex axes v → ∀ r : ℕ, r < n → a ≠ d + place Axis.dst axes v + r :=
      fun v hv r hr heq => ha ⟨v, hv, r, hr, heq⟩
    rw [h.kept a hout, h'.kept a hout]

theorem sectionAssigned_iff_eq (h : SectionDisjoint n axes) :
    SectionAssigned n axes d s src mem mem' ↔
      mem' = transfers n src mem (visited axes.reverse d s) := by
  constructor
  · intro h'
    exact h'.unique (sectionAssigned_transfers h d s src mem)
  · intro heq
    rw [heq]
    exact sectionAssigned_transfers h d s src mem

theorem SectionAssigned.shift_iff (c : ℤ) :
    SectionAssigned n axes d (s - c) (fun a => src (c + a)) mem mem' ↔
      SectionAssigned n axes d s src mem mem' := by
  have hcell : ∀ p r : ℤ, src (c + (s - c + p + r)) = src (s + p + r) := by
    intro p r
    congr 1
    ring
  constructor
  · intro h
    exact ⟨fun v hv r hr => by rw [h.moved v hv r hr, hcell], h.kept⟩
  · intro h
    exact ⟨fun v hv r hr => by rw [h.moved v hv r hr, hcell], h.kept⟩

/-! ## Parts of a section -/

/-- Number of elements. -/
def elements (axes : List Axis) : ℕ := (axes.map Axis.count).prod

@[simp] theorem elements_nil : elements [] = 1 := rfl

@[simp] theorem elements_cons (a : Axis) (axes : List Axis) :
    elements (a :: axes) = a.count * elements axes := by simp [elements]

theorem elements_append (axes axes' : List Axis) :
    elements (axes ++ axes') = elements axes * elements axes' := by simp [elements]

theorem elements_reverse (axes : List Axis) : elements axes.reverse = elements axes := by
  rw [elements, elements, List.map_reverse, List.prod_reverse]

theorem length_visited (loops : List Axis) (d s : ℤ) :
    (visited loops d s).length = elements loops := by
  induction loops generalizing d s with
  | nil => rfl
  | cons a loops ih => simp [visited, List.length_flatMap, ih]

theorem visited_eq_nil {loops : List Axis} {d s : ℤ} :
    visited loops d s = [] ↔ elements loops = 0 := by
  rw [← List.length_eq_zero_iff, length_visited]

theorem place_append {g : Axis → ℤ} {as bs : List Axis} {v w : List ℕ} (h : v.length = as.length) :
    place g (as ++ bs) (v ++ w) = place g as v + place g bs w := by
  rw [place, List.zipWith_append h, List.sum_append]
  rfl

theorem isIndex_zero {axes : List Axis} (h : elements axes ≠ 0) :
    IsIndex axes (List.replicate axes.length 0) := by
  induction axes with
  | nil => exact List.Forall₂.nil
  | cons a axes ih =>
    rw [elements_cons] at h
    rw [List.length_cons, List.replicate_succ, isIndex_cons]
    exact ⟨Nat.pos_of_ne_zero (left_ne_zero_of_mul h), ih (right_ne_zero_of_mul h)⟩

theorem place_zero (g : Axis → ℤ) (axes : List Axis) :
    place g axes (List.replicate axes.length 0) = 0 := by
  induction axes with
  | nil => rfl
  | cons a axes ih =>
    rw [List.length_cons, List.replicate_succ, place_cons, ih]
    simp

/-- With two elements or more there is an index vector besides the first one. -/
theorem exists_isIndex {axes : List Axis} (h : 1 < elements axes) :
    ∃ v, IsIndex axes v ∧ v ≠ List.replicate axes.length 0 := by
  induction axes with
  | nil => simp at h
  | cons a axes ih =>
    rw [elements_cons] at h
    have hne : a.count * elements axes ≠ 0 := by omega
    by_cases ha : 1 < a.count
    · refine ⟨1 :: List.replicate axes.length 0, isIndex_cons.mpr ⟨ha, isIndex_zero
        (right_ne_zero_of_mul hne)⟩, ?_⟩
      rw [List.length_cons, List.replicate_succ]
      simp
    · have hone : a.count = 1 := by
        have := Nat.pos_of_ne_zero (left_ne_zero_of_mul hne)
        omega
      rw [hone, one_mul] at h
      obtain ⟨v, hv, hv0⟩ := ih h
      refine ⟨0 :: v, isIndex_cons.mpr ⟨by omega, hv⟩, ?_⟩
      rw [List.length_cons, List.replicate_succ]
      simpa using hv0

def Axis.freeze (a : Axis) : Axis := { a with dst := 0 }

def Axis.swap (a : Axis) : Axis := ⟨a.count, a.src, a.dst⟩

theorem nest_freeze {σ : Type*} (body : ℤ → σ → Option σ) (loops : List Axis) (d d' s : ℤ) (t : σ) :
    nest (fun _ s t => body s t) loops d s t =
      nest (fun _ s t => body s t) (loops.map Axis.freeze) d' s t := by
  induction loops generalizing d d' s t with
  | nil => rfl
  | cons a loops ih =>
    rw [List.map_cons, nest, nest]
    congr 1
    funext t i
    exact ih _ _ _ t

theorem map_visited_freeze (loops : List Axis) (d d' s : ℤ) :
    (visited loops d s).map (fun p => (d', p.2)) = visited (loops.map Axis.freeze) d' s := by
  induction loops generalizing d d' s with
  | nil => rfl
  | cons a loops ih =>
    rw [List.map_cons, visited, visited, List.map_flatMap]
    congr 1
    funext i
    rw [ih]
    simp [Axis.freeze]

theorem fst_of_mem_visited_freeze {loops : List Axis} {d s : ℤ} {p : ℤ × ℤ}
    (hp : p ∈ visited (loops.map Axis.freeze) d s) : p.1 = d := by
  rw [← map_visited_freeze loops d] at hp
  obtain ⟨q, -, rfl⟩ := List.mem_map.mp hp
  rfl

theorem elements_freeze (loops : List Axis) :
    elements (loops.map Axis.freeze) = elements loops := by
  rw [elements, elements, List.map_map]
  rfl

theorem visited_freeze_of_elements_eq_one {loops : List Axis} (h : elements loops = 1) (d s : ℤ) :
    visited (loops.map Axis.freeze) d s = visited loops d s := by
  induction loops generalizing d s with
  | nil => rfl
  | cons a loops ih =>
    rw [elements_cons] at h
    have hone : a.count = 1 := Nat.eq_one_of_mul_eq_one_right h
    have hcount : a.freeze.count = 1 := hone
    rw [List.map_cons, visited, visited, hone, hcount]
    simp only [List.range_one, List.flatMap_cons, List.flatMap_nil, List.append_nil, Nat.cast_zero,
      zero_mul, add_zero]
    exact ih (Nat.eq_one_of_mul_eq_one_left h) d s

/-- A cell that some block of a constant source covers gets the constant. -/
theorem transfers_const {ps : List (ℤ × ℤ)} {a : ℤ} (h : ∃ p ∈ ps, p.1 ≤ a ∧ a < p.1 + n) (x : β)
    (mem : ℤ → β) : transfers n (fun _ => x) mem ps a = x := by
  induction ps generalizing mem with
  | nil =>
    obtain ⟨p, hp, -⟩ := h
    cases hp
  | cons p ps ih =>
    rw [transfers_cons]
    by_cases hlater : ∃ q ∈ ps, q.1 ≤ a ∧ a < q.1 + n
    · exact ih hlater _
    · rw [transfers_outside _ fun q hq hin => hlater ⟨q, hq, hin⟩]
      obtain ⟨q, hq, hin⟩ := h
      obtain rfl | hq := List.mem_cons.mp hq
      · exact if_pos hin
      · exact absurd ⟨q, hq, hin⟩ hlater

/-- Transfers to the same places from blocks that hold the same are the same. -/
theorem transfers_congr {γ : Type*} {src src' : ℤ → β} {f g : γ → ℤ × ℤ} (l : List γ)
    (h : ∀ v ∈ l, (f v).1 = (g v).1 ∧ ∀ r : ℕ, r < n → src ((f v).2 + r) = src' ((g v).2 + r))
    (mem : ℤ → β) : transfers n src mem (l.map f) = transfers n src' mem (l.map g) := by
  induction l generalizing mem with
  | nil => rfl
  | cons v l ih =>
    obtain ⟨hdst, hsrc⟩ := h v List.mem_cons_self
    have hfirst : transfer n src mem (f v).1 (f v).2 = transfer n src' mem (g v).1 (g v).2 := by
      funext a
      rw [transfer, transfer, hdst]
      by_cases hin : (g v).1 ≤ a ∧ a < (g v).1 + n
      · obtain ⟨r, hr⟩ := Int.eq_ofNat_of_zero_le (sub_nonneg.mpr hin.1)
        rw [if_pos hin, if_pos hin, hr]
        exact hsrc r (by omega)
      · rw [if_neg hin, if_neg hin]
    rw [List.map_cons, List.map_cons, transfers_cons, transfers_cons, hfirst]
    exact ih (fun w hw => h w (List.mem_cons_of_mem v hw)) _

theorem transfers_zero (src mem : ℤ → β) (ps : List (ℤ × ℤ)) : transfers 0 src mem ps = mem := by
  induction ps with
  | nil => rfl
  | cons p ps ih => rw [transfers_cons, transfer_zero, ih]

/-- Where outer axes do not advance, the elements beyond the first of them are not written. -/
theorem transfers_freeze_ne {inner outer : List Axis} (hn : 0 < n)
    (hd : SectionDisjoint n (inner ++ outer)) (hpos : elements (inner ++ outer) ≠ 0)
    (hmany : 1 < elements outer) {x y : β} (hxy : x ≠ y) :
    transfers n (fun _ => x) (fun _ => y)
        (visited ((outer.reverse.map Axis.freeze) ++ inner.reverse) d s) ≠
      transfers n (fun _ => x) (fun _ => y) (visited (inner ++ outer).reverse d s) := by
  rw [elements_append] at hpos
  obtain ⟨v, hv, hv0⟩ := exists_isIndex hmany
  have hinner := isIndex_zero (left_ne_zero_of_mul hpos)
  have hindex : IsIndex (inner ++ outer) (List.replicate inner.length 0 ++ v) :=
    List.rel_append hinner hv
  have hplace : place Axis.dst (inner ++ outer) (List.replicate inner.length 0 ++ v) =
      place Axis.dst outer v := by
    rw [place_append List.length_replicate, place_zero, zero_add]
  intro heq
  have hcell := congrFun heq (d + place Axis.dst outer v)
  have hassign := sectionAssigned_transfers hd d s (fun _ => x) (fun _ => y)
  have hright := hassign.moved _ hindex 0 hn
  rw [hplace, Nat.cast_zero, add_zero] at hright
  rw [hright, transfers_outside] at hcell
  · exact hxy hcell.symm
  · intro p hp hin
    rw [visited_append, List.mem_flatMap] at hp
    obtain ⟨q, hq, hp⟩ := hp
    obtain ⟨w, hw, rfl⟩ := mem_visited_reverse.mp hp
    rw [fst_of_mem_visited_freeze hq] at hin
    have hw' : IsIndex (inner ++ outer) (w ++ List.replicate outer.length 0) :=
      List.rel_append hw (isIndex_zero (right_ne_zero_of_mul hpos))
    have hne : List.replicate inner.length 0 ++ v ≠ w ++ List.replicate outer.length 0 := by
      intro happ
      exact hv0 (List.append_inj happ (by rw [List.length_replicate, hw.length_eq])).2
    have hdis := hd _ _ hindex hw' hne
    rw [hplace, place_append hw.length_eq, place_zero, add_zero] at hdis
    dsimp only at hin
    omega

end OmniCompiler.Memory
