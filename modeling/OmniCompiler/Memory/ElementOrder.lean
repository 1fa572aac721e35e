import OmniCompiler.Memory.Section

/-!
# Array-element order

In array-element order the first axis varies fastest, so nested loops with the last
axis outermost come to the elements in this order. A section whose distances at the
destination are the products of the counts before stores them one after the other.
-/
namespace OmniCompiler.Memory

variable {β : Type*} {n : ℕ} {axes : List Axis}

/-- Loops, outermost first, that visit adjacent elements of length `n`. -/
def Dense (skip : Axis → ℤ) (n : ℕ) : List Axis → Prop
  | [] => True
  | a :: loops => skip a = (n * elements loops : ℕ) ∧ Dense skip n loops

/-- Blocks of length `n` that follow each other from `d` on. -/
def Adjacent (n : ℕ) : ℤ → List ℤ → Prop
  | _, [] => True
  | d, p :: ps => p = d ∧ Adjacent n (d + n) ps

theorem adjacent_append {n : ℕ} {d : ℤ} {ps qs : List ℤ} :
    Adjacent n d (ps ++ qs) ↔ Adjacent n d ps ∧ Adjacent n (d + (n * ps.length : ℕ)) qs := by
  induction ps generalizing d with
  | nil => simp [Adjacent]
  | cons p ps ih =>
    have hd : d + (n * (p :: ps).length : ℕ) = d + n + (n * ps.length : ℕ) := by
      rw [List.length_cons]
      push_cast
      ring
    rw [List.cons_append, Adjacent, Adjacent, ih, hd, and_assoc]

theorem adjacent_visited {n : ℕ} {loops : List Axis} (h : Dense Axis.dst n loops) (d s : ℤ) :
    Adjacent n d ((visited loops d s).map Prod.fst) := by
  induction loops generalizing d s with
  | nil => simp [visited, Adjacent]
  | cons a loops ih =>
    rw [visited]
    generalize a.count = c
    induction c with
    | zero => simp [Adjacent]
    | succ c ihc =>
      rw [List.range_succ, List.flatMap_append, List.map_append, adjacent_append]
      refine ⟨ihc, ?_⟩
      have hlen : ((List.range c).flatMap fun i : ℕ =>
          visited loops (d + i * a.dst) (s + i * a.src)).length = c * elements loops := by
        simp [List.length_flatMap, length_visited]
      have hnext := ih h.2 (d + c * a.dst) (s + c * a.src)
      rw [List.length_map, hlen, List.flatMap_singleton]
      rw [h.1] at hnext ⊢
      convert hnext using 1
      push_cast
      ring

theorem Adjacent.getElem? {d p : ℤ} {k : ℕ} {ps : List ℤ} (h : Adjacent n d ps)
    (hk : ps[k]? = some p) : p = d + k * n := by
  induction ps generalizing d k with
  | nil => simp at hk
  | cons q ps ih =>
    cases k with
    | zero =>
      rw [List.getElem?_cons_zero] at hk
      rw [← Option.some.inj hk, h.1]
      simp
    | succ k =>
      rw [List.getElem?_cons_succ] at hk
      rw [ih h.2 hk]
      push_cast
      ring

/-! ## Packed axes -/

/-- The axes with the distances at the destination of elements of length `n` that follow each
other in array-element order. -/
def packed : ℕ → List Axis → List Axis
  | _, [] => []
  | n, a :: axes => ⟨a.count, n, a.src⟩ :: packed (n * a.count) axes

theorem dense_packed_append {inner : List Axis} (hinner : Dense Axis.dst n inner) :
    Dense Axis.dst n ((packed (n * elements inner) axes).reverse ++ inner) := by
  induction axes generalizing inner with
  | nil => exact hinner
  | cons a axes ih =>
    have hinner' : Dense Axis.dst n (⟨a.count, (n * elements inner : ℕ), a.src⟩ :: inner) :=
      ⟨rfl, hinner⟩
    have := ih hinner'
    rw [elements_cons, mul_left_comm, mul_comm] at this
    rw [packed, List.reverse_cons, List.append_assoc, List.singleton_append]
    exact this

theorem dense_packed (n : ℕ) (axes : List Axis) : Dense Axis.dst n (packed n axes).reverse := by
  have hall : Dense Axis.dst n ((packed (n * elements []) axes).reverse ++ []) :=
    dense_packed_append trivial
  rwa [List.append_nil, elements_nil, mul_one] at hall

theorem elements_packed (n : ℕ) (axes : List Axis) : elements (packed n axes) = elements axes := by
  induction axes generalizing n with
  | nil => rfl
  | cons a axes ih => rw [packed, elements_cons, elements_cons, ih]

theorem map_freeze_packed (n : ℕ) (axes : List Axis) :
    (packed n axes).map Axis.freeze = axes.map Axis.freeze := by
  induction axes generalizing n with
  | nil => rfl
  | cons a axes ih =>
    rw [packed, List.map_cons, List.map_cons, ih]
    rfl

theorem indices_freeze (loops : List Axis) : indices (loops.map Axis.freeze) = indices loops := by
  induction loops with
  | nil => rfl
  | cons a loops ih =>
    rw [List.map_cons, indices, indices, ih]
    rfl

theorem place_freeze (loops : List Axis) (v : List ℕ) :
    place Axis.src (loops.map Axis.freeze) v = place Axis.src loops v := by
  rw [place, place, List.zipWith_map_right]
  rfl

theorem indices_packed (n : ℕ) (axes : List Axis) :
    indices (packed n axes).reverse = indices axes.reverse := by
  rw [← indices_freeze, ← indices_freeze axes.reverse, List.map_reverse, List.map_reverse,
    map_freeze_packed]

theorem place_packed (n : ℕ) (axes : List Axis) (v : List ℕ) :
    place Axis.src (packed n axes).reverse v = place Axis.src axes.reverse v := by
  rw [← place_freeze, ← place_freeze axes.reverse, List.map_reverse, List.map_reverse,
    map_freeze_packed]

theorem place_of_getElem? {k : ℕ} {v : List ℕ} (hk : (indices axes.reverse)[k]? = some v) :
    place Axis.dst (packed n axes).reverse v = k * n := by
  have hadj := adjacent_visited (dense_packed n axes) 0 0
  rw [visited_eq_map, List.map_map, indices_packed] at hadj
  have := hadj.getElem? (k := k) (p := 0 + place Axis.dst (packed n axes).reverse v) (by
    rw [List.getElem?_map, hk]
    rfl)
  omega

theorem sectionDisjoint_packed (n : ℕ) (axes : List Axis) : SectionDisjoint n (packed n axes) := by
  intro v w hv hw hne
  rw [← place_reverse hv, ← place_reverse hw]
  have hv' := mem_indices.mpr hv.reverse
  have hw' := mem_indices.mpr hw.reverse
  rw [indices_packed] at hv' hw'
  obtain ⟨i, hi⟩ := List.mem_iff_getElem?.mp hv'
  obtain ⟨j, hj⟩ := List.mem_iff_getElem?.mp hw'
  rw [place_of_getElem? hi, place_of_getElem? hj]
  have hij : i ≠ j := by
    intro heq
    rw [heq, hj] at hi
    exact hne (List.reverse_injective (Option.some.inj hi)).symm
  obtain hlt | hlt := Nat.lt_or_gt_of_ne hij
  · left
    have := Nat.mul_le_mul_right n hlt
    rw [Nat.succ_mul] at this
    have hi' : ((i * n : ℕ) : ℤ) = i * n := Nat.cast_mul i n
    have hj' : ((j * n : ℕ) : ℤ) = j * n := Nat.cast_mul j n
    omega
  · right
    have := Nat.mul_le_mul_right n hlt
    rw [Nat.succ_mul] at this
    have hi' : ((i * n : ℕ) : ℤ) = i * n := Nat.cast_mul i n
    have hj' : ((j * n : ℕ) : ℤ) = j * n := Nat.cast_mul j n
    omega

/-! ## Storing in array-element order -/

/-- The element of `remote` with number `k` of the section at `base` is stored at `result + k * n`,
and nothing else has changed. -/
structure StoredInOrder (n : ℕ) (axes : List Axis) (result base : ℤ) (remote mem mem' : ℤ → β) :
    Prop where
  stored : ∀ (k : ℕ) v, (indices axes.reverse)[k]? = some v → ∀ r : ℕ, r < n →
    mem' (result + k * n + r) = remote (base + place Axis.src axes.reverse v + r)
  kept : ∀ a, a < result ∨ result + (elements axes * n : ℕ) ≤ a → mem' a = mem a

variable {result base : ℤ} {remote mem mem' mem'' : ℤ → β}

theorem length_indices (loops : List Axis) : (indices loops).length = elements loops := by
  have := length_visited loops 0 0
  rwa [visited_eq_map, List.length_map] at this

theorem StoredInOrder.unique (h : StoredInOrder n axes result base remote mem mem')
    (h' : StoredInOrder n axes result base remote mem mem'') : mem' = mem'' := by
  funext a
  by_cases hout : a < result ∨ result + (elements axes * n : ℕ) ≤ a
  · rw [h.kept a hout, h'.kept a hout]
  · rw [not_or, not_lt, not_le] at hout
    obtain ⟨x, hx⟩ := Int.eq_ofNat_of_zero_le (sub_nonneg.mpr hout.1)
    have hlt : x < elements axes * n := by omega
    have hn : 0 < n := Nat.pos_of_mul_pos_left (Nat.zero_lt_of_lt hlt)
    have hk : x / n < (indices axes.reverse).length := by
      rw [length_indices, elements_reverse]
      exact Nat.div_lt_of_lt_mul (by rwa [mul_comm])
    have hr := Nat.mod_lt x hn
    have ha : a = result + (x / n : ℕ) * n + (x % n : ℕ) := by
      have := Nat.div_add_mod x n
      rw [mul_comm] at this
      have hcast : ((x / n : ℕ) : ℤ) * n + (x % n : ℕ) = x := by exact_mod_cast this
      omega
    have hv := List.getElem?_eq_getElem hk
    rw [ha, h.stored _ _ hv _ hr, h'.stored _ _ hv _ hr]

theorem storedInOrder_transfers (n : ℕ) (axes : List Axis) (result base : ℤ) (remote mem : ℤ → β) :
    StoredInOrder n axes result base remote mem
      (transfers n remote mem (visited (packed n axes).reverse result base)) := by
  have h := sectionAssigned_transfers (sectionDisjoint_packed n axes) result base remote mem
  constructor
  · intro k v hk r hr
    have hv := List.mem_of_getElem? hk
    rw [← indices_packed n] at hv
    have hv' := (mem_indices.mp hv).reverse
    rw [List.reverse_reverse] at hv'
    have hcell := h.moved v.reverse hv' r hr
    have hplace := fun g => place_reverse (g := g) hv'
    rw [List.reverse_reverse] at hplace
    rwa [← hplace, ← hplace, place_of_getElem? hk, place_packed] at hcell
  · intro a ha
    apply h.kept
    intro v hv r hr heq
    have hv' := mem_indices.mpr hv.reverse
    rw [indices_packed] at hv'
    obtain ⟨k, hk⟩ := List.mem_iff_getElem?.mp hv'
    have hplace := place_of_getElem? (n := n) hk
    rw [place_reverse hv] at hplace
    have hlt : k < elements axes := by
      rw [← elements_reverse, ← length_indices]
      exact (List.getElem?_eq_some_iff.mp hk).1
    have hle := Nat.mul_le_mul_right n hlt
    rw [Nat.succ_mul] at hle
    rw [hplace] at heq
    have hcast : ((k * n : ℕ) : ℤ) = k * n := Nat.cast_mul k n
    omega

theorem storedInOrder_iff_eq : StoredInOrder n axes result base remote mem mem' ↔
    mem' = transfers n remote mem (visited (packed n axes).reverse result base) := by
  constructor
  · intro h
    exact h.unique (storedInOrder_transfers n axes result base remote mem)
  · intro heq
    rw [heq]
    exact storedInOrder_transfers n axes result base remote mem

/-! ## By way of a temporary -/

/-- The axes of a copy from elements of length `n` that follow each other in array-element order. -/
def unpacked (n : ℕ) (axes : List Axis) : List Axis := (packed n (axes.map Axis.swap)).map Axis.swap

theorem indices_swap (loops : List Axis) : indices (loops.map Axis.swap) = indices loops := by
  induction loops with
  | nil => rfl
  | cons a loops ih =>
    rw [List.map_cons, indices, indices, ih]
    rfl

theorem place_src_swap (loops : List Axis) (v : List ℕ) :
    place Axis.src (loops.map Axis.swap) v = place Axis.dst loops v := by
  rw [place, place, List.zipWith_map_right]
  rfl

theorem place_dst_swap (loops : List Axis) (v : List ℕ) :
    place Axis.dst (loops.map Axis.swap) v = place Axis.src loops v := by
  rw [place, place, List.zipWith_map_right]
  rfl

theorem indices_unpacked (n : ℕ) (axes : List Axis) :
    indices (unpacked n axes).reverse = indices axes.reverse := by
  rw [unpacked, ← List.map_reverse, indices_swap, indices_packed, ← List.map_reverse, indices_swap]

/-- A section read into a temporary and then assigned has been copied element by element. -/
theorem transfers_unpacked (h : StoredInOrder n axes result base remote mem mem') (mem'' : ℤ → β)
    (d : ℤ) : transfers n mem' mem'' (visited (unpacked n axes).reverse d result) =
      transfers n remote mem'' (visited axes.reverse d base) := by
  rw [visited_eq_map, visited_eq_map, indices_unpacked]
  apply transfers_congr
  intro v hv
  obtain ⟨k, hk⟩ := List.mem_iff_getElem?.mp hv
  have hk' := hk
  rw [← indices_swap, List.map_reverse] at hk'
  constructor
  · dsimp only
    rw [unpacked, ← List.map_reverse, place_dst_swap, place_packed, ← List.map_reverse,
      place_src_swap]
  · intro r hr
    dsimp only
    rw [unpacked, ← List.map_reverse, place_src_swap, place_of_getElem? hk']
    exact h.stored k v hk r hr

/-- The section at `base` has been read into a temporary and then assigned to the one at `d`. -/
structure GetThenAssigned (n : ℕ) (axes : List Axis) (d base : ℤ) (remote mem mem' : ℤ → β) : Prop
    where
  assigned : ∀ tmp tmp', StoredInOrder n axes 0 base remote tmp tmp' →
    mem' = transfers n tmp' mem (visited (unpacked n axes).reverse d 0)
  elements : SectionDisjoint n axes → SectionAssigned n axes d base remote mem mem'

theorem getThenAssigned_iff_eq {d : ℤ} : GetThenAssigned n axes d base remote mem mem' ↔
    mem' = transfers n remote mem (visited axes.reverse d base) := by
  constructor
  · intro h
    have hstored := storedInOrder_transfers n axes 0 base remote mem
    rw [h.assigned mem _ hstored, transfers_unpacked hstored]
  · intro heq
    constructor
    · intro tmp tmp' hstored
      rw [heq, transfers_unpacked hstored]
    · intro hd
      rw [heq]
      exact sectionAssigned_transfers hd d base remote mem

end OmniCompiler.Memory
