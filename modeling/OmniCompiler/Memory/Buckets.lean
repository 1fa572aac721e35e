import Mathlib.Data.List.Perm.Basic
import Mathlib.Data.List.Flatten
import Mathlib.Tactic

/-!
# Chains of items

An array of chains, each a linked list that grows at its head. What the chains hold is a matter
of their concatenation up to order: putting an item in adds it, unlinking takes one away, and
spreading all of them over a new array changes nothing.
-/
namespace OmniCompiler.Memory.Buckets

variable {α β : Type*}

/-- The chain at index `i`, empty outside of the array. -/
def chain (b : List (List α)) (i : ℕ) : List α := b.getD i []

/-- `x` at the head of chain `i`. -/
def put (b : List (List α)) (i : ℕ) (x : α) : List (List α) := b.modify i (x :: ·)

/-- The items of `l`, one after the other, put into `n` new chains. -/
def spread (index : α → ℕ) (f : α → α) (n : ℕ) (l : List α) : List (List α) :=
  l.foldl (fun b x => put b (index x) (f x)) (List.replicate n [])

/-- The list without the first item that satisfies `p`, or nothing where there is none. -/
def unlink (p : α → Bool) : List α → Option (List α)
  | [] => none
  | x :: l => if p x then some l else (unlink p l).map (x :: ·)

/-- Each item lies in the chain that its index names. -/
def Placed (index : α → ℕ) (b : List (List α)) : Prop := ∀ i, ∀ x ∈ chain b i, index x = i

variable {b : List (List α)} {index : α → ℕ} {f : α → α} {p : α → Bool}

/-! ## One chain and all of them -/

theorem mem_flatten_iff {x : α} : x ∈ b.flatten ↔ ∃ i, x ∈ chain b i := by
  constructor
  · intro h
    obtain ⟨l, hl, hx⟩ := List.mem_flatten.mp h
    obtain ⟨i, hi, rfl⟩ := List.getElem_of_mem hl
    exact ⟨i, by simpa [chain, hi] using hx⟩
  · rintro ⟨i, hx⟩
    have hi : i < b.length := by
      by_contra hi
      simp [chain, List.getElem?_eq_none (Nat.le_of_not_lt hi)] at hx
    exact List.mem_flatten.mpr ⟨b[i], List.getElem_mem hi, by simpa [chain, hi] using hx⟩

theorem Placed.mem_chain (h : Placed index b) {x : α} (hx : x ∈ b.flatten) :
    x ∈ chain b (index x) := by
  obtain ⟨i, hi⟩ := mem_flatten_iff.mp hx
  exact h i x hi ▸ hi

theorem exists_flatten_modify {i : ℕ} (hi : i < b.length) (f : List α → List α) :
    b.flatten = (b.take i).flatten ++ (chain b i ++ (b.drop (i + 1)).flatten) ∧
      (b.modify i f).flatten =
        (b.take i).flatten ++ (f (chain b i) ++ (b.drop (i + 1)).flatten) := by
  constructor
  · have hb : b = b.take i ++ b[i] :: b.drop (i + 1) := by simp
    conv_lhs => rw [hb, List.flatten_append, List.flatten_cons]
    simp [chain, hi]
  · simp [List.modify_eq_take_cons_drop hi, chain, hi]

/-! ## Putting in -/

@[simp] theorem length_put (i : ℕ) (x : α) : (put b i x).length = b.length := by
  simp [put]

theorem mem_chain_put {i j : ℕ} {x y : α} (h : y ∈ chain (put b i x) j) :
    y ∈ chain b j ∨ y = x ∧ i = j := by
  rcases Nat.lt_or_ge j b.length with hj | hj
  · by_cases hij : i = j
    · subst hij
      have h' : y ∈ x :: chain b i := by simpa [chain, put, hj, List.getElem_modify] using h
      exact (List.mem_cons.mp h').symm.imp id fun hy => ⟨hy, rfl⟩
    · exact .inl (by simpa [chain, put, hj, hij, List.getElem_modify] using h)
  · simp [chain, put, hj] at h

theorem perm_put {i : ℕ} (hi : i < b.length) (x : α) :
    (put b i x).flatten.Perm (x :: b.flatten) := by
  obtain ⟨hb, hm⟩ := exists_flatten_modify hi (x :: ·)
  rw [put, hm, hb]
  exact List.perm_middle

theorem Placed.put (h : Placed index b) (x : α) : Placed index (put b (index x) x) := by
  intro i y hy
  obtain hy | ⟨rfl, rfl⟩ := mem_chain_put hy
  · exact h i y hy
  · rfl

/-! ## Spreading -/

theorem placed_replicate (index : α → ℕ) (n : ℕ) :
    Placed index (List.replicate n ([] : List α)) := by
  intro i x hx
  obtain ⟨l, hl, hx⟩ := List.mem_flatten.mp (mem_flatten_iff.mpr ⟨i, hx⟩)
  simp [List.eq_of_mem_replicate hl] at hx

theorem length_foldl_put (l : List α) :
    (l.foldl (fun b x => put b (index x) (f x)) b).length = b.length := by
  induction l generalizing b with
  | nil => rfl
  | cons x l ih => simp [ih]

@[simp] theorem length_spread (n : ℕ) (l : List α) :
    (spread index f n l).length = n := by
  simp [spread, length_foldl_put]

theorem perm_foldl_put {l : List α} (h : ∀ x ∈ l, index x < b.length) :
    (l.foldl (fun b x => put b (index x) (f x)) b).flatten.Perm
      (l.map f ++ b.flatten) := by
  induction l generalizing b with
  | nil => exact .refl _
  | cons x l ih =>
    have hx := h x List.mem_cons_self
    refine (ih (b := put b (index x) (f x)) fun y hy => ?_).trans ?_
    · simpa using h y (List.mem_cons_of_mem _ hy)
    · exact ((perm_put hx (f x)).append_left _).trans List.perm_middle

theorem perm_spread {n : ℕ} {l : List α} (h : ∀ x ∈ l, index x < n) :
    (spread index f n l).flatten.Perm (l.map f) := by
  simpa [spread] using perm_foldl_put (b := List.replicate n []) (f := f) (by simpa using h)

theorem Placed.foldl_put {index' : α → ℕ} (hb : Placed index' b) {l : List α}
    (h : ∀ x ∈ l, index' (f x) = index x) :
    Placed index' (l.foldl (fun b x => Buckets.put b (index x) (f x)) b) := by
  induction l generalizing b with
  | nil => exact hb
  | cons x l ih =>
    refine ih ?_ fun y hy => h y (List.mem_cons_of_mem _ hy)
    simpa [h x List.mem_cons_self] using hb.put (f x)

theorem placed_spread {index' : α → ℕ} {l : List α}
    (h : ∀ x ∈ l, index' (f x) = index x) (n : ℕ) :
    Placed index' (spread index f n l) :=
  (placed_replicate index' n).foldl_put h

/-! ## Taking out -/

theorem exists_unlink {l : List α} {x : α} (hx : x ∈ l) (hp : p x) :
    ∃ l', unlink p l = some l' := by
  induction l with
  | nil => cases hx
  | cons y l ih =>
    by_cases hy : p y
    · exact ⟨l, by simp [unlink, hy]⟩
    · have hx' : x ∈ l := by
        rcases List.mem_cons.mp hx with rfl | hx'
        · exact absurd hp hy
        · exact hx'
      obtain ⟨l', hl'⟩ := ih hx'
      exact ⟨y :: l', by simp [unlink, hy, hl']⟩

theorem exists_perm_of_unlink {l l' : List α} (h : unlink p l = some l') :
    ∃ x, p x ∧ l.Perm (x :: l') ∧ l'.Sublist l := by
  induction l generalizing l' with
  | nil => cases h
  | cons y l ih =>
    by_cases hy : p y
    · obtain rfl : l = l' := by simpa [unlink, hy] using h
      exact ⟨y, hy, .refl _, List.sublist_cons_self y l⟩
    · obtain ⟨r, hr, rfl⟩ : ∃ r, unlink p l = some r ∧ y :: r = l' := by
        simpa [unlink, hy] using h
      obtain ⟨x, hx, hperm, hsub⟩ := ih hr
      exact ⟨x, hx, (hperm.cons y).trans (.swap x y r), hsub.cons_cons y⟩

theorem exists_append_of_unlink {l₁ l₂ l : List α} (h : unlink p (l₁ ++ l₂) = some l)
    (hp : ∀ x ∈ l₂, p x = false) : ∃ l', l = l' ++ l₂ := by
  induction l₁ generalizing l with
  | nil =>
    obtain ⟨x, hx, hperm, -⟩ := exists_perm_of_unlink h
    have hmem : x ∈ l₂ := hperm.mem_iff.mpr List.mem_cons_self
    simp [hp x hmem] at hx
  | cons y l₁ ih =>
    by_cases hy : p y
    · exact ⟨l₁, by simpa [unlink, hy] using h.symm⟩
    · obtain ⟨r, hr, rfl⟩ : ∃ r, unlink p (l₁ ++ l₂) = some r ∧ y :: r = l := by
        simpa [unlink, hy] using h
      obtain ⟨l', rfl⟩ := ih hr
      exact ⟨y :: l', rfl⟩

theorem perm_set_unlink {i : ℕ} {l : List α} (hi : i < b.length)
    (h : unlink p (chain b i) = some l) :
    ∃ x, p x ∧ x ∈ chain b i ∧ b.flatten.Perm (x :: (b.set i l).flatten) := by
  obtain ⟨x, hx, hperm, -⟩ := exists_perm_of_unlink h
  refine ⟨x, hx, hperm.mem_iff.mpr List.mem_cons_self, ?_⟩
  have hset : b.set i l = b.modify i fun _ => l := by
    rw [List.modify_eq_set_getElem?]
    simp [hi]
  obtain ⟨hb, hm⟩ := exists_flatten_modify hi fun _ => l
  rw [hset, hm, hb]
  refine ((hperm.append_right _).append_left _).trans ?_
  rw [List.cons_append]
  exact List.perm_middle

theorem Placed.set {i : ℕ} {l : List α} (h : Placed index b) (hl : l ⊆ chain b i) :
    Placed index (b.set i l) := by
  intro j x hx
  by_cases hij : i = j
  · subst hij
    rcases Nat.lt_or_ge i b.length with hi | hi
    · exact h i x (hl (by simpa [chain, hi] using hx))
    · simp [chain, hi] at hx
  · refine h j x ?_
    simpa [chain, List.getD_eq_getElem?_getD, List.getElem?_set_ne hij] using hx

end OmniCompiler.Memory.Buckets
