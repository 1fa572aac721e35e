import Mathlib.Data.List.Sort
import Mathlib.Tactic

/-!
# Rounds in which ranks share what they hold

In round `i` rank `i` packs the cells of a list of positions and every other rank unpacks them at a
list of its own. When these lists name the cells that rank `i` holds, all ranks have the same
contents after the rounds.
-/
namespace OmniCompiler.Memory

variable {ρ : Type*} {S : ℕ}

/-- Stores the contents of a buffer at positions, one after the other. -/
def unpack (positions : List ℤ) (buffer : List ρ) (mem : ℤ → ρ) : ℤ → ρ :=
  (positions.zip buffer).foldl (fun mem p => Function.update mem p.1 p.2) mem

theorem unpack_of_notMem {positions : List ℤ} {buffer : List ρ} {mem : ℤ → ρ} {p : ℤ}
    (h : p ∉ positions) : unpack positions buffer mem p = mem p := by
  induction positions generalizing buffer mem with
  | nil => rfl
  | cons q positions ih =>
    cases buffer with
    | nil => rfl
    | cons x buffer =>
      have hne : p ≠ q := fun hpq => h (hpq ▸ List.mem_cons_self)
      have hrest : p ∉ positions := fun hp => h (List.mem_cons_of_mem q hp)
      show unpack positions buffer (Function.update mem q x) p = mem p
      rw [ih hrest, Function.update_of_ne hne]

theorem unpack_of_mem {positions : List ℤ} (hnodup : positions.Nodup) {src mem : ℤ → ρ} {p : ℤ}
    (h : p ∈ positions) : unpack positions (positions.map src) mem p = src p := by
  induction positions generalizing mem with
  | nil => cases h
  | cons q positions ih =>
    rw [List.nodup_cons] at hnodup
    show unpack positions (positions.map src) (Function.update mem q (src q)) p = src p
    by_cases hp : p ∈ positions
    · exact ih hnodup.2 hp
    · obtain rfl : p = q := (List.mem_cons.mp h).resolve_right hp
      rw [unpack_of_notMem hp, Function.update_self]

/-- Rank `i` packs the cells at `sent`, the other ranks unpack them at `stored`. -/
def shareRound (sent : List ℤ) (stored : Fin S → List ℤ) (i : Fin S) (mems : Fin S → ℤ → ρ) :
    Fin S → ℤ → ρ :=
  fun r => if r = i then mems r else unpack (stored r) (sent.map (mems i)) (mems r)

/-- The cells that rank `i` holds are those that the others unpack. -/
structure SharesHeld (held : Fin S → ℤ → Prop) (i : Fin S) (sent : List ℤ)
    (stored : Fin S → List ℤ) : Prop where
  nodup : sent.Nodup
  mem : ∀ r, r ≠ i → ∀ p, p ∈ stored r ↔ held i p
  same : ∀ r, r ≠ i → stored r = [] ∨ stored r = sent

theorem shareRound_known {held : Fin S → ℤ → Prop} {i : Fin S} {sent : List ℤ}
    {stored : Fin S → List ℤ} (h : SharesHeld held i sent stored) {known : ℤ → Prop}
    {mems : Fin S → ℤ → ρ} {g : ℤ → ρ} (hmems : ∀ r p, held r p ∨ known p → mems r p = g p)
    (r : Fin S) (p : ℤ) (hp : held r p ∨ known p ∨ held i p) :
    shareRound sent stored i mems r p = g p := by
  unfold shareRound
  split_ifs with hri
  · apply hmems
    rw [hri] at hp ⊢
    tauto
  by_cases hstored : p ∈ stored r
  · obtain hempty | hsame := h.same r hri
    · rw [hempty] at hstored
      cases hstored
    · rw [hsame] at hstored ⊢
      rw [unpack_of_mem h.nodup hstored]
      apply hmems
      left
      rw [← h.mem r hri, hsame]
      exact hstored
  · rw [unpack_of_notMem hstored]
    apply hmems
    rw [h.mem r hri] at hstored
    tauto

/-- After the rounds of a list of ranks every cell that one of them holds is known to all. -/
theorem foldl_shareRound {held : Fin S → ℤ → Prop} {sent : Fin S → List ℤ}
    {stored : Fin S → Fin S → List ℤ} (h : ∀ i, SharesHeld held i (sent i) (stored i))
    {mems : Fin S → ℤ → ρ} {g : ℤ → ρ} (hmems : ∀ r p, held r p → mems r p = g p) (l : List (Fin S))
    (r : Fin S) (p : ℤ) (hp : held r p ∨ ∃ i ∈ l, held i p) :
    l.foldl (fun mems i => shareRound (sent i) (stored i) i mems) mems r p = g p := by
  induction l using List.reverseRecOn generalizing r p with
  | nil =>
    apply hmems
    simpa using hp
  | append_singleton l i ih =>
    rw [List.foldl_concat]
    apply shareRound_known (h i) ih
    simp only [List.mem_append, List.mem_singleton] at hp
    obtain hp | ⟨i', hi' | rfl, hp⟩ := hp
    · exact Or.inl hp
    · exact Or.inr (Or.inl ⟨i', hi', hp⟩)
    · exact Or.inr (Or.inr hp)

/-- A property that passes to smaller indices holds on an initial segment. -/
theorem exists_initial_segment {P : ℕ} {p : Fin P → Prop}
    (h : ∀ r r' : Fin P, r' ≤ r → p r → p r') :
    ∃ S ≤ P, ∀ r : Fin P, p r ↔ (r : ℕ) < S := by
  induction P with
  | zero => exact ⟨0, le_rfl, fun r => r.elim0⟩
  | succ P ih =>
    obtain ⟨S, hS, hiff⟩ := @ih (fun r => p r.castSucc) (fun r r' hr => h r.castSucc r'.castSucc hr)
    by_cases hlast : p (Fin.last P)
    · refine ⟨P + 1, le_rfl, ?_⟩
      intro r
      exact iff_of_true (h (Fin.last P) r (Fin.le_last r) hlast) r.isLt
    · refine ⟨S, hS.trans (Nat.le_succ P), ?_⟩
      intro r
      cases r using Fin.lastCases with
      | last => exact iff_of_false hlast (by rw [Fin.val_last]; omega)
      | cast r => exact hiff r

theorem map_val_filter_finRange {P : ℕ} {p : Fin P → Bool} {lo S : ℕ} (hP : lo + S ≤ P)
    (hp : ∀ r : Fin P, p r = true ↔ lo ≤ (r : ℕ) ∧ (r : ℕ) < lo + S) :
    ((List.finRange P).filter p).map Fin.val = List.range' lo S := by
  have hleft : (((List.finRange P).filter p).map Fin.val).Pairwise (· < ·) := by
    rw [List.pairwise_map]
    exact (List.pairwise_lt_finRange P).filter p
  have hright : (List.range' lo S).Pairwise (· < ·) := List.pairwise_lt_range'
  apply List.Pairwise.eq_of_mem_iff hleft hright
  intro x
  rw [List.mem_range'_1, List.mem_map]
  constructor
  · rintro ⟨r, hr, rfl⟩
    exact (hp r).mp (List.mem_filter.mp hr).2
  · intro hx
    exact ⟨⟨x, by omega⟩, List.mem_filter.mpr ⟨List.mem_finRange _, (hp _).mpr hx⟩, rfl⟩

end OmniCompiler.Memory
