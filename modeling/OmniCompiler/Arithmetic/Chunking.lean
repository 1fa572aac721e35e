import Mathlib.Data.List.Perm.Basic
import Mathlib.Tactic

/-!
# Cutting a list into blocks

The `i`-th block of width `w` of a list is `(l.drop (i * w)).take w`. Consecutive blocks put
together give the list back; blocks dealt out in turn to `n` parties give it back up to the
order.
-/
namespace OmniCompiler.Chunking

variable {α : Type*}

theorem flatMap_blocks (l : List α) (w n : ℕ) :
    (List.range n).flatMap (fun i => (l.drop (i * w)).take w) = l.take (n * w) := by
  induction n with
  | zero => simp
  | succ n ih =>
    rw [List.range_succ, List.flatMap_append, ih, Nat.succ_mul, List.take_add]
    simp

/-- Party `t` takes the items `t`, `t + n`, `t + 2 * n` and so on, for `J` rounds. -/
theorem flatMap_rounds_perm (f : ℕ → List α) (n J : ℕ) :
    ((List.range n).flatMap fun t => (List.range J).flatMap fun j => f (t + n * j)).Perm
      ((List.range (n * J)).flatMap f) := by
  induction J with
  | zero => simp
  | succ J ih =>
    have hround : (List.range n).flatMap (fun t => f (t + n * J)) =
        ((List.range n).map (n * J + ·)).flatMap f := by
      rw [List.flatMap_map]
      simp only [add_comm]
    have hsplit : ∀ t, (List.range (J + 1)).flatMap (fun j => f (t + n * j)) =
        (List.range J).flatMap (fun j => f (t + n * j)) ++ f (t + n * J) := by
      intro t
      rw [List.range_succ, List.flatMap_append]
      simp
    simp only [hsplit]
    rw [Nat.mul_succ, List.range_add, List.flatMap_append, ← hround]
    apply ((List.range n).flatMap_append_perm _ _).symm.trans
    exact ih.append_right _

theorem getLast_mem_block {l : List α} (hl : l.Nodup) (k w : ℕ) :
    (∃ x, l.getLast? = some x ∧ x ∈ (l.drop k).take w) ↔ k < l.length ∧ l.length ≤ k + w := by
  constructor
  · rintro ⟨x, hlast, hx⟩
    obtain ⟨i, hi, hxi⟩ := List.getElem_of_mem hx
    have hlen : i < w ∧ i < l.length - k := by simpa using hi
    have hne : l ≠ [] := by
      intro h
      simp [h] at hlast
    have hpos := List.length_pos_iff.mpr hne
    have heq : l[k + i] = l[l.length - 1] := by
      rw [List.getLast?_eq_getElem?, List.getElem?_eq_getElem (by omega), Option.some_inj] at hlast
      rw [hlast, ← hxi]
      simp
    have := hl.getElem_inj_iff.mp heq
    omega
  · rintro ⟨hk, hw⟩
    have hi : l.length - 1 - k < ((l.drop k).take w).length := by
      simp
      omega
    refine ⟨l[l.length - 1], ?_, ?_⟩
    · rw [List.getLast?_eq_getElem?, List.getElem?_eq_getElem]
    · have := List.getElem_mem hi
      have hidx : k + (l.length - 1 - k) = l.length - 1 := by omega
      simpa [hidx] using this

theorem flatMap_range_cut (g : ℕ → List α) {R K : ℕ} (h : R ≤ K) :
    (List.range K).flatMap (fun j => if j < R then g j else []) = (List.range R).flatMap g := by
  induction K, h using Nat.le_induction with
  | base =>
    apply List.flatMap_congr
    intro j hj
    rw [if_pos (List.mem_range.mp hj)]
  | succ K hK ih =>
    rw [List.range_succ, List.flatMap_append, ih]
    simp [not_lt.mpr hK]

/-! ## Dealing out until past the end -/

section RoundRobin

variable (n : ℕ) (past : ℕ → Prop) (items : ℕ → List α)

/-- Party `id` takes the items `id`, `id + n`, ... and stops before the first one past the
end, after `J id` items. -/
def Turns (J : ℕ → ℕ) : Prop :=
  ∀ id < n, (∀ j < J id, ¬ past (id + n * j)) ∧ past (id + n * J id)

/-- All that party `id` takes. -/
def taken (J : ℕ → ℕ) (id : ℕ) : List α := (List.range (J id)).flatMap fun j => items (id + n * j)

variable {n past items} {M : ℕ} {J : ℕ → ℕ}

/-- Where the test tells the first `M` items from the `n` that follow, every party stops at its
first item past them. -/
theorem Turns.lt_iff (h : Turns n past J) (hM : ∀ m < M + n, past m ↔ M ≤ m) {id : ℕ}
    (hid : id < n) (j : ℕ) : j < J id ↔ id + n * j < M := by
  obtain ⟨hrun, hstop⟩ := h id hid
  constructor
  · intro hj
    induction j with
    | zero =>
      have := (hM (id + n * 0) (by omega)).not.mp (hrun 0 hj)
      omega
    | succ j ih =>
      have := ih (by omega)
      have := (hM (id + n * (j + 1)) (by rw [Nat.mul_succ]; omega)).not.mp (hrun (j + 1) hj)
      omega
  · intro hj
    by_contra hc
    have hle : n * J id ≤ n * j := Nat.mul_le_mul_left n (not_lt.mp hc)
    have := (hM (id + n * J id) (by omega)).mp hstop
    omega

/-- An item is taken when no item of the same party up to it is past the end. -/
theorem Turns.taken_of (h : Turns n past J) (hn : 0 < n) {m : ℕ}
    (hm : ∀ m' ≤ m, m' % n = m % n → ¬ past m') : m / n < J (m % n) := by
  by_contra hc
  have hle : n * J (m % n) ≤ n * (m / n) := Nat.mul_le_mul_left n (not_lt.mp hc)
  have hdiv := Nat.mod_add_div m n
  apply hm (m % n + n * J (m % n)) (by omega)
  · rw [Nat.add_mul_mod_self_left, Nat.mod_mod]
  · exact (h (m % n) (Nat.mod_lt m hn)).2

theorem exists_turns (hn : 0 < n) (hM : ∀ m < M + n, past m ↔ M ≤ m) : ∃ J, Turns n past J := by
  refine ⟨fun id => (M - id + n - 1) / n, fun id hid => ?_⟩
  have hmul := Nat.div_mul_le_self (M - id + n - 1) n
  have hlt := @Nat.lt_div_mul_add (M - id + n - 1) n hn
  dsimp only
  set q := (M - id + n - 1) / n
  have hq : n * q = q * n := mul_comm n q
  refine ⟨fun j hj => ?_, ?_⟩
  · have hj' : n * (j + 1) ≤ n * q := Nat.mul_le_mul_left n hj
    rw [Nat.mul_succ] at hj'
    rw [hM _ (by omega)]
    omega
  · have hle : id + n * q < M + n := by
      rcases le_or_gt id M with h | h
      · omega
      · have hq0 : q = 0 := Nat.div_eq_of_lt (by omega)
        rw [hq0]
        omega
    rw [hM _ hle]
    omega

theorem Turns.perm (h : Turns n past J) (hM : ∀ m < M + n, past m ↔ M ≤ m) (hn : 0 < n) :
    ((List.range n).flatMap (taken n items J)).Perm ((List.range M).flatMap items) := by
  have hparty : (List.range n).flatMap (taken n items J) = (List.range n).flatMap fun id =>
      (List.range M).flatMap fun j => if id + n * j < M then items (id + n * j) else [] := by
    apply List.flatMap_congr
    intro id hid
    have hlt := h.lt_iff hM (List.mem_range.mp hid)
    have hle : J id ≤ M := by
      by_contra hc
      have := (hlt M).mp (by omega)
      have := Nat.le_mul_of_pos_left M hn
      omega
    rw [taken, ← flatMap_range_cut _ hle]
    simp only [hlt]
  have hcut := flatMap_range_cut items (Nat.le_mul_of_pos_left M hn)
  rw [hparty, ← hcut]
  exact flatMap_rounds_perm (fun m => if m < M then items m else []) n M

end RoundRobin

end OmniCompiler.Chunking
