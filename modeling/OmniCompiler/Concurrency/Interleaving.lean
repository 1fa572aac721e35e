import Mathlib.Data.Fintype.Card
import Mathlib.Data.Finset.Update
import Mathlib.Tactic

/-!
# Interleavings

Threads that share a state take turns in any order. One move of a thread is an
atomic step `step l s`, which is `none` while the thread has to wait; `l` names
the thread and, where it has a choice, what it does. A run may be restricted to
steps that meet a condition on the state before them.
-/
namespace OmniCompiler.Interleaving

variable {σ α : Type*}

/-- States reached from a starting state when every step meets `ok`. -/
inductive ReachableIf (start : σ → Prop) (ok : α → σ → Prop) (step : α → σ → Option σ) : σ → Prop
  | start {s : σ} : start s → ReachableIf start ok step s
  | step {s s' : σ} (l : α) : ReachableIf start ok step s → ok l s → step l s = some s' →
      ReachableIf start ok step s'

/-- States reached by any interleaving. -/
def Reachable (start : σ → Prop) (step : α → σ → Option σ) : σ → Prop :=
  ReachableIf start (fun _ _ => True) step

variable {start : σ → Prop} {ok : α → σ → Prop} {step : α → σ → Option σ} {s : σ}

/-- What holds at the start and is kept by every step holds in every state reached. -/
theorem ReachableIf.invariant {Inv : σ → Prop} (h : ReachableIf start ok step s)
    (hstart : ∀ s, start s → Inv s)
    (hstep : ∀ l s s', Inv s → ok l s → step l s = some s' → Inv s') : Inv s := by
  induction h with
  | start h => exact hstart _ h
  | step l _ hok hs ih => exact hstep l _ _ ih hok hs

theorem Reachable.invariant {Inv : σ → Prop} (h : Reachable start step s)
    (hstart : ∀ s, start s → Inv s) (hstep : ∀ l s s', Inv s → step l s = some s' → Inv s') :
    Inv s :=
  ReachableIf.invariant h hstart fun l s s' hi _ hs => hstep l s s' hi hs

/-- The state after the moves `ls`, made in this order. -/
def run (step : α → σ → Option σ) (ls : List α) (s : σ) : Option σ :=
  ls.foldlM (fun s l => step l s) s

theorem reachableIf_of_run [∀ l s, Decidable (ok l s)] (ls : List α) {s₀ : σ} (h0 : start s₀)
    (h : run (fun l s => if ok l s then step l s else none) ls s₀ = some s) :
    ReachableIf start ok step s := by
  have hall : ∀ (ls : List α) (t : σ), ReachableIf start ok step t →
      run (fun l s => if ok l s then step l s else none) ls t = some s →
      ReachableIf start ok step s := by
    intro ls
    induction ls with
    | nil =>
      intro t ht hs
      obtain rfl : t = s := by simpa [run] using hs
      exact ht
    | cons l ls ih =>
      intro t ht hs
      rw [run, List.foldlM_cons, Option.bind_eq_bind, Option.bind_eq_some_iff] at hs
      obtain ⟨t', h1, h2⟩ := hs
      split_ifs at h1 with hok
      exact ih t' (ReachableIf.step l ht hok h1) h2
  exact hall ls s₀ (ReachableIf.start h0) h

theorem run_cons {l : α} {ls : List α} {s₀ : σ} (h : run step (l :: ls) s₀ = some s) :
    ∃ t, step l s₀ = some t ∧ run step ls t = some s := by
  rwa [run, List.foldlM_cons, Option.bind_eq_bind, Option.bind_eq_some_iff] at h

theorem reachable_of_run (ls : List α) {s₀ : σ} (h0 : start s₀) (h : run step ls s₀ = some s) :
    Reachable start step s := by
  apply reachableIf_of_run ls h0
  simpa using h

/-- When some thread can move in every state reached that is not final, and each move makes `μ`
smaller, every run goes on to a final state. -/
theorem exists_final {final : σ → Prop} {μ : σ → ℕ}
    (hprogress : ∀ s, Reachable start step s → ¬ final s → ∃ l s', step l s = some s')
    (hless : ∀ s l s', Reachable start step s → step l s = some s' → μ s' < μ s)
    (h : Reachable start step s) :
    ∃ ls s', run step ls s = some s' ∧ Reachable start step s' ∧ final s' := by
  induction hμ : μ s using Nat.strong_induction_on generalizing s with
  | _ m ih =>
    by_cases hf : final s
    · exact ⟨[], s, rfl, h, hf⟩
    · obtain ⟨l, t, ht⟩ := hprogress s h hf
      have hlt := hless s l t h ht
      rw [hμ] at hlt
      obtain ⟨ls, s', hrun, hs'⟩ := ih (μ t) hlt (ReachableIf.step l h trivial ht) rfl
      refine ⟨l :: ls, s', ?_, hs'⟩
      rw [run, List.foldlM_cons, ht]
      exact hrun

/-! ## Counting threads by a flag -/

variable {ι : Type*} [Fintype ι] [DecidableEq ι]

def countSet (f : ι → Bool) : ℕ := (Finset.univ.filter fun i => f i = true).card

theorem countSet_update {f : ι → Bool} {i : ι} (h : f i = false) :
    countSet (Function.update f i true) = countSet f + 1 := by
  have hins : (Finset.univ.filter fun j => Function.update f i true j = true) =
      insert i (Finset.univ.filter fun j => f j = true) := by
    ext j
    by_cases hj : j = i
    · simp [hj]
    · simp [hj]
  rw [countSet, hins, Finset.card_insert_of_notMem (by simp [h]), countSet]

omit [DecidableEq ι] in
theorem countSet_none : countSet (fun _ : ι => false) = 0 := by simp [countSet]

theorem set_of_countSet {f : ι → Bool} {i : ι} (h : f i = false)
    (hc : countSet f + 1 = Fintype.card ι) {j : ι} (hj : j ≠ i) : f j = true := by
  by_contra hf
  have hsub : (Finset.univ.filter fun k => f k = true) ⊆ (Finset.univ.erase i).erase j := by
    intro k hk
    rw [Finset.mem_filter] at hk
    rw [Finset.mem_erase, Finset.mem_erase]
    refine ⟨?_, ?_, Finset.mem_univ k⟩
    · rintro rfl
      exact hf hk.2
    · rintro rfl
      simp [h] at hk
  have hle := Finset.card_le_card hsub
  rw [Finset.card_erase_of_mem (by simp [hj]), Finset.card_erase_of_mem (Finset.mem_univ i),
    Finset.card_univ] at hle
  have hpos : 1 < Fintype.card ι := Fintype.one_lt_card_iff.mpr ⟨j, i, hj⟩
  rw [countSet] at hc
  omega

omit [DecidableEq ι] in
theorem countSet_lt {f : ι → Bool} {i : ι} (h : f i = false) : countSet f < Fintype.card ι := by
  apply Finset.card_lt_univ_of_notMem (x := i)
  simp [h]

omit [DecidableEq ι] in
theorem countSet_pos_iff {f : ι → Bool} : 0 < countSet f ↔ ∃ i, f i = true := by
  rw [countSet, Finset.card_pos]
  constructor
  · rintro ⟨i, hi⟩
    exact ⟨i, (Finset.mem_filter.mp hi).2⟩
  · rintro ⟨i, hi⟩
    exact ⟨i, Finset.mem_filter.mpr ⟨Finset.mem_univ i, hi⟩⟩

omit [DecidableEq ι] in
theorem countSet_lt_countSet {f g : ι → Bool} (hfg : ∀ i, f i = true → g i = true) {i : ι}
    (hf : f i = false) (hg : g i = true) : countSet f < countSet g := by
  apply Finset.card_lt_card
  rw [Finset.ssubset_iff_of_subset]
  · exact ⟨i, by simp [hg], by simp [hf]⟩
  · intro j hj
    rw [Finset.mem_filter] at hj ⊢
    exact ⟨hj.1, hfg j hj.2⟩

section Update

variable {β : Type*} {p : β → Bool} {f : ι → β} {i : ι} {x : β}

/-- A step of one thread that leaves its flag leaves the number of flagged threads. -/
theorem countSet_update_eq (h : p x = p (f i)) :
    countSet (fun j => p (Function.update f i x j)) = countSet fun j => p (f j) := by
  congr 1
  funext j
  by_cases hj : j = i
  · rw [hj, Function.update_self, h]
  · rw [Function.update_of_ne hj]

theorem countSet_update_succ (h0 : p (f i) = false) (h1 : p x = true) :
    countSet (fun j => p (Function.update f i x j)) = (countSet fun j => p (f j)) + 1 := by
  rw [← countSet_update (f := fun j => p (f j)) h0]
  congr 1
  funext j
  by_cases hj : j = i
  · rw [hj, Function.update_self, Function.update_self, h1]
  · rw [Function.update_of_ne hj, Function.update_of_ne hj]

end Update

end OmniCompiler.Interleaving
