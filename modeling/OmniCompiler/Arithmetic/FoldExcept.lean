import Mathlib.Tactic

/-!
# Runs of fallible steps

A successful run of `foldlM` in `Except` establishes, for each of its arguments, what the
step for that argument establishes, provided that steps for other arguments preserve it.
`Ensures` speaks about both outcomes of a computation and is proved along its binds.
-/
namespace OmniCompiler.FoldExcept

variable {ε σ α κ : Type*} {f : σ → α → Except ε σ}

theorem foldlM_concat_eq_ok {l : List α} {a : α} {s s' : σ} :
    (l ++ [a]).foldlM f s = .ok s' ↔ ∃ u, l.foldlM f s = .ok u ∧ f u a = .ok s' := by
  simp only [List.foldlM_append, List.foldlM_cons, List.foldlM_nil, bind_pure]
  cases l.foldlM f s with
  | error e => simp [bind, Except.bind]
  | ok u => simp [bind, Except.bind]

theorem foldlM_spec {Inv : σ → Prop} {P : α → σ → Prop} (key : α → κ)
    (step : ∀ s a s', Inv s → f s a = .ok s' → Inv s' ∧ P a s')
    (frame : ∀ s a s' b, Inv s → f s a = .ok s' → key b ≠ key a → P b s → P b s')
    {l : List α} (hl : (l.map key).Nodup) {s s' : σ} (hs : Inv s) (h : l.foldlM f s = .ok s') :
    Inv s' ∧ ∀ a ∈ l, P a s' := by
  induction l using List.reverseRecOn generalizing s' with
  | nil =>
    cases h
    exact ⟨hs, by simp⟩
  | append_singleton l a ih =>
    obtain ⟨u, hu, ha⟩ := foldlM_concat_eq_ok.mp h
    rw [List.map_append, List.map_singleton, List.nodup_append] at hl
    obtain ⟨hinv, hall⟩ := ih hl.1 hu
    obtain ⟨hinv', hPa⟩ := step u a s' hinv ha
    refine ⟨hinv', fun b hb => ?_⟩
    rcases List.mem_append.mp hb with hb | hb
    · refine frame u a s' b hinv ha ?_ (hall b hb)
      exact hl.2.2 _ (List.mem_map_of_mem hb) _ (List.mem_singleton_self _)
    · obtain rfl := List.mem_singleton.mp hb
      exact hPa

/-- The result satisfies `Good`, the error, if there is one, `Bad`. -/
def Ensures (Good : α → Prop) (Bad : ε → Prop) : Except ε α → Prop
  | .ok a => Good a
  | .error e => Bad e

variable {Bad : ε → Prop}

theorem Ensures.bind.{u} {α β : Type u} {Mid : α → Prop} {Good : β → Prop} {x : Except ε α}
    {g : α → Except ε β}
    (hx : Ensures Mid Bad x) (hg : ∀ a, Mid a → Ensures Good Bad (g a)) :
    Ensures Good Bad (x >>= g) := by
  cases x with
  | error e => exact hx
  | ok a => exact hg a hx

theorem Ensures.imp {Good Good' : α → Prop} {Bad' : ε → Prop} {x : Except ε α}
    (hx : Ensures Good Bad x) (hg : ∀ a, Good a → Good' a) (hb : ∀ e, Bad e → Bad' e) :
    Ensures Good' Bad' x := by
  cases x with
  | error e => exact hb e hx
  | ok a => exact hg a hx

theorem Ensures.foldlM {Inv : σ → Prop} {l : List α} {s : σ} (hs : Inv s)
    (step : ∀ s, ∀ a ∈ l, Inv s → Ensures Inv Bad (f s a)) : Ensures Inv Bad (l.foldlM f s) := by
  induction l generalizing s with
  | nil => exact hs
  | cons a l ih =>
    rw [List.foldlM_cons]
    apply Ensures.bind (step s a (by simp) hs)
    intro t ht
    exact ih ht fun u b hb => step u b (by simp [hb])

/-! ## Counted loops that may be abandoned -/

section Option

variable {g : σ → ℕ → Option σ}

theorem foldlM_range_succ (n : ℕ) (t : σ) :
    (List.range (n + 1)).foldlM g t = ((List.range n).foldlM g t).bind fun u => g u n := by
  rw [List.range_succ, List.foldlM_append]
  simp only [List.foldlM_cons, List.foldlM_nil, bind_pure]
  rfl

theorem foldlM_range_none {n i : ℕ} (hi : i < n) (h : ∀ t, g t i = none) (t : σ) :
    (List.range n).foldlM g t = none := by
  induction n with
  | zero => omega
  | succ n ih =>
    rw [foldlM_range_succ]
    by_cases hin : i = n
    · rw [Option.bind_eq_none_iff, ← hin]
      intro u _
      exact h u
    · rw [ih (by omega), Option.bind_none]

theorem foldlM_range_congr {g' : σ → ℕ → Option σ} {n : ℕ} (h : ∀ i < n, ∀ t, g t i = g' t i)
    (t : σ) : (List.range n).foldlM g t = (List.range n).foldlM g' t := by
  induction n with
  | zero => rfl
  | succ n ih =>
    rw [foldlM_range_succ, foldlM_range_succ, ih fun i hi => h i (by omega)]
    congr 1
    funext u
    exact h n (by omega) u

theorem foldlM_range_self {n : ℕ} {t : σ} (h : ∀ i < n, g t i = some t) :
    (List.range n).foldlM g t = some t := by
  induction n with
  | zero => rfl
  | succ n ih =>
    rw [foldlM_range_succ, ih fun i hi => h i (by omega), Option.bind_some, h n (by omega)]

end Option

end OmniCompiler.FoldExcept
