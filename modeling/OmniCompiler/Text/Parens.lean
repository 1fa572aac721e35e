import Mathlib.Tactic

/-!
# Balanced parentheses

The depth of a text is the number of its open parentheses. A text is balanced when none is closed
that has not been opened and none is left open.
-/
namespace OmniCompiler.Parens

/-- The depth behind a character, `none` if a parenthesis is closed that is not open. -/
def next (d : ℕ) (c : Char) : Option ℕ :=
  if c = '(' then some (d + 1)
  else if c = ')' then d.casesOn none some
  else some d

/-- The depth behind a text. -/
def depth (d : ℕ) (s : List Char) : Option ℕ := s.foldlM next d

def IsBalanced (s : List Char) : Prop := depth 0 s = some 0

instance (s : List Char) : Decidable (IsBalanced s) := inferInstanceAs (Decidable (_ = _))

theorem depth_append (d : ℕ) (s t : List Char) :
    depth d (s ++ t) = (depth d s).bind fun d => depth d t := List.foldlM_append

theorem next_add {d k : ℕ} {c : Char} (h : next d c = some k) (n : ℕ) :
    next (d + n) c = some (k + n) := by
  unfold next at h ⊢
  split_ifs at h ⊢
  · obtain rfl := Option.some.inj h
    rw [add_right_comm]
  · cases d with
    | zero => exact absurd h (by simp)
    | succ d =>
      obtain rfl := Option.some.inj h
      rw [add_right_comm]
  · obtain rfl := Option.some.inj h
    rfl

/-- What is open before does not matter to a text that closes no more than it opens. -/
theorem depth_add {d k : ℕ} {s : List Char} (h : depth d s = some k) (n : ℕ) :
    depth (d + n) s = some (k + n) := by
  induction s generalizing d with
  | nil =>
    obtain rfl := Option.some.inj h
    rfl
  | cons c s ih =>
    rw [depth, List.foldlM_cons, Option.bind_eq_bind, Option.bind_eq_some_iff] at h
    obtain ⟨d', hnext, hrest⟩ := h
    rw [depth, List.foldlM_cons, next_add hnext n]
    exact ih hrest

theorem IsBalanced.depth {s : List Char} (h : IsBalanced s) (d : ℕ) : depth d s = some d := by
  have hadd := depth_add h d
  rwa [zero_add] at hadd

theorem IsBalanced.append {s t : List Char} (hs : IsBalanced s) (ht : IsBalanced t) :
    IsBalanced (s ++ t) := by
  rw [IsBalanced, depth_append, hs.depth, Option.bind_some, ht.depth]

theorem balanced_of_all {s : List Char} (h : ∀ c ∈ s, c ≠ '(' ∧ c ≠ ')') : IsBalanced s := by
  induction s with
  | nil => rfl
  | cons c s ih =>
    obtain ⟨hopen, hclose⟩ := h c List.mem_cons_self
    rw [IsBalanced, Parens.depth, List.foldlM_cons, next, if_neg hopen, if_neg hclose]
    exact ih fun c hc => h c (List.mem_cons_of_mem _ hc)

theorem IsBalanced.parens {s : List Char} (h : IsBalanced s) :
    IsBalanced ('(' :: (s ++ [')'])) := by
  have hopen : Parens.depth 0 ['('] = some 1 := rfl
  rw [IsBalanced, ← List.singleton_append, depth_append, hopen, Option.bind_some,
    depth_append, h.depth]
  rfl

theorem balanced_intercalate {sep : List Char} (hsep : IsBalanced sep) {ss : List (List Char)}
    (h : ∀ s ∈ ss, IsBalanced s) : IsBalanced (sep.intercalate ss) := by
  induction ss with
  | nil => rfl
  | cons s ss ih =>
    obtain ⟨hs, hss⟩ := List.forall_mem_cons.mp h
    cases ss with
    | nil => simpa [List.intercalate] using hs
    | cons t ss =>
      have hrest := ih hss
      have hcons : sep.intercalate (s :: t :: ss) = s ++ (sep ++ sep.intercalate (t :: ss)) := by
        simp [List.intercalate]
      rw [hcons]
      exact hs.append (hsep.append hrest)

/-- A text whose parentheses are balanced. -/
structure BalancedText where
  text : List Char
  balanced : IsBalanced text

end OmniCompiler.Parens
