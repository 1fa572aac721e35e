import Mathlib.Logic.Relation
import Mathlib.Tactic

/-!
# Climbing along parents

Objects are numbered in the order of their creation, and the parent of an object is an older one or
the object itself. Following parents, a chain ends at an object without parent or runs into one
that is its own parent. A chain that is unrolled a number of times may be cut.
-/
namespace OmniCompiler

inductive Chain (α : Type*) where
  | root (a : α)
  | cut (a : α)
  | link (a : α) (c : Chain α)

namespace Chain

variable {α : Type*}

def any (p : α → Bool) : Chain α → Bool
  | .root a => p a
  | .cut a => p a
  | .link a c => p a || c.any p

def complete : Chain α → Bool
  | .root _ => true
  | .cut _ => false
  | .link _ c => c.complete

variable (parent : ℕ → Option ℕ) (get : ℕ → α)

def unroll : ℕ → ℕ → Chain α
  | 0, a => match parent a with
    | none => .root (get a)
    | some _ => .cut (get a)
  | fuel + 1, a => match parent a with
    | none => .root (get a)
    | some b => .link (get a) (unroll fuel b)

def Ancestor : ℕ → ℕ → Prop := Relation.ReflTransGen fun a b => parent a = some b

variable {parent get} {p : α → Bool}

theorem ancestor_iff {a b : ℕ} (hab : parent a = some b) {c : ℕ} :
    Ancestor parent a c ↔ a = c ∨ Ancestor parent b c := by
  rw [Ancestor, Relation.ReflTransGen.cases_head_iff]
  simp [hab]

theorem ancestor_of_none {a : ℕ} (ha : parent a = none) {c : ℕ} :
    Ancestor parent a c ↔ a = c := by
  rw [Ancestor, Relation.ReflTransGen.cases_head_iff]
  simp [ha]

theorem any_root (a : α) : (root a).any p = p a := rfl

theorem any_cut (a : α) : (cut a).any p = p a := rfl

theorem any_link (a : α) (c : Chain α) : (link a c).any p = (p a || c.any p) := rfl

theorem complete_root (a : α) : (root a).complete = true := rfl

theorem complete_cut (a : α) : (cut a).complete = false := rfl

theorem complete_link (a : α) (c : Chain α) : (link a c).complete = c.complete := rfl

theorem unroll_of_none {a : ℕ} (ha : parent a = none) (fuel : ℕ) :
    unroll parent get fuel a = .root (get a) := by
  cases fuel <;> simp [unroll, ha]

theorem unroll_zero_of_some {a b : ℕ} (ha : parent a = some b) :
    unroll parent get 0 a = .cut (get a) := by
  simp [unroll, ha]

theorem unroll_succ_of_some {a b : ℕ} (ha : parent a = some b) (fuel : ℕ) :
    unroll parent get (fuel + 1) a = .link (get a) (unroll parent get fuel b) := by
  simp [unroll, ha]

theorem exists_of_any_unroll {fuel a : ℕ} (h : (unroll parent get fuel a).any p = true) :
    ∃ b, Ancestor parent a b ∧ p (get b) = true := by
  induction fuel generalizing a with
  | zero =>
    refine ⟨a, Relation.ReflTransGen.refl, ?_⟩
    cases ha : parent a with
    | none => rwa [unroll_of_none ha, any_root] at h
    | some b => rwa [unroll_zero_of_some ha, any_cut] at h
  | succ fuel ih =>
    cases ha : parent a with
    | none =>
      rw [unroll_of_none ha, any_root] at h
      exact ⟨a, Relation.ReflTransGen.refl, h⟩
    | some b =>
      rw [unroll_succ_of_some ha, any_link, Bool.or_eq_true] at h
      rcases h with h | h
      · exact ⟨a, Relation.ReflTransGen.refl, h⟩
      · obtain ⟨c, hc, hpc⟩ := ih h
        exact ⟨c, (ancestor_iff ha).mpr (Or.inr hc), hpc⟩

theorem any_unroll_of_head {a : ℕ} (h : p (get a) = true) (fuel : ℕ) :
    (unroll parent get fuel a).any p = true := by
  cases ha : parent a with
  | none => rw [unroll_of_none ha, any_root, h]
  | some b =>
    cases fuel with
    | zero => rw [unroll_zero_of_some ha, any_cut, h]
    | succ fuel => rw [unroll_succ_of_some ha, any_link, h, Bool.true_or]

theorem exists_any_unroll {a b : ℕ} (h : Ancestor parent a b) :
    ∃ n, ∀ fuel ≥ n, ∀ p : α → Bool, p (get b) = true →
      (unroll parent get fuel a).any p = true := by
  induction h using Relation.ReflTransGen.head_induction_on with
  | refl => exact ⟨0, fun fuel _ p hp => any_unroll_of_head hp fuel⟩
  | @head a c hac _ ih =>
    obtain ⟨n, hn⟩ := ih
    refine ⟨n + 1, fun fuel hf p hp => ?_⟩
    obtain ⟨k, rfl⟩ : ∃ k, fuel = k + 1 := ⟨fuel - 1, by omega⟩
    rw [unroll_succ_of_some hac, any_link, hn k (by omega) p hp, Bool.or_true]

theorem exists_complete (hle : ∀ a b, parent a = some b → b ≤ a) {a : ℕ}
    (h : ∀ b, Ancestor parent a b → parent b ≠ some b) :
    ∃ n, ∀ fuel ≥ n, (unroll parent get fuel a).complete = true := by
  induction a using Nat.strong_induction_on with
  | _ a ih =>
    cases ha : parent a with
    | none =>
      refine ⟨0, fun fuel _ => ?_⟩
      rw [unroll_of_none ha, complete_root]
    | some b =>
      have hba : b < a := by
        have hne : b ≠ a := fun e => h a Relation.ReflTransGen.refl (by rw [ha, e])
        have := hle a b ha
        omega
      obtain ⟨n, hn⟩ := ih b hba fun c hc => h c ((ancestor_iff ha).mpr (Or.inr hc))
      refine ⟨n + 1, fun fuel hf => ?_⟩
      obtain ⟨k, rfl⟩ : ∃ k, fuel = k + 1 := ⟨fuel - 1, by omega⟩
      rw [unroll_succ_of_some ha, complete_link]
      exact hn k (by omega)

/-- A chain into an object that is its own parent is cut, however long it is. -/
theorem not_complete {fuel a b : ℕ} (hab : Ancestor parent a b) (hb : parent b = some b) :
    (unroll parent get fuel a).complete = false := by
  induction fuel generalizing a with
  | zero =>
    cases ha : parent a with
    | none =>
      obtain rfl := (ancestor_of_none ha).mp hab
      simp [ha] at hb
    | some c => rw [unroll_zero_of_some ha, complete_cut]
  | succ fuel ih =>
    cases ha : parent a with
    | none =>
      obtain rfl := (ancestor_of_none ha).mp hab
      simp [ha] at hb
    | some c =>
      rw [unroll_succ_of_some ha, complete_link]
      apply ih
      rcases (ancestor_iff ha).mp hab with rfl | h
      · rw [ha, Option.some.injEq] at hb
        exact hb ▸ Relation.ReflTransGen.refl
      · exact h

end Chain

end OmniCompiler
