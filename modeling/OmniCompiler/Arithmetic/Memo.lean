import Mathlib.Tactic

/-!
# A memo of one entry

A call either finds the entry of an earlier call or is answered anew and takes the entry. The memo
is transparent when no call can tell the difference.
-/
namespace OmniCompiler

structure Memo (κ γ ε ο : Type*) where
  fresh : γ → Except ε ο
  key : γ → κ
  hit : κ → γ → Bool

namespace Memo

variable {κ γ ε ο : Type*} (m : Memo κ γ ε ο)

def miss (c : γ) : Except ε (ο × κ × ο) := (m.fresh c).map fun o => (o, m.key c, o)

/-- The answer and the entry after the call. -/
def call : Option (κ × ο) → γ → Except ε (ο × κ × ο)
  | some (k, o), c => if m.hit k c then .ok (o, k, o) else m.miss c
  | none, c => m.miss c

/-- Every call is answered as it would be without an entry. A failing call is the last one. -/
def Transparent : Option (κ × ο) → List γ → Prop
  | _, [] => True
  | st, c :: cs => (m.call st c).map Prod.fst = m.fresh c ∧
      ∀ r, m.call st c = .ok r → Transparent (some r.2) cs

/-- `good p c` holds whenever the call `c` finds the entry that `p` has filled. -/
def AllHits (accepts : γ → Prop) (good : γ → γ → Prop) : Option γ → List γ → Prop
  | _, [] => True
  | none, c :: cs => accepts c → AllHits accepts good (some c) cs
  | some p, c :: cs =>
    if m.hit (m.key p) c then good p c ∧ AllHits accepts good (some p) cs
    else accepts c → AllHits accepts good (some c) cs

variable {m} {accepts : γ → Prop} {good : γ → γ → Prop}

theorem miss_eq_ok {c : γ} {r : ο × κ × ο} :
    m.miss c = .ok r ↔ m.fresh c = .ok r.1 ∧ r.2 = (m.key c, r.1) := by
  obtain ⟨o, e⟩ := r
  cases h : m.fresh c with
  | error x => simp [miss, h, Except.map]
  | ok o' =>
    simp only [miss, h, Except.map, Except.ok.injEq, Prod.mk.injEq]
    constructor
    · rintro ⟨rfl, rfl⟩
      exact ⟨rfl, rfl⟩
    · rintro ⟨rfl, rfl⟩
      exact ⟨rfl, rfl⟩

theorem miss_map_fst (c : γ) : (m.miss c).map Prod.fst = m.fresh c := by
  cases h : m.fresh c <;> simp [miss, h, Except.map]

theorem transparent_miss {c : γ} {cs : List γ}
    (hacc : ∀ c, accepts c ↔ ∃ o, m.fresh c = .ok o)
    (ih : ∀ p o, m.fresh p = .ok o →
      (m.Transparent (some (m.key p, o)) cs ↔ m.AllHits accepts good (some p) cs)) :
    (∀ r, m.miss c = .ok r → m.Transparent (some r.2) cs) ↔
      (accepts c → m.AllHits accepts good (some c) cs) := by
  constructor
  · intro h hc
    obtain ⟨o, ho⟩ := (hacc c).mp hc
    exact (ih c o ho).mp (h (o, m.key c, o) (miss_eq_ok.mpr ⟨ho, rfl⟩))
  · intro h r hr
    obtain ⟨ho, he⟩ := miss_eq_ok.mp hr
    rw [he]
    exact (ih c r.1 ho).mpr (h ((hacc c).mpr ⟨_, ho⟩))

theorem transparent_some_iff (hacc : ∀ c, accepts c ↔ ∃ o, m.fresh c = .ok o)
    (hgood : ∀ p c, accepts p → m.hit (m.key p) c = true → (good p c ↔ m.fresh c = m.fresh p))
    (cs : List γ) : ∀ p o, m.fresh p = .ok o →
      (m.Transparent (some (m.key p, o)) cs ↔ m.AllHits accepts good (some p) cs) := by
  induction cs with
  | nil => exact fun _ _ _ => Iff.rfl
  | cons c cs ih =>
    intro p o hp
    rw [Transparent, AllHits, call]
    by_cases hh : m.hit (m.key p) c = true
    · simp only [hh, if_true]
      rw [hgood p c ((hacc p).mpr ⟨o, hp⟩) hh, hp]
      apply and_congr
      · exact eq_comm
      · simp only [Except.ok.injEq, forall_eq']
        exact ih p o hp
    · simp only [hh, if_false, Bool.false_eq_true]
      rw [and_iff_right (miss_map_fst c)]
      exact transparent_miss hacc ih

/-- A memo is transparent when its hits are good, whatever makes a hit good. -/
theorem transparent_iff (hacc : ∀ c, accepts c ↔ ∃ o, m.fresh c = .ok o)
    (hgood : ∀ p c, accepts p → m.hit (m.key p) c = true → (good p c ↔ m.fresh c = m.fresh p))
    (cs : List γ) : m.Transparent none cs ↔ m.AllHits accepts good none cs := by
  cases cs with
  | nil => exact Iff.rfl
  | cons c cs =>
    rw [Transparent, AllHits, call, and_iff_right (miss_map_fst c)]
    exact transparent_miss hacc (transparent_some_iff hacc hgood cs)

theorem transparent_of_hits
    (h : ∀ p c, (∃ o, m.fresh p = .ok o) → m.hit (m.key p) c = true → m.fresh c = m.fresh p)
    (cs : List γ) : m.Transparent none cs := by
  have hall : ∀ p, m.AllHits (fun c => ∃ o, m.fresh c = .ok o) (fun _ _ => True) p cs := by
    induction cs with
    | nil => exact fun p => by cases p <;> trivial
    | cons c cs ih =>
      intro p
      cases p with
      | none => exact fun _ => ih _
      | some p =>
        rw [AllHits]
        split_ifs
        · exact ⟨trivial, ih _⟩
        · exact fun _ => ih _
  refine (transparent_iff (fun _ => Iff.rfl) ?_ cs).mpr (hall none)
  intro p c hp hit
  exact iff_of_true trivial (h p c hp hit)

end Memo

end OmniCompiler
