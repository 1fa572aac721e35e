import Mathlib.Data.Set.Card
import Mathlib.Order.Interval.Finset.Defs
import Mathlib.Tactic

/-!
# Gap-free indexing of a finite set of integers

`IsIndexing S f h` says that `f` numbers the elements of `S` in increasing order by
`0, 1, …, |S| - 1`, and that `h` is the inverse numbering.
-/
namespace OmniCompiler.Indexing

structure IsIndexing (S : Set ℤ) (f h : ℤ → ℤ) : Prop where
  strictMono : StrictMonoOn f S
  bijOn : Set.BijOn f S (Set.Ico 0 S.ncard)
  left_inv : ∀ g ∈ S, h (f g) = g
  right_inv : ∀ l ∈ Set.Ico (0 : ℤ) S.ncard, h l ∈ S ∧ f (h l) = l

theorem isIndexing_empty (f h : ℤ → ℤ) : IsIndexing ∅ f h where
  strictMono := fun g hg => hg.elim
  bijOn := by simp
  left_inv := fun g hg => hg.elim
  right_inv := by simp

/-- A finite set of nonnegative integers without gaps is an initial segment. -/
theorem eq_Ico_of_downClosed {A : Set ℤ} (hfin : A.Finite) (hnn : ∀ a ∈ A, 0 ≤ a)
    (hdown : ∀ a ∈ A, ∀ b, 0 ≤ b → b < a → b ∈ A) : A = Set.Ico 0 (A.ncard : ℤ) := by
  rcases A.eq_empty_or_nonempty with rfl | hne
  · simp
  · obtain ⟨m, hm, hmax⟩ := hfin.exists_maximal hne
    have hA : A = Set.Ico 0 (m + 1) := by
      ext b
      constructor
      · intro hb
        have := hnn b hb
        have : b ≤ m := by
          by_contra hc
          exact hc (hmax hb (by omega))
        exact ⟨by omega, by omega⟩
      · rintro ⟨h0, h1⟩
        rcases (show b ≤ m by omega).lt_or_eq with h | rfl
        · exact hdown m hm b h0 h
        · exact hm
    have hcard : (A.ncard : ℤ) = m + 1 := by
      have h0 := hnn m hm
      rw [hA, ← Finset.coe_Ico, Set.ncard_coe_finset, Int.card_Ico]
      omega
    rw [hcard]
    exact hA

/-- An increasing numbering whose inverse reaches every smaller number is gap-free. -/
theorem isIndexing_of_downClosed {S : Set ℤ} {f h : ℤ → ℤ} (hfin : S.Finite)
    (hmono : StrictMonoOn f S) (hnn : ∀ g ∈ S, 0 ≤ f g) (hleft : ∀ g ∈ S, h (f g) = g)
    (hdown : ∀ g ∈ S, ∀ l, 0 ≤ l → l ≤ f g → h l ∈ S ∧ f (h l) = l) : IsIndexing S f h := by
  have himg : f '' S = Set.Ico 0 ((f '' S).ncard : ℤ) := by
    refine eq_Ico_of_downClosed (hfin.image f) ?_ ?_
    · rintro _ ⟨g, hg, rfl⟩
      exact hnn g hg
    · rintro _ ⟨g, hg, rfl⟩ b h0 hb
      obtain ⟨hmem, heq⟩ := hdown g hg b h0 hb.le
      exact ⟨h b, hmem, heq⟩
  rw [hmono.injOn.ncard_image] at himg
  refine ⟨hmono, himg ▸ hmono.injOn.bijOn_image, hleft, fun l hl => ?_⟩
  rw [← himg] at hl
  obtain ⟨g, hg, rfl⟩ := hl
  exact hdown g hg (f g) (hnn g hg) le_rfl

end OmniCompiler.Indexing
