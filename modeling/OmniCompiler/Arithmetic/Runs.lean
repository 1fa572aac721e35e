import OmniCompiler.Arithmetic.BlockCyclic

/-!
# Runs that repeat

The integers of an interval in runs of `w` that start every `c`. The first run starts less than a
round after the interval does.
-/
namespace OmniCompiler.Runs

open BlockCyclic

variable {w c L U S : ℤ}

/-- The elements of `[L, U]` in runs of `w` that start every `c` from `S` on. -/
def runs (w c S L U : ℤ) : Set ℤ := {g | L ≤ g ∧ g ≤ U ∧ (g - S) % c < w}

theorem start_le_of_mem_runs (hw : 0 < w) (h2 : S + w ≤ L + c) {g : ℤ}
    (hg : g ∈ runs w c S L U) : S ≤ g := by
  obtain ⟨hg0, -, hg1⟩ := hg
  by_contra hlt
  have hround : (g - S) % c = g - S + c := by
    rw [← Int.add_emod_right, Int.emod_eq_of_lt (by omega) (by omega)]
  omega

theorem emod_lt_of_near (hwc : w ≤ c) {g : ℤ} (h0 : S ≤ g) (h1 : g < S + w) : (g - S) % c < w := by
  rw [Int.emod_eq_of_lt (by omega) (by omega)]
  omega

theorem runs_nonempty_iff (hw : 0 < w) (hwc : w ≤ c) (hLU : L ≤ U) (h1 : L < S + w)
    (h2 : S + w ≤ L + c) : (runs w c S L U).Nonempty ↔ S ≤ U := by
  constructor
  · rintro ⟨g, hg⟩
    exact (start_le_of_mem_runs hw h2 hg).trans hg.2.1
  · intro hSU
    exact ⟨max L S, by omega, by omega, emod_lt_of_near hwc (by omega) (by omega)⟩

theorem isLeast_runs (hw : 0 < w) (hwc : w ≤ c) (hLU : L ≤ U) (h1 : L < S + w) (h2 : S + w ≤ L + c)
    (hSU : S ≤ U) : IsLeast (runs w c S L U) (max L S) := by
  refine ⟨⟨by omega, by omega, emod_lt_of_near hwc (by omega) (by omega)⟩, fun g hg => ?_⟩
  exact max_le hg.1 (start_le_of_mem_runs hw h2 hg)

theorem isGreatest_runs (hw : 0 < w) (hwc : w ≤ c) (h1 : L < S + w) (h2 : S + w ≤ L + c)
    (hSU : S ≤ U) (hend : (U - S) % c < w → L ≤ U) :
    IsGreatest (runs w c S L U)
      (if (U - S) % c < w then U else S + (U - S) / c * c + (w - 1)) := by
  have hc : 0 < c := by omega
  have hdm := Int.emod_add_mul_ediv (U - S) c
  have hD := Int.ediv_nonneg (show 0 ≤ U - S by omega) hc.le
  have hDc := mul_nonneg hD hc.le
  split_ifs with hin
  · exact ⟨⟨hend hin, le_rfl, hin⟩, fun g hg => hg.2.1⟩
  · constructor
    · refine ⟨by omega, by linarith, ?_⟩
      have hsplit : S + (U - S) / c * c + (w - 1) - S = (U - S) / c * c + (w - 1) := by ring
      rw [hsplit, emod_mul_add (by omega) (by omega)]
      omega
    · intro g hg
      have hSg := start_le_of_mem_runs hw h2 hg
      have hgd := Int.emod_add_mul_ediv (g - S) c
      have hle : (g - S) / c ≤ (U - S) / c := Int.ediv_le_ediv hc (by have := hg.2.1; omega)
      have hmul := mul_le_mul_of_nonneg_left hle hc.le
      have hlt := hg.2.2
      linarith

end OmniCompiler.Runs
