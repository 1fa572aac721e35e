import OmniCompiler.Xmp.Ownership

/-!
# The mapping of a general block distribution (`xmp_lib.c`)

`_XMP_dist_template_GBLOCK` keeps the running sums of the mapping array it is given, and
`xmp_dist_gblockmap` takes their differences. For the last block it takes the size of the template
less the block before.
-/
namespace OmniCompiler.Xmp

open MachineInt

variable {d n : ℕ}

/-- `xmp_dist_gblockmap`, which stores into the `int` array `map`; `dim` counts from zero. `none` is
the result `-1`, or a dimension without a node axis. -/
def xmpDistGblockmap (t : Template d n) (dim : Fin d) (map : ℕ → ℤ) : Option (ℕ → ℤ) := do
  let chunk := t.chunk dim
  let axis ← chunk.ontoNodesIndex
  let size := (t.ontoNodes.info axis).size
  let map := (List.range (size - 1)).foldl (fun map i =>
    Function.update map i (toInt (chunk.mappingArray (i + 1) - chunk.mappingArray i))) map
  if size > 1 then
    some (Function.update map (size - 1) (toInt ((t.info dim).serSize - map (size - 2))))
  else if size = 1 then some (Function.update map 0 (toInt (t.info dim).serSize))
  else none

theorem rsumArray_eq_sum (serLower : ℤ) (m : ℕ → ℤ) (k : ℕ) :
    rsumArray serLower m k = serLower + ∑ i ∈ Finset.range k, m i := by
  induction k with
  | zero => simp [rsumArray]
  | succ k ih => rw [rsumArray, ih, Finset.sum_range_succ, add_assoc]

theorem foldl_update_range (f : ℕ → ℤ) (map : ℕ → ℤ) (N k : ℕ) :
    (List.range N).foldl (fun map i => Function.update map i (f i)) map k =
      if k < N then f k else map k := by
  induction N with
  | zero => simp
  | succ N ih =>
    rw [List.range_succ, List.foldl_append, List.foldl_cons, List.foldl_nil]
    by_cases hk : k = N
    · subst hk
      rw [Function.update_self, if_pos (Nat.lt_succ_self k)]
    · rw [Function.update_of_ne hk, ih]
      have hiff : k < N ↔ k < N + 1 := by omega
      simp only [hiff]

theorem toInt_eq_iff {x y : ℤ} (hy : InInt y) : toInt x = y ↔ (2 ^ 32 : ℤ) ∣ x - y := by
  have h0 := hy.1
  have h1 := hy.2
  unfold toInt
  omega

theorem distTemplateGblock_reads {t : Template d n} {i : Fin d} {j : Fin n} {m : ℕ → ℤ}
    (hsum : ∑ k ∈ Finset.range (t.ontoNodes.info j).size, m k = (t.info i).serSize) :
    ∃ t', distTemplateGblock t i j (some m) = .ok t' ∧ t'.ontoNodes = t.ontoNodes ∧
      t'.info = t.info ∧ (t'.chunk i).ontoNodesIndex = some j ∧
      (t'.chunk i).mappingArray = rsumArray (t.info i).serLower m := by
  have hcover : ¬ (t.info i).serUpper ≥
    rsumArray (t.info i).serLower m (t.ontoNodes.info j).size := by
    have := (t.info i).serUpper_eq
    rw [rsumArray_eq_sum, hsum]
    omega
  refine ⟨_, if_neg hcover, rfl, rfl, ?_, ?_⟩
  · rw [Template.setChunk_chunk]
  · rw [Template.setChunk_chunk]

/-- Differences of the running sums are the entries again, and the last entry is right where the
blocks before the last two have no elements, up to the range of `int`. -/
theorem xmpDistGblockmap_iff (t : Template d n) (i : Fin d) (j : Fin n) (m : ℕ → ℤ)
    (hm : ∀ k < (t.ontoNodes.info j).size, 0 ≤ m k ∧ InInt (m k))
    (hsum : ∑ k ∈ Finset.range (t.ontoNodes.info j).size, m k = (t.info i).serSize)
    (map : ℕ → ℤ) :
    ∃ t', distTemplateGblock t i j (some m) = .ok t' ∧
      ((∃ map', xmpDistGblockmap t' i map = some map' ∧
          ∀ k < (t.ontoNodes.info j).size, map' k = m k) ↔
        (2 ^ 32 : ℤ) ∣ ∑ k ∈ Finset.range ((t.ontoNodes.info j).size - 2), m k) := by
  obtain ⟨t', hok, hnodes, hinfo, haxis, hmap⟩ := distTemplateGblock_reads hsum
  refine ⟨t', hok, ?_⟩
  have hP : 0 < (t.ontoNodes.info j).size := (t.ontoNodes.info j).rank.pos
  have hdiff : ∀ k, toInt (rsumArray (t.info i).serLower m (k + 1) -
      rsumArray (t.info i).serLower m k) = toInt (m k) := fun k => by
    rw [rsumArray, add_sub_cancel_left]
  have hloop : ∀ k, (List.range ((t.ontoNodes.info j).size - 1)).foldl (fun map i' =>
      Function.update map i' (toInt (m i'))) map k =
        if k < (t.ontoNodes.info j).size - 1 then toInt (m k) else map k :=
    fun k => foldl_update_range (fun i' => toInt (m i')) map _ k
  have hsame : ∀ k < (t.ontoNodes.info j).size, toInt (m k) = m k := fun k hk =>
    toInt_of_inInt (hm k hk).2
  simp only [xmpDistGblockmap, haxis, hmap, hnodes, hinfo, Option.bind_eq_bind, Option.bind_some,
    hdiff]
  generalize hsize : (t.ontoNodes.info j).size = P at *
  by_cases hone : P = 1
  · subst hone
    rw [Finset.sum_range_one] at hsum
    simp only [gt_iff_lt, lt_irrefl, if_false, if_true, Option.some.injEq, exists_eq_left']
    constructor
    · intro _
      simp
    · intro _ k hk
      obtain rfl : k = 0 := by omega
      rw [Function.update_self, ← hsum]
      exact hsame 0 hk
  · have hlast : ∑ k ∈ Finset.range P, m k =
        ∑ k ∈ Finset.range (P - 2), m k + m (P - 2) + m (P - 1) := by
      obtain ⟨q, rfl⟩ := Nat.exists_eq_add_of_le (show 2 ≤ P by omega)
      have h1 : 2 + q - 2 = q := by omega
      have h2 : 2 + q - 1 = q + 1 := by omega
      rw [h1, h2, add_comm 2 q, Finset.sum_range_succ, Finset.sum_range_succ]
    rw [if_pos (by omega)]
    simp only [Option.some.injEq, exists_eq_left', hloop]
    rw [if_pos (show P - 2 < P - 1 by omega), hsame _ (by omega)]
    have hright : toInt ((t.info i).serSize - m (P - 2)) = m (P - 1) ↔
        (2 ^ 32 : ℤ) ∣ ∑ k ∈ Finset.range (P - 2), m k := by
      rw [toInt_eq_iff (hm (P - 1) (by omega)).2, ← hsum, hlast]
      ring_nf
    rw [← hright]
    constructor
    · intro hall
      have hend := hall (P - 1) (by omega)
      rwa [Function.update_self] at hend
    · intro hend k hk
      by_cases hkP : k = P - 1
      · subst hkP
        rw [Function.update_self, hend]
      · rw [Function.update_of_ne hkP, hloop, if_pos (by omega), hsame k hk]

/-- Four blocks of which the first two are empty. -/
theorem xmpDistGblockmap_lastTwo :
    ∃ t' map', distTemplateGblock (lineTemplate 1 8 (by decide) (lineNodes 4 (by decide))) 0 0
        (some fun k => if k = 2 then 3 else if k = 3 then 5 else 0) = .ok t' ∧
      xmpDistGblockmap t' 0 (fun _ => 9) = some map' ∧
      ∀ k < 4, map' k = if k = 2 then 3 else if k = 3 then 5 else 0 := by
  obtain ⟨t', hok, hiff⟩ := xmpDistGblockmap_iff
    (lineTemplate 1 8 (by decide) (lineNodes 4 (by decide))) 0 0
    (fun k => if k = 2 then 3 else if k = 3 then 5 else 0) (by decide) (by decide) fun _ => 9
  obtain ⟨map', hmap, hall⟩ := hiff.mpr (by decide)
  exact ⟨t', map', hok, hmap, hall⟩

/-- Blocks of 2, 3 and 3 elements: the last one comes back as 5. -/
theorem xmpDistGblockmap_three :
    ∃ m : ℕ → ℤ, (∀ k < 3, 0 ≤ m k) ∧ ∑ k ∈ Finset.range 3, m k = 8 ∧
      ∃ t' map', distTemplateGblock (lineTemplate 1 8 (by decide) (lineNodes 3 (by decide))) 0 0
          (some m) = .ok t' ∧
        xmpDistGblockmap t' 0 (fun _ => 0) = some map' ∧ m 2 = 3 ∧ map' 2 = 5 :=
  ⟨fun k => if k = 0 then 2 else 3, by decide, by decide, _, _, rfl, rfl, rfl, rfl⟩

end OmniCompiler.Xmp
