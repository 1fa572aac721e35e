import OmniCompiler.Xmp.Sort
import OmniCompiler.Xmp.SortPivot

/-!
# Array accesses of the distributed sort (`xmp_sort.c`)

The indices at which `comp_pivots`, `make_histogram` and the merge read and write, in their order.
An index in a sub-array is shifted to the array that the caller works on. `qsort` stays within the
elements that it is given.
-/
namespace OmniCompiler.Xmp.Sort

open Memory MachineInt

/-- All accesses are to elements of an array of `n` elements. -/
def Inside (n : ℕ) (accesses : List ℤ) : Prop := ∀ j ∈ accesses, 0 ≤ j ∧ j < n

section Inside

variable {n : ℕ} {l l' : List ℤ}

theorem inside_nil (n : ℕ) : Inside n [] := fun _ hj => absurd hj List.not_mem_nil

theorem inside_cons {j : ℤ} : Inside n (j :: l) ↔ (0 ≤ j ∧ j < n) ∧ Inside n l :=
  List.forall_mem_cons

theorem inside_append : Inside n (l ++ l') ↔ Inside n l ∧ Inside n l' := List.forall_mem_append

theorem Inside.shift {m k : ℕ} (h : Inside m l) (hk : k + m ≤ n) :
    Inside n (l.map (· + (k : ℤ))) := by
  intro j hj
  obtain ⟨i, hi, rfl⟩ := List.mem_map.mp hj
  have hin := h i hi
  omega

theorem Inside.mono {m : ℕ} (h : Inside m l) (hm : m ≤ n) : Inside n l := by
  intro j hj
  have hin := h j hj
  omega

end Inside

/-! ## `comp_pivots` -/

/-- Where sample `i` is taken. The product is one of `int`. -/
def sampleIndex (nprocs n i : ℕ) : Option ℤ :=
  if InInt (((i : ℤ) + 1) * n) then some ((((i : ℤ) + 1) * n).tdiv nprocs) else none

/-- Where rank `me` puts its samples. -/
def sampleWrites (nprocs me : ℕ) : List ℤ :=
  (List.range nprocs).map fun i => ((me * nprocs + i : ℕ) : ℤ)

def pivotReads (nprocs : ℕ) : List ℤ :=
  (List.range (nprocs - 1)).map fun i : ℕ => ((i : ℤ) + 1) * nprocs - 1

/-! ## Searching -/

/-- A loop from index `k` on, up to the first element that meets a condition. -/
def scanReads (a : List ℤ) (k : ℕ) (c : ℤ → Bool) : List ℤ :=
  (List.range (min ((a.drop k).findIdx c + 1) (a.length - k))).map fun i => ((k + i : ℕ) : ℤ)

/-- `make_histogram` from index `j` on. -/
def histogramReads (isUp : Bool) (a : List ℤ) : ℕ → List ℤ → List ℤ
  | _, [] => []
  | j, p :: pivot =>
    scanReads a j (fun x => decide (0 < compareFunc isUp x p)) ++
      histogramReads isUp a
        (j + (a.drop j).findIdx fun x => decide (0 < compareFunc isUp x p)) pivot

/-- `my_bsearch`. -/
def bsearchReads (isUp : Bool) (p : ℤ) (a : List ℤ) : List ℤ :=
  if 0 < compareFunc isUp (a.getD 0 0) p then [0]
  else if compareFunc isUp (a.getD (a.length - 1) 0) p < 0 then [0, (a.length : ℤ) - 1]
  else if a.length < 8 then
    0 :: ((a.length : ℤ) - 1) :: scanReads a 0 fun x => decide (0 < compareFunc isUp x p)
  else
    let mid := a.length / 2
    if compareFunc isUp (a.getD mid 0) p < 0 then
      0 :: ((a.length : ℤ) - 1) :: (mid : ℤ) ::
        (bsearchReads isUp p (a.drop (mid + 1))).map (· + ((mid + 1 : ℕ) : ℤ))
    else if 0 < compareFunc isUp (a.getD mid 0) p then
      0 :: ((a.length : ℤ) - 1) :: (mid : ℤ) :: (mid : ℤ) :: bsearchReads isUp p (a.take (mid + 1))
    else
      0 :: ((a.length : ℤ) - 1) :: (mid : ℤ) :: (mid : ℤ) ::
        scanReads a mid fun x => decide (compareFunc isUp x p ≠ 0)
termination_by a.length
decreasing_by
  · rw [List.length_drop]
    omega
  · rw [List.length_take]
    omega

/-! ## Merging -/

/-- The median of a run of `n` elements. -/
def medianReads (n : ℕ) : List ℤ :=
  if 0 < n then
    if n % 2 = 0 then [(n : ℤ) / 2, (n : ℤ) / 2 - 1] else [(n : ℤ) / 2]
  else []

/-- `reverse`. -/
def reverseAccesses (l r : ℤ) : List ℤ :=
  if l < r then r :: l :: reverseAccesses (l + 1) (r - 1) else []
termination_by (r - l).toNat
decreasing_by omega

/-- `rotate`. -/
def rotateAccesses (l m r : ℤ) : List ℤ :=
  reverseAccesses l (m - 1) ++ reverseAccesses m r ++ reverseAccesses l r

/-- The accesses of `mergeParts`; `accesses` are those of the calls it makes. -/
def partAccesses (accesses : List ℤ → ℕ → List ℤ) (a : List ℤ) (m midA midB : ℕ) : List ℤ :=
  if midA = m ∧ midB = a.length - m then []
  else
    let a' := rotateEntries a midA m (midB + m - 1)
    let newAn := midA + midB
    rotateAccesses midA m ((midB : ℤ) + m - 1) ++
      ((if 0 < midA ∧ 0 < midB then accesses (a'.take newAn) midA else []) ++
        if midA < m ∧ midB < a.length - m then
          (accesses (a'.drop newAn) (m - midA)).map (· + (newAn : ℤ))
        else [])

/-- `two_way_inplace_merge_sort` with calls within calls up to a depth of `fuel`. -/
def mergeAccesses (t : ElemType) (isUp : Bool) : ℕ → List ℤ → ℕ → List ℤ
  | fuel, a, m =>
    if m = 0 ∨ a.length ≤ m then []
    else if a.length < 32 then []
    else
      match fuel with
      | 0 => []
      | fuel + 1 =>
        let p := wrapPivot t (a.take m) (a.drop m)
        medianReads m ++ (medianReads (a.length - m)).map (· + (m : ℤ)) ++
          bsearchReads isUp p (a.take m) ++ (bsearchReads isUp p (a.drop m)).map (· + (m : ℤ)) ++
          partAccesses (mergeAccesses t isUp fuel) a m (myBsearch isUp p (a.take m))
            (myBsearch isUp p (a.drop m))

/-- All accesses of a sort on `nprocs` processes stay within the local array of `n` elements, the
samples of all processes, or what is merged. -/
structure IndexSafe (nprocs n : ℕ) : Prop where
  samples : ∀ i < nprocs, ∃ j, sampleIndex nprocs n i = some j ∧ 0 ≤ j ∧ j < n
  gathered : ∀ me < nprocs, Inside (nprocs * nprocs) (sampleWrites nprocs me)
  pivots : Inside (nprocs * nprocs) (pivotReads nprocs)
  histogram : ∀ isUp (a pivot : List ℤ), a.length = n → Inside n (histogramReads isUp a 0 pivot)
  merges : ∀ t isUp fuel (buf : List ℤ) m, Inside buf.length (mergeAccesses t isUp fuel buf m)

theorem inside_scanReads (a : List ℤ) (k : ℕ) (c : ℤ → Bool) :
    Inside a.length (scanReads a k c) := by
  intro j hj
  obtain ⟨i, hi, rfl⟩ := List.mem_map.mp hj
  have hlt := List.mem_range.mp hi
  omega

theorem inside_histogramReads (isUp : Bool) (a : List ℤ) (j : ℕ) (pivot : List ℤ) :
    Inside a.length (histogramReads isUp a j pivot) := by
  induction pivot generalizing j with
  | nil => exact inside_nil _
  | cons p pivot ih => exact inside_append.mpr ⟨inside_scanReads a j _, ih _⟩

section Search

variable {isUp : Bool} {p : ℤ}

theorem inside_bsearchReads {a : List ℤ} (ha : a ≠ []) :
    Inside a.length (bsearchReads isUp p a) := by
  induction hn : a.length using Nat.strong_induction_on generalizing a with
  | _ n ih =>
    have hpos : 0 < a.length := List.length_pos_iff.mpr ha
    have hends : (0 ≤ (0 : ℤ) ∧ (0 : ℤ) < n) ∧ 0 ≤ (n : ℤ) - 1 ∧ (n : ℤ) - 1 < n := by omega
    have hmid : 0 ≤ ((n / 2 : ℕ) : ℤ) ∧ ((n / 2 : ℕ) : ℤ) < n := by omega
    rw [bsearchReads]
    simp only [hn]
    split_ifs with hfirst hlast hsmall hless hgreater
    · exact inside_cons.mpr ⟨hends.1, inside_nil n⟩
    · exact inside_cons.mpr ⟨hends.1, inside_cons.mpr ⟨hends.2, inside_nil n⟩⟩
    · exact inside_cons.mpr ⟨hends.1, inside_cons.mpr ⟨hends.2, hn ▸ inside_scanReads a 0 _⟩⟩
    · -- the elements behind the middle
      have hlen : (a.drop (n / 2 + 1)).length = n - (n / 2 + 1) := by rw [List.length_drop, hn]
      have hrest := ih (n - (n / 2 + 1)) (by omega) (List.length_pos_iff.mp (by omega)) hlen
      exact inside_cons.mpr ⟨hends.1, inside_cons.mpr ⟨hends.2, inside_cons.mpr ⟨hmid,
        hrest.shift (by omega)⟩⟩⟩
    · -- the elements up to the middle
      have hlen : (a.take (n / 2 + 1)).length = n / 2 + 1 := by
        rw [List.length_take]
        omega
      have hrest := ih (n / 2 + 1) (by omega) (List.length_pos_iff.mp (by omega)) hlen
      exact inside_cons.mpr ⟨hends.1, inside_cons.mpr ⟨hends.2, inside_cons.mpr ⟨hmid,
        inside_cons.mpr ⟨hmid, hrest.mono (by omega)⟩⟩⟩⟩
    · exact inside_cons.mpr ⟨hends.1, inside_cons.mpr ⟨hends.2, inside_cons.mpr ⟨hmid,
        inside_cons.mpr ⟨hmid, hn ▸ inside_scanReads a _ _⟩⟩⟩⟩

theorem myBsearch_le_length (isUp : Bool) (p : ℤ) (a : List ℤ) : myBsearch isUp p a ≤ a.length := by
  induction hn : a.length using Nat.strong_induction_on generalizing a with
  | _ n ih =>
    rw [myBsearch]
    simp only [hn]
    split_ifs with hfirst hlast hsmall hless hgreater
    · exact Nat.zero_le n
    · exact le_rfl
    · exact hn ▸ List.findIdx_le_length
    · have hlen : (a.drop (n / 2 + 1)).length = n - (n / 2 + 1) := by rw [List.length_drop, hn]
      have hrest := ih (n - (n / 2 + 1)) (by omega) _ hlen
      omega
    · have hlen : (a.take (n / 2 + 1)).length = n / 2 + 1 := by
        rw [List.length_take]
        omega
      have hrest := ih (n / 2 + 1) (by omega) _ hlen
      omega
    · have hlen : (a.drop (n / 2)).length = n - n / 2 := by rw [List.length_drop, hn]
      have hrest := @List.findIdx_le_length _ (fun x => decide (compareFunc isUp x p ≠ 0))
        (a.drop (n / 2))
      omega

end Search

theorem inside_medianReads (n : ℕ) : Inside n (medianReads n) := by
  intro j hj
  unfold medianReads at hj
  split_ifs at hj
  · simp only [List.mem_cons, List.not_mem_nil, or_false] at hj
    omega
  · simp only [List.mem_cons, List.not_mem_nil, or_false] at hj
    omega
  · cases hj

theorem inside_reverseAccesses {n : ℕ} {l r : ℤ} (hl : 0 ≤ l) (hr : r < n) :
    Inside n (reverseAccesses l r) := by
  induction hk : (r - l).toNat using Nat.strong_induction_on generalizing l r with
  | _ k ih =>
    rw [reverseAccesses]
    split_ifs with hlr
    · refine inside_cons.mpr ⟨by omega, inside_cons.mpr ⟨by omega, ?_⟩⟩
      exact ih (r - 1 - (l + 1)).toNat (by omega) (by omega) (by omega) rfl
    · exact inside_nil n

theorem inside_partAccesses {accesses : List ℤ → ℕ → List ℤ} {a : List ℤ} {m midA midB : ℕ}
    (hm0 : 0 < m) (hm : m ≤ a.length) (hA : midA ≤ m) (hB : midB ≤ a.length - m)
    (h : ∀ b k, Inside b.length (accesses b k)) :
    Inside a.length (partAccesses accesses a m midA midB) := by
  unfold partAccesses
  by_cases hall : midA = m ∧ midB = a.length - m
  · rw [if_pos hall]
    exact inside_nil _
  rw [if_neg hall]
  dsimp only
  have hrot : (rotateEntries a midA m (midB + m - 1)).length = a.length := by
    rw [rotate_parts hm hA (by rw [List.length_drop]; exact hB)]
    simp only [List.length_append, List.length_take, List.length_drop]
    omega
  have hleft := h ((rotateEntries a midA m (midB + m - 1)).take (midA + midB)) midA
  have hright := h ((rotateEntries a midA m (midB + m - 1)).drop (midA + midB)) (m - midA)
  rw [List.length_take, hrot] at hleft
  rw [List.length_drop, hrot] at hright
  refine inside_append.mpr ⟨?_, inside_append.mpr ⟨?_, ?_⟩⟩
  · refine inside_append.mpr ⟨inside_append.mpr ⟨?_, ?_⟩, ?_⟩
    all_goals exact inside_reverseAccesses (by omega) (by omega)
  · split_ifs
    · exact hleft.mono (by omega)
    · exact inside_nil _
  · split_ifs
    · exact hright.shift (by omega)
    · exact inside_nil _

theorem inside_mergeAccesses (t : ElemType) (isUp : Bool) (fuel : ℕ) (a : List ℤ) (m : ℕ) :
    Inside a.length (mergeAccesses t isUp fuel a m) := by
  induction fuel generalizing a m with
  | zero =>
    rw [mergeAccesses]
    split_ifs
    all_goals exact inside_nil _
  | succ fuel ih =>
    rw [mergeAccesses]
    split_ifs with hends hsmall
    · exact inside_nil _
    · exact inside_nil _
    · have hlenA : (a.take m).length = m := by
        rw [List.length_take]
        omega
      have hlenB : (a.drop m).length = a.length - m := List.length_drop
      have hA := @inside_bsearchReads isUp (wrapPivot t (a.take m) (a.drop m)) (a.take m)
        (List.length_pos_iff.mp (by omega))
      have hB := @inside_bsearchReads isUp (wrapPivot t (a.take m) (a.drop m)) (a.drop m)
        (List.length_pos_iff.mp (by omega))
      have hmidA := myBsearch_le_length isUp (wrapPivot t (a.take m) (a.drop m)) (a.take m)
      have hmidB := myBsearch_le_length isUp (wrapPivot t (a.take m) (a.drop m)) (a.drop m)
      rw [hlenA] at hA hmidA
      rw [hlenB] at hB hmidB
      simp only [inside_append]
      refine ⟨⟨⟨⟨?_, ?_⟩, ?_⟩, ?_⟩, ?_⟩
      · exact (inside_medianReads m).mono (by omega)
      · exact (inside_medianReads (a.length - m)).shift (by omega)
      · exact hA.mono (by omega)
      · exact hB.shift (by omega)
      · exact inside_partAccesses (by omega) (by omega) hmidA hmidB ih

/-! ## The samples -/

theorem inside_others {nprocs n : ℕ} :
    (∀ me < nprocs, Inside (nprocs * nprocs) (sampleWrites nprocs me)) ∧
      Inside (nprocs * nprocs) (pivotReads nprocs) ∧
      (∀ isUp (a pivot : List ℤ), a.length = n → Inside n (histogramReads isUp a 0 pivot)) ∧
      ∀ t isUp fuel (buf : List ℤ) m, Inside buf.length (mergeAccesses t isUp fuel buf m) := by
  refine ⟨?_, ?_, ?_, fun t isUp fuel buf m => inside_mergeAccesses t isUp fuel buf m⟩
  · intro me hme j hj
    obtain ⟨i, hi, rfl⟩ := List.mem_map.mp hj
    have hlt := List.mem_range.mp hi
    have hrow := Nat.mul_le_mul_right nprocs (show me + 1 ≤ nprocs from hme)
    rw [Nat.succ_mul] at hrow
    have hin : me * nprocs + i < nprocs * nprocs := by omega
    exact ⟨Int.natCast_nonneg _, by exact_mod_cast hin⟩
  · intro j hj
    obtain ⟨i, hi, rfl⟩ := List.mem_map.mp hj
    have hlt := List.mem_range.mp hi
    have hrow := Nat.mul_le_mul_right nprocs (show i + 1 ≤ nprocs by omega)
    have hpos := Nat.mul_pos (show 0 < i + 1 by omega) (show 0 < nprocs by omega)
    push_cast
    have hrow' : ((i : ℤ) + 1) * nprocs ≤ nprocs * nprocs := by exact_mod_cast hrow
    have hpos' : 0 < ((i : ℤ) + 1) * nprocs := by exact_mod_cast hpos
    omega
  · intro isUp a pivot hlen
    exact hlen ▸ inside_histogramReads isUp a 0 pivot

/-- The samples before the last are taken from the part of the process. -/
theorem sampleIndex_of_lt {nprocs n i : ℕ} (hi : i + 1 < nprocs) (hn : 0 < n)
    (hint : InInt (((i : ℤ) + 1) * n)) : ∃ j, sampleIndex nprocs n i = some j ∧ 0 ≤ j ∧ j < n := by
  have hprod : 0 ≤ ((i : ℤ) + 1) * n := by positivity
  refine ⟨_, if_pos hint, Int.tdiv_nonneg hprod (Int.natCast_nonneg nprocs), ?_⟩
  rw [Int.tdiv_eq_ediv_of_nonneg hprod]
  refine Int.ediv_lt_of_lt_mul (by omega) ?_
  have hlt : ((i : ℤ) + 1) < nprocs := by omega
  have hmul := mul_lt_mul_of_pos_right hlt (show (0 : ℤ) < n by omega)
  linarith [mul_comm (nprocs : ℤ) n]

theorem sampleIndex_last {nprocs n i : ℕ} (hi : i + 1 = nprocs) {j : ℤ}
    (h : sampleIndex nprocs n i = some j) : j = n := by
  rw [sampleIndex] at h
  split_ifs at h
  obtain rfl := Option.some.inj h
  have hlast : ((i : ℤ) + 1) = nprocs := by omega
  rw [hlast]
  exact Int.mul_tdiv_cancel_left _ (by omega)

/-- Every sort leaves its arrays, whatever its number of processes and elements. -/
theorem indexSafe_never {nprocs : ℕ} (hnprocs : 0 < nprocs) (n : ℕ) : ¬IndexSafe nprocs n := by
  intro h
  obtain ⟨j, hj, _, hlt⟩ := h.samples (nprocs - 1) (by omega)
  have hlast := sampleIndex_last (by omega) hj
  omega

theorem indexSafe_never_two : ¬IndexSafe 2 3 := indexSafe_never (by decide) 3

/-- The second of two processes' samples of three elements. -/
theorem sampleIndex_three : sampleIndex 2 3 1 = some 3 ∧ ¬IndexSafe 2 3 := by
  refine ⟨by decide, fun h => ?_⟩
  obtain ⟨j, hj, _, hlt⟩ := h.samples 1 (by decide)
  have hlast := sampleIndex_last rfl hj
  omega

end OmniCompiler.Xmp.Sort
