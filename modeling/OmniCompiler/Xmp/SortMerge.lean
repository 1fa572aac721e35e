import OmniCompiler.Memory.Rotation
import OmniCompiler.Arithmetic.MachineInt
import Mathlib.Data.List.GetD
import Mathlib.Data.List.Sort
import Mathlib.Tactic

/-!
# Merging sorted runs in place (`xmp_sort.c`)

The runs that a rank has received are merged two by two. Two runs are split at a common pivot, the
blocks between the two places of the pivot are rotated, and both halves are merged in the same way.
A sub-array is a list, and the pointer to an element within it is what `drop` leaves. The average of
two values of a type is a value of the type, so that its conversions are left out.
-/
namespace OmniCompiler.Xmp.Sort

open Memory MachineInt

/-- The integer types that `set_funcs` knows. -/
inductive ElemType
  | short
  | unsignedShort
  | int
  | unsignedInt
  | long
  | unsignedLong
  | longlong
  | unsignedLonglong
  deriving DecidableEq

/-- The values that a sum of two elements may have; short integers are added as `int`. -/
def ElemType.InRange : ElemType → ℤ → Prop
  | .short, x | .unsignedShort, x | .int, x => InInt x
  | .unsignedInt, x => 0 ≤ x ∧ x < 2 ^ 32
  | .long, x | .longlong, x => InLL x
  | .unsignedLong, x | .unsignedLonglong, x => 0 ≤ x ∧ x < 2 ^ 64

instance (t : ElemType) (x : ℤ) : Decidable (t.InRange x) := by
  cases t
  all_goals
    unfold ElemType.InRange
    infer_instance

inductive SortError
  | overflow
  | outOfFuel
  deriving DecidableEq

def compareUp (x y : ℤ) : ℤ := if x < y then -1 else if x = y then 0 else 1

def compareDown (x y : ℤ) : ℤ := if x > y then -1 else if x = y then 0 else 1

/-- `compare_func`, as `set_funcs` sets it. -/
def compareFunc (isUp : Bool) : ℤ → ℤ → ℤ := if isUp then compareUp else compareDown

/-- `x` does not come after `y`. -/
def Before (isUp : Bool) (x y : ℤ) : Prop := compareFunc isUp x y ≤ 0

instance (isUp : Bool) : DecidableRel (Before isUp) :=
  fun x y => inferInstanceAs (Decidable (compareFunc isUp x y ≤ 0))

section Order

variable {isUp : Bool} {x y z : ℤ}

theorem before_up : Before true x y ↔ x ≤ y := by
  rw [Before, compareFunc, if_pos rfl, compareUp]
  split_ifs <;> omega

theorem before_down : Before false x y ↔ y ≤ x := by
  rw [Before, compareFunc, if_neg Bool.false_ne_true, compareDown]
  split_ifs <;> omega

theorem before_refl (isUp : Bool) (x : ℤ) : Before isUp x x := by
  cases isUp with
  | true => exact before_up.mpr le_rfl
  | false => exact before_down.mpr le_rfl

theorem before_total (isUp : Bool) (x y : ℤ) : Before isUp x y ∨ Before isUp y x := by
  cases isUp with
  | true =>
    rw [before_up, before_up]
    exact le_total x y
  | false =>
    rw [before_down, before_down]
    exact le_total y x

theorem Before.trans (hxy : Before isUp x y) (hyz : Before isUp y z) : Before isUp x z := by
  cases isUp with
  | true =>
    rw [before_up] at hxy hyz ⊢
    exact hxy.trans hyz
  | false =>
    rw [before_down] at hxy hyz ⊢
    exact hyz.trans hxy

theorem compareFunc_pos : 0 < compareFunc isUp x y ↔ ¬Before isUp x y := by
  rw [Before, not_le]

theorem compareFunc_neg : compareFunc isUp x y < 0 ↔ ¬Before isUp y x := by
  cases isUp with
  | true =>
    rw [before_up, compareFunc, if_pos rfl, compareUp]
    split_ifs <;> omega
  | false =>
    rw [before_down, compareFunc, if_neg Bool.false_ne_true, compareDown]
    split_ifs <;> omega

instance : IsTrans ℤ (Before isUp) := ⟨fun _ _ _ => Before.trans⟩

instance : Std.Total (Before isUp) := ⟨before_total isUp⟩

end Order

/-- The order in which a list has to be in the end. -/
def Sorted (isUp : Bool) (a : List ℤ) : Prop := a.Pairwise (Before isUp)

/-- `qsort` with `compare_func`. -/
def qsort (isUp : Bool) (a : List ℤ) : List ℤ := a.insertionSort (Before isUp)

theorem sorted_qsort (isUp : Bool) (a : List ℤ) : Sorted isUp (qsort isUp a) :=
  List.pairwise_insertionSort _ a

theorem perm_qsort (isUp : Bool) (a : List ℤ) : (qsort isUp a).Perm a := List.perm_insertionSort _ a

/-! ## `my_bsearch` -/

/-- The index of the first element that comes after `p`. -/
def myBsearch (isUp : Bool) (p : ℤ) (a : List ℤ) : ℕ :=
  if 0 < compareFunc isUp (a.getD 0 0) p then 0
  else if compareFunc isUp (a.getD (a.length - 1) 0) p < 0 then a.length
  else if a.length < 8 then a.findIdx fun x => decide (0 < compareFunc isUp x p)
  else
    let mid := a.length / 2
    if compareFunc isUp (a.getD mid 0) p < 0 then mid + 1 + myBsearch isUp p (a.drop (mid + 1))
    else if 0 < compareFunc isUp (a.getD mid 0) p then myBsearch isUp p (a.take (mid + 1))
    else mid + (a.drop mid).findIdx fun x => decide (compareFunc isUp x p ≠ 0)
termination_by a.length
decreasing_by
  · rw [List.length_drop]
    omega
  · rw [List.length_take]
    omega

/-- The elements that do not come after `p` are those before index `m`. -/
structure SplitAt (isUp : Bool) (p : ℤ) (a : List ℤ) (m : ℕ) : Prop where
  le : m ≤ a.length
  before : ∀ i, i < m → Before isUp (a.getD i 0) p
  after : ∀ i, m ≤ i → i < a.length → ¬Before isUp (a.getD i 0) p

theorem getD_drop (a : List ℤ) (k i : ℕ) : (a.drop k).getD i 0 = a.getD (k + i) 0 := by
  rw [List.getD_eq_getElem?_getD, List.getD_eq_getElem?_getD, List.getElem?_drop]

theorem getD_take (a : List ℤ) {k i : ℕ} (h : i < k) : (a.take k).getD i 0 = a.getD i 0 := by
  rw [List.getD_eq_getElem?_getD, List.getD_eq_getElem?_getD, List.getElem?_take_of_lt h]

section Search

variable {isUp : Bool} {p : ℤ} {a : List ℤ}

theorem Sorted.before_getD (h : Sorted isUp a) {i j : ℕ} (hij : i ≤ j) (hj : j < a.length) :
    Before isUp (a.getD i 0) (a.getD j 0) := by
  obtain rfl | hlt := hij.eq_or_lt
  · exact before_refl isUp _
  · have hi : i < a.length := hlt.trans hj
    rw [List.getD_eq_getElem a 0 hi, List.getD_eq_getElem a 0 hj]
    exact List.pairwise_iff_getElem.mp h i j hi hj hlt

theorem Sorted.drop (h : Sorted isUp a) (k : ℕ) : Sorted isUp (a.drop k) :=
  List.Pairwise.sublist (List.drop_sublist k a) h

theorem Sorted.take (h : Sorted isUp a) (k : ℕ) : Sorted isUp (a.take k) :=
  List.Pairwise.sublist (List.take_sublist k a) h

/-- A loop over the elements that stops at the first one that meets a condition. -/
theorem findIdx_spec (a : List ℤ) (c : ℤ → Prop) [DecidablePred c] :
    a.findIdx (fun x => decide (c x)) ≤ a.length ∧
      (∀ i, i < a.findIdx (fun x => decide (c x)) → ¬c (a.getD i 0)) ∧
      (a.findIdx (fun x => decide (c x)) < a.length →
        c (a.getD (a.findIdx fun x => decide (c x)) 0)) := by
  refine ⟨List.findIdx_le_length, ?_, ?_⟩
  · intro i hi
    have hlt : i < a.length := hi.trans_le List.findIdx_le_length
    have hnot := List.not_of_lt_findIdx hi
    rw [List.getD_eq_getElem a 0 hlt]
    simpa using hnot
  · intro hlt
    rw [List.getD_eq_getElem a 0 hlt]
    have hyes := List.findIdx_getElem (w := hlt)
    simpa using hyes

theorem Sorted.after_of_le (h : Sorted isUp a) {i j : ℕ} (hij : i ≤ j) (hj : j < a.length)
    (hi : ¬Before isUp (a.getD i 0) p) : ¬Before isUp (a.getD j 0) p :=
  fun hb => hi ((h.before_getD hij hj).trans hb)

theorem splitAt_myBsearch (h : Sorted isUp a) (ha : a ≠ []) :
    SplitAt isUp p a (myBsearch isUp p a) := by
  induction hn : a.length using Nat.strong_induction_on generalizing a with
  | _ n ih =>
    have hpos : 0 < a.length := List.length_pos_iff.mpr ha
    rw [myBsearch]
    dsimp only
    split_ifs with hfirst hlast hsmall hless hgreater
    · refine ⟨Nat.zero_le _, fun i hi => absurd hi (Nat.not_lt_zero i), ?_⟩
      intro i hi hlt
      exact h.after_of_le hi hlt (compareFunc_pos.mp hfirst)
    · refine ⟨le_rfl, ?_, fun i hi hlt => absurd hlt (Nat.not_lt.mpr hi)⟩
      intro i hi
      have hp : Before isUp (a.getD (a.length - 1) 0) p :=
        (before_total isUp _ _).resolve_right (compareFunc_neg.mp hlast)
      exact (h.before_getD (by omega) (by omega)).trans hp
    · obtain ⟨hle, hbefore, hafter⟩ := findIdx_spec a fun x => 0 < compareFunc isUp x p
      refine ⟨hle, ?_, ?_⟩
      · intro i hi
        exact not_lt.mp (hbefore i hi)
      · intro i hi hlt
        exact h.after_of_le hi hlt (compareFunc_pos.mp (hafter (hi.trans_lt hlt)))
    · -- the middle element comes before `p`
      have hmid : Before isUp (a.getD (a.length / 2) 0) p :=
        (before_total isUp _ _).resolve_right (compareFunc_neg.mp hless)
      have hrest : (a.drop (a.length / 2 + 1)).length = a.length - (a.length / 2 + 1) :=
        List.length_drop
      obtain ⟨hle, hbefore, hafter⟩ := ih (a.length - (a.length / 2 + 1)) (by omega) (h.drop _)
        (List.length_pos_iff.mp (by omega)) hrest
      rw [hrest] at hle hafter
      refine ⟨by omega, ?_, ?_⟩
      · intro i hi
        by_cases him : i ≤ a.length / 2
        · exact (h.before_getD him (by omega)).trans hmid
        · have hb := hbefore (i - (a.length / 2 + 1)) (by omega)
          rw [getD_drop] at hb
          rwa [Nat.add_sub_cancel' (by omega)] at hb
      · intro i hi hlt
        have hb := hafter (i - (a.length / 2 + 1)) (by omega) (by omega)
        rw [getD_drop] at hb
        rwa [Nat.add_sub_cancel' (by omega)] at hb
    · -- the middle element comes after `p`
      have hmid := compareFunc_pos.mp hgreater
      have hrest : (a.take (a.length / 2 + 1)).length = a.length / 2 + 1 := by
        rw [List.length_take]
        omega
      obtain ⟨hle, hbefore, hafter⟩ := ih (a.length / 2 + 1) (by omega) (h.take _)
        (List.length_pos_iff.mp (by omega)) hrest
      rw [hrest] at hle hafter
      refine ⟨by omega, ?_, ?_⟩
      · intro i hi
        have hb := hbefore i hi
        rwa [getD_take a (by omega)] at hb
      · intro i hi hlt
        by_cases him : i ≤ a.length / 2
        · have hb := hafter i hi (by omega)
          rwa [getD_take a (by omega)] at hb
        · exact h.after_of_le (by omega) hlt hmid
    · -- the middle element is `p`
      have hmid : Before isUp (a.getD (a.length / 2) 0) p := not_lt.mp hgreater
      obtain ⟨hle, hbefore, hafter⟩ :=
        findIdx_spec (a.drop (a.length / 2)) fun x => compareFunc isUp x p ≠ 0
      rw [List.length_drop] at hle hafter
      refine ⟨by omega, ?_, ?_⟩
      · intro i hi
        by_cases him : i ≤ a.length / 2
        · exact (h.before_getD him (by omega)).trans hmid
        · have hb := not_not.mp (hbefore (i - a.length / 2) (by omega))
          rw [getD_drop, Nat.add_sub_cancel' (by omega)] at hb
          exact hb.le
      · intro i hi hlt
        set k := (a.drop (a.length / 2)).findIdx fun x => decide (compareFunc isUp x p ≠ 0)
        have hk := hafter (by omega)
        rw [getD_drop] at hk
        -- it is not `p`, and it does not come before the middle element
        have hge : ¬compareFunc isUp (a.getD (a.length / 2 + k) 0) p < 0 := by
          rw [compareFunc_neg, not_not]
          exact (not_not.mp (compareFunc_neg.not.mp hless)).trans
            (h.before_getD (by omega) (by omega))
        exact h.after_of_le hi hlt (compareFunc_pos.mp (by omega))

end Search

/-! ## The pivot -/

/-- `(x + y) / 2`; nothing is known of a sum that overflows. -/
def ElemType.average (t : ElemType) (x y : ℤ) : Except SortError ℤ :=
  if t.InRange (x + y) then .ok ((x + y).tdiv 2) else .error .overflow

def ElemType.median (t : ElemType) (a : List ℤ) : Except SortError ℤ :=
  if a.length % 2 = 0 then t.average (a.getD (a.length / 2) 0) (a.getD (a.length / 2 - 1) 0)
  else .ok (a.getD (a.length / 2) 0)

def getRotatePivot (t : ElemType) (a b : List ℤ) : Except SortError ℤ := do
  let am ← (if 0 < a.length then t.median a else .ok 0)
  let bm ← (if 0 < b.length then t.median b else .ok 0)
  if 0 < a.length ∧ 0 < b.length then t.average am bm
  else if 0 < a.length then .ok am
  else .ok bm

/-! ## Merging -/

/-- `two_way_inplace_merge_sort` after the search for the pivot; `merge` is the function itself. -/
def mergeParts (isUp : Bool) (merge : List ℤ → ℕ → Except SortError (List ℤ)) (a : List ℤ)
    (m midA midB : ℕ) : Except SortError (List ℤ) :=
  if midA = m ∧ midB = a.length - m then .ok (qsort isUp a)
  else do
    let a' := rotateEntries a midA m (midB + m - 1)
    let newAn := midA + midB
    let left ← (if 0 < midA ∧ 0 < midB then merge (a'.take newAn) midA else .ok (a'.take newAn))
    let right ← (if midA < m ∧ midB < a.length - m then merge (a'.drop newAn) (m - midA)
      else .ok (a'.drop newAn))
    .ok (left ++ right)

/-- `two_way_inplace_merge_sort`. -/
def twoWayMerge (t : ElemType) (isUp : Bool) : ℕ → List ℤ → ℕ → Except SortError (List ℤ)
  | fuel, a, m =>
    if m = 0 ∨ a.length ≤ m then .ok a
    else if a.length < 32 then .ok (qsort isUp a)
    else
      match fuel with
      | 0 => .error .outOfFuel
      | fuel + 1 => do
        let p ← getRotatePivot t (a.take m) (a.drop m)
        mergeParts isUp (twoWayMerge t isUp fuel) a m (myBsearch isUp p (a.take m))
          (myBsearch isUp p (a.drop m))

/-- `kway_inplace_merge_sort`. -/
def kwayMerge (t : ElemType) (isUp : Bool) :
    ℕ → List ℤ → (ℕ → ℕ) → ℕ → Except SortError (List ℤ)
  | fuel, a, start, k =>
    if k = 1 then .ok a
    else if start k - start 0 < 64 then .ok (qsort isUp a)
    else if k = 2 then twoWayMerge t isUp a.length a (start 1 - start 0)
    else
      match fuel with
      | 0 => .error .outOfFuel
      | fuel + 1 => do
        let m := k / 2
        let d := start m - start 0
        let left ← kwayMerge t isUp fuel (a.take d) start m
        let right ← kwayMerge t isUp fuel (a.drop d) (fun i => start (m + i)) (k - m)
        twoWayMerge t isUp (left ++ right).length (left ++ right) d

section Merge

variable {t : ElemType} {isUp : Bool}

theorem average_spec {x y z : ℤ} (h : t.average x y = .ok z) : min x y ≤ z ∧ z ≤ max x y := by
  rw [ElemType.average] at h
  split_ifs at h
  cases h
  have hsum := Int.mul_tdiv_add_tmod (x + y) 2
  have hlo := Int.lt_tmod_of_pos (x + y) (show (0 : ℤ) < 2 by decide)
  have hhi := Int.tmod_lt_of_pos (x + y) (show (0 : ℤ) < 2 by decide)
  obtain hx | hx := le_total x y
  · rw [min_eq_left hx, max_eq_right hx]
    omega
  · rw [min_eq_right hx, max_eq_left hx]
    omega

theorem average_error {x y : ℤ} {e : SortError} (h : t.average x y = .error e) : e = .overflow := by
  rw [ElemType.average] at h
  split_ifs at h
  cases h
  rfl

theorem before_average (isUp : Bool) {x y z : ℤ} (h : t.average x y = .ok z) :
    Before isUp x z ∨ Before isUp y z := by
  obtain ⟨hlo, hhi⟩ := average_spec h
  cases isUp with
  | true =>
    rw [before_up, before_up]
    exact min_le_iff.mp hlo
  | false =>
    rw [before_down, before_down]
    exact le_max_iff.mp hhi

theorem getD_mem {a : List ℤ} {i : ℕ} (h : i < a.length) : a.getD i 0 ∈ a := by
  rw [List.getD_eq_getElem a 0 h]
  exact List.getElem_mem h

theorem before_median (isUp : Bool) {a : List ℤ} {z : ℤ} (ha : 0 < a.length)
    (h : t.median a = .ok z) :
    ∃ x ∈ a, Before isUp x z := by
  rw [ElemType.median] at h
  split_ifs at h
  · obtain hx | hx := before_average isUp h
    · exact ⟨_, getD_mem (by omega), hx⟩
    · exact ⟨_, getD_mem (by omega), hx⟩
  · cases h
    exact ⟨_, getD_mem (by omega), before_refl isUp _⟩

theorem median_error {a : List ℤ} {e : SortError} (h : t.median a = .error e) : e = .overflow := by
  rw [ElemType.median] at h
  split_ifs at h
  exact average_error h

theorem getRotatePivot_spec (t : ElemType) (isUp : Bool) {a b : List ℤ} (ha : 0 < a.length)
    (hb : 0 < b.length) :
    getRotatePivot t a b = .error .overflow ∨
      ∃ p, getRotatePivot t a b = .ok p ∧
        ((∃ x ∈ a, Before isUp x p) ∨ ∃ x ∈ b, Before isUp x p) := by
  rw [getRotatePivot, if_pos ha, if_pos hb]
  cases ham : t.median a with
  | error e =>
    rw [median_error ham]
    exact Or.inl rfl
  | ok am =>
    cases hbm : t.median b with
    | error e =>
      rw [median_error hbm]
      exact Or.inl rfl
    | ok bm =>
      have hav : (do
          let am ← Except.ok am
          let bm ← Except.ok bm
          if 0 < a.length ∧ 0 < b.length then t.average am bm
          else if 0 < a.length then .ok am
          else .ok bm) = t.average am bm := if_pos ⟨ha, hb⟩
      rw [hav]
      cases hp : t.average am bm with
      | error e =>
        rw [average_error hp]
        exact Or.inl rfl
      | ok p =>
        refine Or.inr ⟨p, rfl, ?_⟩
        obtain h | h := before_average isUp hp
        · obtain ⟨x, hx, hxm⟩ := before_median isUp ha ham
          exact Or.inl ⟨x, hx, hxm.trans h⟩
        · obtain ⟨x, hx, hxm⟩ := before_median isUp hb hbm
          exact Or.inr ⟨x, hx, hxm.trans h⟩

/-- A merge ends with an overflow in the pivots, or with the elements in order. -/
def Merges (isUp : Bool) (a : List ℤ) (r : Except SortError (List ℤ)) : Prop :=
  r = .error .overflow ∨ ∃ b, r = .ok b ∧ Sorted isUp b ∧ b.Perm a

theorem merges_ok {a : List ℤ} (h : Sorted isUp a) : Merges isUp a (.ok a) :=
  Or.inr ⟨a, rfl, h, List.Perm.refl a⟩

theorem merges_qsort (isUp : Bool) (a : List ℤ) : Merges isUp a (.ok (qsort isUp a)) :=
  Or.inr ⟨_, rfl, sorted_qsort isUp a, perm_qsort isUp a⟩

theorem Merges.append {a b : List ℤ} {p : ℤ} {r s : Except SortError (List ℤ)}
    (hr : Merges isUp a r) (hs : Merges isUp b s) (ha : ∀ x ∈ a, Before isUp x p)
    (hb : ∀ x ∈ b, ¬Before isUp x p) :
    Merges isUp (a ++ b) (do
      let left ← r
      let right ← s
      .ok (left ++ right)) := by
  obtain rfl | ⟨left, rfl, hleft, hpl⟩ := hr
  · exact Or.inl rfl
  · obtain rfl | ⟨right, rfl, hright, hpr⟩ := hs
    · exact Or.inl rfl
    · refine Or.inr ⟨left ++ right, rfl, ?_, hpl.append hpr⟩
      rw [Sorted, List.pairwise_append]
      refine ⟨hleft, hright, ?_⟩
      intro x hx y hy
      have hyp := (before_total isUp y p).resolve_left (hb y (hpr.mem_iff.mp hy))
      exact (ha x (hpl.mem_iff.mp hx)).trans hyp

theorem Merges.congr {a b : List ℤ} {r : Except SortError (List ℤ)} (h : Merges isUp a r)
    (hab : a.Perm b) : Merges isUp b r := by
  obtain h | ⟨c, hr, hc, hperm⟩ := h
  · exact Or.inl h
  · exact Or.inr ⟨c, hr, hc, hperm.trans hab⟩

theorem SplitAt.take_before {p : ℤ} {a : List ℤ} {m : ℕ} (h : SplitAt isUp p a m) :
    ∀ x ∈ a.take m, Before isUp x p := by
  intro x hx
  obtain ⟨i, hi, rfl⟩ := List.mem_iff_getElem.mp hx
  rw [List.length_take] at hi
  have hb := h.before i (by omega)
  rw [List.getD_eq_getElem a 0 (by omega)] at hb
  rwa [List.getElem_take]

theorem SplitAt.drop_after {p : ℤ} {a : List ℤ} {m : ℕ} (h : SplitAt isUp p a m) :
    ∀ x ∈ a.drop m, ¬Before isUp x p := by
  intro x hx
  obtain ⟨i, hi, rfl⟩ := List.mem_iff_getElem.mp hx
  rw [List.length_drop] at hi
  have hb := h.after (m + i) (by omega) (by omega)
  rw [List.getD_eq_getElem a 0 (by omega)] at hb
  rwa [List.getElem_drop]

/-- When an element does not come after `p`, the first part is not empty. -/
theorem SplitAt.pos {p : ℤ} {a : List ℤ} {m : ℕ} (h : SplitAt isUp p a m)
    (hp : ∃ x ∈ a, Before isUp x p) : 0 < m := by
  obtain ⟨x, hx, hxp⟩ := hp
  obtain ⟨i, hi, rfl⟩ := List.mem_iff_getElem.mp hx
  by_contra hm
  apply h.after i (by omega) hi
  rwa [List.getD_eq_getElem a 0 hi]

theorem rotate_parts {a : List ℤ} {m midA midB : ℕ} (hm : m ≤ a.length) (hA : midA ≤ m)
    (hB : midB ≤ (a.drop m).length) :
    rotateEntries a midA m (midB + m - 1) =
      ((a.take m).take midA ++ (a.drop m).take midB) ++
        ((a.take m).drop midA ++ (a.drop m).drop midB) := by
  have hsplit : a = (a.take m).take midA ++
      ((a.take m).drop midA ++ ((a.drop m).take midB ++ (a.drop m).drop midB)) := by
    rw [List.take_append_drop, ← List.append_assoc, List.take_append_drop, List.take_append_drop]
  have hlA : ((a.take m).take midA).length = midA := by
    rw [List.length_take, List.length_take]
    omega
  have hlA' : ((a.take m).drop midA).length = m - midA := by
    rw [List.length_drop, List.length_take]
    omega
  have hlB : ((a.drop m).take midB).length = midB := by
    rw [List.length_take]
    omega
  have hrot := rotateEntries_append ((a.take m).take midA) ((a.take m).drop midA)
    ((a.drop m).take midB) ((a.drop m).drop midB)
  have hmid : midA + (m - midA) = m := by omega
  have hend : m + midB - 1 = midB + m - 1 := by omega
  rw [hlA, hlA', hlB, hmid, hend, ← hsplit] at hrot
  rw [hrot, List.append_assoc]

theorem mergeParts_spec {merge : List ℤ → ℕ → Except SortError (List ℤ)} {a : List ℤ} {p : ℤ}
    {m midA midB : ℕ} (hm : m ≤ a.length) (hA : Sorted isUp (a.take m))
    (hB : Sorted isUp (a.drop m)) (hmidA : SplitAt isUp p (a.take m) midA)
    (hmidB : SplitAt isUp p (a.drop m) midB) (hpos : 0 < midA ∨ 0 < midB)
    (hmerge : ∀ b k, b.length < a.length → Sorted isUp (b.take k) → Sorted isUp (b.drop k) →
      Merges isUp b (merge b k)) : Merges isUp a (mergeParts isUp merge a m midA midB) := by
  have hlenA : (a.take m).length = m := by
    rw [List.length_take]
    omega
  have hlenB : (a.drop m).length = a.length - m := List.length_drop
  have hleA := hmidA.le
  have hleB := hmidB.le
  rw [mergeParts]
  by_cases hall : midA = m ∧ midB = a.length - m
  · rw [if_pos hall]
    exact merges_qsort isUp a
  rw [if_neg hall]
  dsimp only
  rw [rotate_parts hm (by omega) hleB]
  -- `x ++ y` and `u ++ v` are what is merged next
  set x := (a.take m).take midA with hx
  set u := (a.take m).drop midA with hu
  set y := (a.drop m).take midB with hy
  set v := (a.drop m).drop midB with hv
  have hlx : x.length = midA := by
    rw [hx, List.length_take]
    omega
  have hly : y.length = midB := by
    rw [hy, List.length_take]
    omega
  have hlu : u.length = m - midA := by
    rw [hu, List.length_drop]
    omega
  have hlv : v.length = a.length - m - midB := by
    rw [hv, List.length_drop]
    omega
  have hfirst : midA + midB = (x ++ y).length := by
    rw [List.length_append]
    omega
  have hxu : x ++ u = a.take m := List.take_append_drop _ _
  have hyv : y ++ v = a.drop m := List.take_append_drop _ _
  have hsx : Sorted isUp x := hA.take midA
  have hsy : Sorted isUp y := hB.take midB
  have hsu : Sorted isUp u := hA.drop midA
  have hsv : Sorted isUp v := hB.drop midB
  rw [hfirst, List.take_left, List.drop_left]
  have hleft : Merges isUp (x ++ y)
      (if 0 < midA ∧ 0 < midB then merge (x ++ y) midA else .ok (x ++ y)) := by
    split_ifs with h
    · apply hmerge
      · rw [List.length_append]
        omega
      · rwa [← hlx, List.take_left]
      · rwa [← hlx, List.drop_left]
    · apply merges_ok
      obtain hx0 | hy0 : midA = 0 ∨ midB = 0 := by omega
      · rw [hx0] at hlx
        rwa [List.length_eq_zero_iff.mp hlx]
      · rw [hy0] at hly
        rwa [List.length_eq_zero_iff.mp hly, List.append_nil]
  have hright : Merges isUp (u ++ v)
      (if midA < m ∧ midB < a.length - m then merge (u ++ v) (m - midA) else .ok (u ++ v)) := by
    split_ifs with h
    · apply hmerge
      · rw [List.length_append]
        omega
      · rwa [← hlu, List.take_left]
      · rwa [← hlu, List.drop_left]
    · apply merges_ok
      obtain hu0 | hv0 : m - midA = 0 ∨ a.length - m - midB = 0 := by omega
      · rw [hu0] at hlu
        rwa [List.length_eq_zero_iff.mp hlu]
      · rw [hv0] at hlv
        rwa [List.length_eq_zero_iff.mp hlv, List.append_nil]
  have hbefore : ∀ w ∈ x ++ y, Before isUp w p := by
    intro w hw
    obtain hw | hw := List.mem_append.mp hw
    · exact hmidA.take_before w hw
    · exact hmidB.take_before w hw
  have hafter : ∀ w ∈ u ++ v, ¬Before isUp w p := by
    intro w hw
    obtain hw | hw := List.mem_append.mp hw
    · exact hmidA.drop_after w hw
    · exact hmidB.drop_after w hw
  apply (hleft.append hright hbefore hafter).congr
  calc ((x ++ y) ++ (u ++ v)).Perm ((x ++ u) ++ (y ++ v)) := by
        rw [List.append_assoc, List.append_assoc]
        apply List.Perm.append_left
        rw [← List.append_assoc, ← List.append_assoc]
        exact List.perm_append_comm.append_right v
    _ = a := by rw [hxu, hyv, List.take_append_drop]

theorem twoWayMerge_spec (t : ElemType) (fuel : ℕ) (a : List ℤ) (m : ℕ) (hfuel : a.length ≤ fuel)
    (hA : Sorted isUp (a.take m)) (hB : Sorted isUp (a.drop m)) :
    Merges isUp a (twoWayMerge t isUp fuel a m) := by
  induction fuel generalizing a m with
  | zero =>
    rw [twoWayMerge]
    have hempty : a = [] := List.length_eq_zero_iff.mp (Nat.le_zero.mp hfuel)
    rw [if_pos (by rw [hempty]; exact Or.inr (Nat.zero_le m))]
    apply merges_ok
    rw [hempty]
    exact List.Pairwise.nil
  | succ fuel ih =>
    rw [twoWayMerge]
    split_ifs with hends hsmall
    · apply merges_ok
      obtain rfl | hm := hends
      · exact hB
      · rwa [List.take_of_length_le hm] at hA
    · exact merges_qsort isUp a
    · have hlenA : (a.take m).length = m := by
        rw [List.length_take]
        omega
      have hlenB : (a.drop m).length = a.length - m := List.length_drop
      have hposA : 0 < (a.take m).length := by omega
      have hposB : 0 < (a.drop m).length := by omega
      obtain hp | ⟨p, hp, hpivot⟩ := getRotatePivot_spec t isUp hposA hposB
      · rw [hp]
        exact Or.inl rfl
      · rw [hp]
        have hmidA := splitAt_myBsearch (p := p) hA (List.length_pos_iff.mp hposA)
        have hmidB := splitAt_myBsearch (p := p) hB (List.length_pos_iff.mp hposB)
        have hpos : 0 < myBsearch isUp p (a.take m) ∨ 0 < myBsearch isUp p (a.drop m) :=
          hpivot.imp hmidA.pos hmidB.pos
        apply mergeParts_spec (by omega) hA hB hmidA hmidB hpos
        intro b k hb hbA hbB
        exact ih b k (by omega) hbA hbB

/-- The runs lie one after the other; `start i` is where run `i` starts. -/
def StartsOf (runs : List (List ℤ)) (start : ℕ → ℕ) : Prop :=
  ∀ i, i ≤ runs.length → start i = start 0 + (runs.take i).flatten.length

theorem StartsOf.take {runs : List (List ℤ)} {start : ℕ → ℕ} (h : StartsOf runs start) (m : ℕ) :
    StartsOf (runs.take m) start := by
  intro i hi
  rw [List.length_take] at hi
  rw [h i (by omega), List.take_take, min_eq_left (by omega)]

theorem StartsOf.drop {runs : List (List ℤ)} {start : ℕ → ℕ} (h : StartsOf runs start) {m : ℕ}
    (hm : m ≤ runs.length) : StartsOf (runs.drop m) fun i => start (m + i) := by
  intro i hi
  rw [List.length_drop] at hi
  dsimp only
  rw [h (m + i) (by omega), Nat.add_zero, h m hm, List.take_add, List.flatten_append,
    List.length_append, Nat.add_assoc]

theorem sorted_flatten_of_length_one {runs : List (List ℤ)} (h : ∀ run ∈ runs, Sorted isUp run)
    (hk : runs.length = 1) : Sorted isUp runs.flatten := by
  obtain ⟨run, rfl⟩ := List.length_eq_one_iff.mp hk
  rw [List.flatten_cons, List.flatten_nil, List.append_nil]
  exact h run List.mem_cons_self

theorem kwayMerge_spec (t : ElemType) (fuel : ℕ) (runs : List (List ℤ)) (start : ℕ → ℕ)
    (hfuel : runs.length ≤ fuel) (hpos : 0 < runs.length)
    (hruns : ∀ run ∈ runs, Sorted isUp run) (hstart : StartsOf runs start) :
    Merges isUp runs.flatten (kwayMerge t isUp fuel runs.flatten start runs.length) := by
  induction fuel generalizing runs start with
  | zero => omega
  | succ fuel ih =>
    rw [kwayMerge]
    by_cases hone : runs.length = 1
    · rw [if_pos hone]
      exact merges_ok (sorted_flatten_of_length_one hruns hone)
    rw [if_neg hone]
    by_cases hsmall : start runs.length - start 0 < 64
    · rw [if_pos hsmall]
      exact merges_qsort isUp _
    rw [if_neg hsmall]
    -- the runs before and from `m`
    have hparts : ∀ m, m ≤ runs.length →
        runs.flatten = (runs.take m).flatten ++ (runs.drop m).flatten ∧
          start m - start 0 = (runs.take m).flatten.length := by
      intro m hm
      rw [← List.flatten_append, List.take_append_drop, hstart m hm]
      exact ⟨rfl, Nat.add_sub_cancel_left _ _⟩
    by_cases htwo : runs.length = 2
    · rw [if_pos htwo]
      obtain ⟨hflat, hd⟩ := hparts 1 (by omega)
      have hfirst : Sorted isUp (runs.take 1).flatten := by
        apply sorted_flatten_of_length_one
        · intro run hrun
          exact hruns run (List.mem_of_mem_take hrun)
        · rw [List.length_take]
          omega
      have hsecond : Sorted isUp (runs.drop 1).flatten := by
        apply sorted_flatten_of_length_one
        · intro run hrun
          exact hruns run (List.mem_of_mem_drop hrun)
        · rw [List.length_drop]
          omega
      apply twoWayMerge_spec t _ _ _ le_rfl
      · rwa [hflat, hd, List.take_left]
      · rwa [hflat, hd, List.drop_left]
    rw [if_neg htwo]
    dsimp only
    obtain ⟨hflat, hd⟩ := hparts (runs.length / 2) (by omega)
    have hleft := ih (runs.take (runs.length / 2)) start
      (by rw [List.length_take]; omega) (by rw [List.length_take]; omega)
      (fun run hrun => hruns run (List.mem_of_mem_take hrun)) (hstart.take _)
    have hright := ih (runs.drop (runs.length / 2)) (fun i => start (runs.length / 2 + i))
      (by rw [List.length_drop]; omega) (by rw [List.length_drop]; omega)
      (fun run hrun => hruns run (List.mem_of_mem_drop hrun)) (hstart.drop (by omega))
    have htake : (runs.take (runs.length / 2)).length = runs.length / 2 := by
      rw [List.length_take]
      omega
    rw [htake] at hleft
    rw [List.length_drop] at hright
    have htl : runs.flatten.take (start (runs.length / 2) - start 0) =
        (runs.take (runs.length / 2)).flatten := by
      rw [hd, hflat, List.take_left]
    have hdl : runs.flatten.drop (start (runs.length / 2) - start 0) =
        (runs.drop (runs.length / 2)).flatten := by
      rw [hd, hflat, List.drop_left]
    rw [htl, hdl]
    obtain hl | ⟨left, hl, hsl, hpl⟩ := hleft
    · rw [hl]
      exact Or.inl rfl
    · obtain hr | ⟨right, hr, hsr, hpr⟩ := hright
      · rw [hl, hr]
        exact Or.inl rfl
      · rw [hl, hr]
        have hlen : start (runs.length / 2) - start 0 = left.length := by
          rw [hd, hpl.length_eq]
        have hmerge : Merges isUp (left ++ right)
            (twoWayMerge t isUp (left ++ right).length (left ++ right) left.length) := by
          apply twoWayMerge_spec t _ _ _ le_rfl
          · rwa [List.take_left]
          · rwa [List.drop_left]
        rw [hlen]
        apply Merges.congr hmerge
        rw [hflat]
        exact hpl.append hpr

end Merge

end OmniCompiler.Xmp.Sort
