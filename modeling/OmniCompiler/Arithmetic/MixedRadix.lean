import Mathlib.Data.List.GetD
import Mathlib.Tactic

/-!
# Mixed radix numbers

Digits are listed with the least significant one first; the `i`-th digit ranges below
`sizes[i]`. A leading place value `m` other than `1` leaves room for lower digits.
-/
namespace OmniCompiler.MixedRadix

/-- Place values, the first being `m`. -/
def places : ℕ → List ℕ → List ℕ
  | _, [] => []
  | m, s :: sizes => m :: places (m * s) sizes

def digits (places : List ℕ) (x : ℕ) : ℕ × List ℕ :=
  places.foldr (fun m st => (st.1 % m, st.1 / m :: st.2)) (x, [])

def value : ℕ → List ℕ → List ℕ → ℕ
  | m, s :: sizes, c :: cs => c * m + value (m * s) sizes cs
  | _, _, _ => 0

def InRange (cs sizes : List ℕ) : Prop := List.Forall₂ (· < ·) cs sizes

theorem value_lt {m a : ℕ} {cs sizes : List ℕ} (h : InRange cs sizes) (ha : a < m) :
    a + value m sizes cs < m * sizes.prod := by
  induction h generalizing m a with
  | nil => simpa [value] using ha
  | @cons c s cs sizes hc _ ih =>
    have hlt : a + c * m < m * s := by nlinarith
    have := ih hlt
    rw [value, List.prod_cons, ← mul_assoc]
    omega

theorem digits_value {m a : ℕ} {cs sizes : List ℕ} (h : InRange cs sizes) (ha : a < m) :
    digits (places m sizes) (a + value m sizes cs) = (a, cs) := by
  induction h generalizing m a with
  | nil => simp [digits, places, value]
  | @cons c s cs sizes hc _ ih =>
    have hlt : a + c * m < m * s := by nlinarith
    have hrest : digits (places (m * s) sizes) (a + value m (s :: sizes) (c :: cs)) =
        (a + c * m, cs) := by
      rw [← ih hlt, value, add_assoc]
    rw [places, digits, List.foldr_cons, ← digits, hrest]
    have hdiv : (a + c * m) / m = c := by
      rw [Nat.add_mul_div_right a c (by omega), Nat.div_eq_of_lt ha, zero_add]
    simp [Nat.mod_eq_of_lt ha, hdiv]

theorem exists_value {m x : ℕ} {sizes : List ℕ} (hpos : ∀ s ∈ sizes, 0 < s) (hm : 0 < m)
    (hx : x < m * sizes.prod) : ∃ a < m, ∃ cs, InRange cs sizes ∧ x = a + value m sizes cs := by
  induction sizes generalizing m with
  | nil => exact ⟨x, by simpa using hx, [], List.Forall₂.nil, by simp [value]⟩
  | cons s sizes ih =>
    have hs := hpos s (by simp)
    rw [List.prod_cons, ← mul_assoc] at hx
    obtain ⟨a, ha, cs, hcs, rfl⟩ := ih (fun t ht => hpos t (by simp [ht])) (by positivity) hx
    have hdm := Nat.mod_add_div a m
    refine ⟨a % m, Nat.mod_lt a hm, a / m :: cs, List.Forall₂.cons ?_ hcs, ?_⟩
    · exact Nat.div_lt_of_lt_mul ha
    · rw [value, mul_comm (a / m)]
      omega

/-! ## Digits by position -/

/-- Place value of digit `k`. -/
def placeValue (s : ℕ → ℕ) (k : ℕ) : ℕ := ∏ i ∈ Finset.range k, s i

/-- The number with the first `k` digits of `c`. -/
def number (s c : ℕ → ℕ) (k : ℕ) : ℕ := ∑ i ∈ Finset.range k, c i * placeValue s i

variable {s c : ℕ → ℕ} {i k : ℕ}

@[simp] theorem placeValue_zero (s : ℕ → ℕ) : placeValue s 0 = 1 := rfl

theorem placeValue_succ (s : ℕ → ℕ) (k : ℕ) : placeValue s (k + 1) = placeValue s k * s k :=
  Finset.prod_range_succ _ _

@[simp] theorem number_zero (s c : ℕ → ℕ) : number s c 0 = 0 := rfl

theorem number_succ (s c : ℕ → ℕ) (k : ℕ) :
    number s c (k + 1) = number s c k + c k * placeValue s k := Finset.sum_range_succ _ _

theorem placeValue_pos (h : ∀ i < k, 0 < s i) : 0 < placeValue s k :=
  Finset.prod_pos fun i hi => h i (Finset.mem_range.mp hi)

theorem placeValue_dvd (s : ℕ → ℕ) (h : i ≤ k) : placeValue s i ∣ placeValue s k :=
  Finset.prod_dvd_prod_of_subset _ _ _ (Finset.range_subset_range.mpr h)

theorem placeValue_congr {s' : ℕ → ℕ} (h : ∀ i < k, s i = s' i) :
    placeValue s k = placeValue s' k :=
  Finset.prod_congr rfl fun i hi => h i (Finset.mem_range.mp hi)

theorem placeValue_getD (l : List ℕ) (d : ℕ) :
    placeValue (fun i => l.getD i d) l.length = l.prod := by
  induction l using List.reverseRecOn with
  | nil => rfl
  | append_singleton l x ih =>
    have hlow : placeValue (fun i => (l ++ [x]).getD i d) l.length =
        placeValue (fun i => l.getD i d) l.length :=
      placeValue_congr fun i hi => List.getD_append _ _ _ _ hi
    rw [List.length_append, List.length_singleton, placeValue_succ, hlow, ih, List.prod_append,
      List.getD_append_right _ _ _ _ le_rfl, Nat.sub_self]
    simp

theorem number_quotients (s : ℕ → ℕ) (x k : ℕ) :
    number s (fun i => x / placeValue s i % s i) k = x % placeValue s k := by
  induction k with
  | zero => rw [number_zero, placeValue_zero, Nat.mod_one]
  | succ k ih => rw [number_succ, ih, placeValue_succ, Nat.mod_mul, mul_comm (placeValue s k)]

theorem number_lt (h : ∀ i < k, c i < s i) : number s c k < placeValue s k := by
  induction k with
  | zero => exact one_pos
  | succ k ih =>
    have hlow := ih fun i hi => h i (Nat.lt_succ_of_lt hi)
    have hmul :=
      Nat.mul_le_mul_right (placeValue s k) (Nat.succ_le_of_lt (h k (Nat.lt_succ_self k)))
    rw [number_succ, placeValue_succ, mul_comm (placeValue s k)]
    rw [Nat.succ_mul] at hmul
    omega

theorem digit_number (h : ∀ i < k, c i < s i) (hi : i < k) :
    number s c k / placeValue s i % s i = c i := by
  induction k with
  | zero => omega
  | succ k ih =>
    have hpos : 0 < placeValue s i :=
      placeValue_pos fun j hj => (Nat.zero_le _).trans_lt (h j (hj.trans hi))
    rw [number_succ]
    obtain rfl | hlt := Nat.eq_or_lt_of_le (Nat.le_of_lt_succ hi)
    · have hlow := number_lt fun j hj => h j (Nat.lt_succ_of_lt hj)
      rw [Nat.add_mul_div_right _ _ hpos, Nat.div_eq_of_lt hlow, zero_add]
      exact Nat.mod_eq_of_lt (h i hi)
    · obtain ⟨q, hq⟩ := placeValue_dvd s (Nat.succ_le_of_lt hlt)
      have hsplit : c k * placeValue s k = s i * (q * c k) * placeValue s i := by
        rw [hq, placeValue_succ]
        ring
      rw [hsplit, Nat.add_mul_div_right _ _ hpos, Nat.add_mul_mod_self_left]
      exact ih (fun j hj => h j (Nat.lt_succ_of_lt hj)) hlt

theorem number_inj {c' : ℕ → ℕ} (h : ∀ i < k, c i < s i) (h' : ∀ i < k, c' i < s i)
    (heq : number s c k = number s c' k) : ∀ i < k, c i = c' i := by
  intro i hi
  rw [← digit_number h hi, heq, digit_number h' hi]

end OmniCompiler.MixedRadix
