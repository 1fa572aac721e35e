import Mathlib.Tactic

/-!
# C integer arithmetic over `ℤ`

C division truncates toward zero, so `/` and `%` are `Int.tdiv` and `Int.tmod`.
Values are exact integers: the developments over this module speak about runs in
which no signed operation overflows. Conversions between signed and unsigned
64-bit types are explicit, because a negative operand of a mixed comparison
changes the outcome without any overflow, and so are conversions to `int`.
-/
namespace OmniCompiler.MachineInt

/-- Conversion of an integer value to `unsigned long long`. -/
def toULL (x : ℤ) : ℤ := x % 2 ^ 64

/-- Conversion of an integer value to `long long`. -/
def toLL (x : ℤ) : ℤ := (x + 2 ^ 63) % 2 ^ 64 - 2 ^ 63

/-- Conversion of an integer value to `int`. -/
def toInt (x : ℤ) : ℤ := (x + 2 ^ 31) % 2 ^ 32 - 2 ^ 31

/-- Range of `int`. -/
def InInt (x : ℤ) : Prop := -2 ^ 31 ≤ x ∧ x < 2 ^ 31

instance (x : ℤ) : Decidable (InInt x) := inferInstanceAs (Decidable (_ ∧ _))

/-- Range of `long long`, `ptrdiff_t` and `intptr_t`. -/
def InLL (x : ℤ) : Prop := -2 ^ 63 ≤ x ∧ x < 2 ^ 63

instance (x : ℤ) : Decidable (InLL x) := inferInstanceAs (Decidable (_ ∧ _))

/-- Result of an `int` operation whose exact value is `x`. Nothing is known of the result of
an operation that overflows. -/
def cint (x : ℤ) : Option ℤ := if InInt x then some x else none

def cdiv (a b : ℤ) : Option ℤ := if b = 0 then none else some (a.tdiv b)

/-- The same as `cint` for `long`. -/
def clong (x : ℤ) : Option ℤ := if InLL x then some x else none

/-- The same as `cint` for values that are not negative. -/
def cnat (x : ℕ) : Option ℕ := if x < 2 ^ 31 then some x else none

theorem cnat_of_lt {x : ℕ} (h : x < 2 ^ 31) : cnat x = some x := by rw [cnat, if_pos h]

theorem cnat_of_not_lt {x : ℕ} (h : ¬ x < 2 ^ 31) : cnat x = none := by rw [cnat, if_neg h]

theorem cnat_eq_some {x y : ℕ} : cnat x = some y ↔ x < 2 ^ 31 ∧ x = y := by
  simp [cnat]

theorem cint_eq_some {x y : ℤ} : cint x = some y ↔ InInt x ∧ x = y := by
  simp [cint]

theorem cint_of_inInt {x : ℤ} (h : InInt x) : cint x = some x := if_pos h

theorem cint_of_not_inInt {x : ℤ} (h : ¬ InInt x) : cint x = none := if_neg h

theorem cdiv_of_ne_zero {a b : ℤ} (h : b ≠ 0) : cdiv a b = some (a.tdiv b) := if_neg h

theorem clong_eq_some {x y : ℤ} : clong x = some y ↔ InLL x ∧ x = y := by
  simp [clong]

theorem toInt_of_inInt {x : ℤ} (h : InInt x) : toInt x = x := by
  have := h.1
  have := h.2
  unfold toInt
  omega

theorem inInt_toInt (x : ℤ) : InInt (toInt x) := by
  unfold InInt toInt
  omega

theorem inInt_between {a b x : ℤ} (ha : InInt a) (hb : InInt b) (h : a ≤ x ∧ x ≤ b) : InInt x :=
  ⟨ha.1.trans h.1, h.2.trans_lt hb.2⟩

theorem inInt_mul_of_le {a : ℤ} {i m : ℕ} (hi : i ≤ m) (h : InInt (a * m)) : InInt (a * i) := by
  have hi' : (i : ℤ) ≤ m := by exact_mod_cast hi
  have hi0 : (0 : ℤ) ≤ i := by positivity
  obtain ⟨h0, h1⟩ := h
  rcases le_total 0 a with ha | ha
  · have := mul_le_mul_of_nonneg_left hi' ha
    have := mul_nonneg ha hi0
    constructor <;> omega
  · have := mul_le_mul_of_nonpos_left hi' ha
    have := mul_nonpos_of_nonpos_of_nonneg ha hi0
    constructor <;> omega

theorem toLL_of_inLL {x : ℤ} (h : InLL x) : toLL x = x := by
  have := h.1
  have := h.2
  unfold toLL
  omega

theorem dvd_sub_toInt (x : ℤ) : 2 ^ 32 ∣ x - toInt x := by
  unfold toInt
  omega

theorem toInt_eq_of_dvd_sub {x y : ℤ} (hy : InInt y) (h : 2 ^ 32 ∣ x - y) : toInt x = y := by
  obtain ⟨h0, h1⟩ := hy
  unfold toInt
  omega

theorem dvd_two_pow_of_le {x : ℤ} {m k : ℕ} (h : x ∣ 2 ^ m) (hx : x ≤ 2 ^ k) (h0 : 0 < x) :
    x ∣ 2 ^ k := by
  lift x to ℕ using h0.le
  have hdvd : x ∣ 2 ^ m := by exact_mod_cast h
  obtain ⟨j, -, rfl⟩ := (Nat.dvd_prime_pow Nat.prime_two).mp hdvd
  have hj : j ≤ k := (Nat.pow_le_pow_iff_right one_lt_two).mp (by exact_mod_cast hx)
  exact_mod_cast Nat.pow_dvd_pow 2 hj

/-- Between values of the same sign the unsigned comparison is the signed one. -/
theorem toULL_lt_iff {x y : ℤ} (hx : InLL x) (hy : InLL y) :
    (toULL x < toULL y ↔ x < y) ↔ (0 ≤ x ↔ 0 ≤ y) := by
  obtain ⟨hx0, hx1⟩ := hx
  obtain ⟨hy0, hy1⟩ := hy
  unfold toULL
  omega

theorem toULL_of_nonneg {x : ℤ} (h0 : 0 ≤ x) (h1 : x < 2 ^ 64) : toULL x = x :=
  Int.emod_eq_of_lt h0 h1

theorem tmod_eq_zero_iff {a b : ℤ} : a.tmod b = 0 ↔ b ∣ a :=
  ⟨Int.dvd_of_tmod_eq_zero, Int.tmod_eq_zero_of_dvd⟩

theorem tmod_nonpos {a : ℤ} (b : ℤ) (ha : a ≤ 0) : a.tmod b ≤ 0 := by
  have := Int.tmod_nonneg b (show 0 ≤ -a by omega)
  rw [Int.neg_tmod] at this
  omega

def ceilDiv (a b : ℤ) : ℤ := if a.tmod b = 0 then a.tdiv b else a.tdiv b + 1

theorem tdiv_nonpos_of_nonpos {a b : ℤ} (hb : 0 < b) (ha : a ≤ 0) : a.tdiv b ≤ 0 := by
  have := Int.tdiv_nonneg (neg_nonneg.mpr ha) hb.le
  rw [Int.neg_tdiv] at this
  omega

/-- A quotient by a positive divisor lies between zero and the dividend. -/
theorem inInt_tdiv {a b : ℤ} (hb : 0 < b) (h : InInt a) : InInt (a.tdiv b) := by
  obtain ⟨h0, h1⟩ := h
  have hdm := Int.tmod_add_tdiv_mul a b
  rcases le_total 0 a with ha | ha
  · have hr := Int.tmod_nonneg b ha
    have hq := Int.tdiv_nonneg ha hb.le
    have hle : a.tdiv b ≤ a.tdiv b * b := le_mul_of_one_le_right hq hb
    constructor <;> omega
  · have hr := tmod_nonpos b ha
    have hq := tdiv_nonpos_of_nonpos hb ha
    have hle : a.tdiv b * b ≤ a.tdiv b := by nlinarith
    constructor <;> omega

/-- The part of a number that a truncating division keeps lies between zero and the number. -/
theorem tdiv_mul_bounds {a : ℤ} (b : ℤ) (ha : 0 ≤ a) : 0 ≤ a.tdiv b * b ∧ a.tdiv b * b ≤ a := by
  have hdm := Int.tmod_add_tdiv_mul a b
  have hr := Int.tmod_nonneg b ha
  refine ⟨?_, by linarith⟩
  rcases le_total 0 b with hb | hb
  · exact mul_nonneg (Int.tdiv_nonneg ha hb) hb
  · exact mul_nonneg_of_nonpos_of_nonpos (Int.tdiv_nonpos_of_nonneg_of_nonpos ha hb) hb

theorem inInt_tdiv_mul {a b : ℤ} (h : InInt a) : InInt (a.tdiv b * b) := by
  obtain ⟨h0, h1⟩ := h
  rcases le_total 0 a with ha | ha
  · obtain ⟨h2, h3⟩ := tdiv_mul_bounds b ha
    constructor <;> omega
  · obtain ⟨h2, h3⟩ := tdiv_mul_bounds b (neg_nonneg.mpr ha)
    rw [Int.neg_tdiv, neg_mul] at h2 h3
    constructor <;> omega

theorem ceilDiv_bounds {a b : ℤ} (ha : 0 ≤ a) (hb : 0 < b) :
    a ≤ ceilDiv a b * b ∧ ceilDiv a b * b < a + b := by
  unfold ceilDiv
  have hdm := Int.tmod_add_tdiv_mul a b
  have h0 := Int.tmod_nonneg b ha
  have h1 := Int.tmod_lt_of_pos a hb
  split_ifs with h
  · constructor <;> nlinarith
  · constructor <;> nlinarith [lt_of_le_of_ne h0 (Ne.symm h)]

theorem ceilDiv_pos {a b : ℤ} (ha : 0 < a) (hb : 0 < b) : 0 < ceilDiv a b := by
  have := (ceilDiv_bounds ha.le hb).1
  by_contra hc
  nlinarith

/-- Below the rounded-up quotient means: the multiple still lies below the dividend. -/
theorem lt_ceilDiv_iff {a b q : ℤ} (ha : 0 ≤ a) (hb : 0 < b) : q < ceilDiv a b ↔ q * b < a := by
  obtain ⟨h1, h2⟩ := ceilDiv_bounds ha hb
  constructor
  · intro h
    nlinarith
  · intro h
    by_contra hc
    nlinarith

theorem dvd_sub_tmod (a b : ℤ) : b ∣ a - a.tmod b :=
  ⟨a.tdiv b, by have := Int.tmod_add_tdiv_mul a b; linarith⟩

/-- Rounding the bound `b` of an increasing loop from `a` to a value of the loop. Where
the loop is empty, the truncating remainder is not positive and rounds upward, which
reaches `a` itself when `b` is less than one step away. -/
theorem le_sub_tmod_iff {a b s x : ℤ} (hs : 0 < s) :
    (a ≤ x ∧ x ≤ b - (b - a).tmod s ∧ s ∣ x - a) ↔
      (a ≤ x ∧ x ≤ b ∧ s ∣ x - a) ∨ (b < a ∧ a - b < s ∧ x = a) := by
  have hd := dvd_sub_tmod (b - a) s
  have hlt := Int.tmod_lt_of_pos (b - a) hs
  have hgt := Int.lt_tmod_of_pos (b - a) hs
  set r := (b - a).tmod s with hr
  by_cases hne : a ≤ b
  · have h0 : 0 ≤ r := Int.tmod_nonneg _ (by omega)
    constructor
    · rintro ⟨h1, h2, h3⟩
      exact Or.inl ⟨h1, by omega, h3⟩
    · rintro (⟨h1, h2, h3⟩ | ⟨h1, -⟩)
      · refine ⟨h1, ?_, h3⟩
        by_contra hc
        have := Int.le_of_dvd (by omega) (dvd_sub h3 hd)
        omega
      · omega
  · have h0 : r ≤ 0 := tmod_nonpos _ (by omega)
    have hle : b - r ≤ a := by
      by_contra hc
      have := Int.le_of_dvd (by omega) hd
      omega
    constructor
    · rintro ⟨h1, h2, -⟩
      exact Or.inr ⟨by omega, by omega, by omega⟩
    · rintro (⟨h1, h2, -⟩ | ⟨-, h2, rfl⟩)
      · omega
      · refine ⟨le_rfl, ?_, by simp⟩
        by_contra hc
        have hd' := (Int.dvd_neg.mpr hd)
        have := Int.le_of_dvd (by omega) hd'
        omega

end OmniCompiler.MachineInt
