import OmniCompiler.Arithmetic.MachineInt

/-!
# Integer functions of the runtime (`xmp_math_function.c`)

`ceili` and `floori` repair the truncating division for a negative dividend;
`gcd` is Euclid's algorithm on truncating remainders. Each gets one specification
lemma on the arguments the runtime passes.
-/
namespace OmniCompiler.Xmp

open MachineInt

def modi (value cycle : ℤ) : ℤ :=
  let mod := value.tmod cycle
  if mod < 0 then (mod + cycle).tmod cycle else mod

def ceili (a b : ℤ) : ℤ :=
  let div := a.tdiv b
  if a < 0 ∨ b < 0 then div
  else if a.tmod b = 0 then div else div + 1

def floori (a b : ℤ) : ℤ :=
  let div := a.tdiv b
  if a < 0 ∨ b < 0 then
    if a.tmod b = 0 then div else div - 1
  else div

/-- The recursion of `_XMP_gcd`; the second argument shrinks in every call. -/
def gcdAux : ℕ → ℤ → ℤ → ℤ
  | 0, _, b => b
  | fuel + 1, a, b =>
    let r := a.tmod b
    if r = 0 then b else gcdAux fuel b r

def gcd (a b : ℤ) : ℤ := gcdAux b.natAbs a b

/-- `_XMP_lcm`, whose product is an `int`. -/
def lcm (a b : ℤ) : ℤ := (toInt (a * b)).tdiv (gcd a b)

def countTriplet (lower upper stride : ℤ) : ℤ := (upper - lower).tdiv stride + 1

theorem le_floori_iff {a b x : ℤ} (hb : 0 < b) : x ≤ floori a b ↔ x * b ≤ a := by
  have hdm := Int.tmod_add_tdiv_mul a b
  have hlt := Int.tmod_lt_of_pos a hb
  have hgt := Int.lt_tmod_of_pos a hb
  unfold floori
  by_cases ha : a < 0
  · have hneg := tmod_nonpos b ha.le
    simp only [ha, true_or, if_true]
    split_ifs with h
    · constructor <;> intro hx <;> nlinarith
    · have hneg' : a.tmod b < 0 := lt_of_le_of_ne hneg h
      constructor <;> intro hx
      · nlinarith
      · by_contra hc
        nlinarith
  · have hnn := Int.tmod_nonneg b (show 0 ≤ a by omega)
    simp only [ha, not_lt.mpr hb.le, or_self, if_false]
    constructor <;> intro hx
    · nlinarith
    · by_contra hc
      nlinarith

theorem ceili_le_iff {a b x : ℤ} (hb : 0 < b) : ceili a b ≤ x ↔ a ≤ x * b := by
  have hdm := Int.tmod_add_tdiv_mul a b
  have hlt := Int.tmod_lt_of_pos a hb
  have hgt := Int.lt_tmod_of_pos a hb
  unfold ceili
  by_cases ha : a < 0
  · have hneg := tmod_nonpos b ha.le
    simp only [ha, true_or, if_true]
    constructor <;> intro hx
    · nlinarith
    · by_contra hc
      nlinarith
  · have hnn := Int.tmod_nonneg b (show 0 ≤ a by omega)
    simp only [ha, not_lt.mpr hb.le, or_self, if_false]
    split_ifs with h
    · constructor <;> intro hx <;> nlinarith
    · have hpos : 0 < a.tmod b := lt_of_le_of_ne hnn (Ne.symm h)
      constructor <;> intro hx
      · nlinarith
      · by_contra hc
        nlinarith

theorem gcdAux_eq (fuel : ℕ) : ∀ a b : ℤ, 0 < a → 0 < b → b ≤ fuel →
    gcdAux fuel a b = Int.gcd a b := by
  induction fuel with
  | zero => intro a b _ hb hf; push_cast at hf; omega
  | succ fuel ih =>
    intro a b ha hb hf
    have hr : a.tmod b = a % b := Int.tmod_eq_emod_of_nonneg ha.le
    have hr0 := Int.emod_nonneg a hb.ne'
    have hr1 := Int.emod_lt_of_pos a hb
    simp only [gcdAux, hr]
    split_ifs with h
    · have hd : b ∣ a := Int.dvd_of_emod_eq_zero h
      rw [Int.gcd_comm, Int.gcd_eq_left hb.le hd]
    · rw [ih b (a % b) hb (by omega) (by push_cast at hf; omega)]
      rw [Int.gcd_comm b, Int.gcd_emod]

theorem gcd_eq {a b : ℤ} (ha : 0 < a) (hb : 0 < b) : gcd a b = Int.gcd a b :=
  gcdAux_eq _ a b ha hb (by omega)

theorem lcm_eq {a b : ℤ} (ha : 0 < a) (hb : 0 < b) (hab : InInt (a * b)) :
    lcm a b = Int.lcm a b := by
  unfold lcm
  rw [gcd_eq ha hb, toInt_of_inInt hab]
  have hg : (0 : ℤ) < Int.gcd a b := by exact_mod_cast Int.gcd_pos_of_ne_zero_left b ha.ne'
  have hm : (Int.gcd a b : ℤ) * Int.lcm a b = a * b := by
    have h : ((Int.gcd a b * Int.lcm a b : ℕ) : ℤ) = (a.natAbs * b.natAbs : ℕ) := by
      rw [Int.gcd_mul_lcm]
    push_cast at h
    rwa [abs_of_pos ha, abs_of_pos hb] at h
  rw [← hm, Int.mul_tdiv_cancel_left _ hg.ne']

theorem lcm_pos {a b : ℤ} (ha : 0 < a) (hb : 0 < b) (hab : InInt (a * b)) : 0 < lcm a b := by
  rw [lcm_eq ha hb hab]
  exact_mod_cast Int.lcm_pos ha.ne' hb.ne'

theorem gcdAux_natAbs (fuel : ℕ) : ∀ a b : ℤ, b ≠ 0 → b.natAbs ≤ fuel →
    (gcdAux fuel a b).natAbs = Int.gcd a b := by
  induction fuel with
  | zero => intro a b hb hf; omega
  | succ fuel ih =>
    intro a b hb hf
    have hlt : (a.tmod b).natAbs < b.natAbs := by
      rw [Int.natAbs_tmod]
      exact Nat.mod_lt _ (Int.natAbs_pos.mpr hb)
    simp only [gcdAux]
    split_ifs with h
    · rw [Int.gcd_comm, Int.gcd_eq_natAbs_left_iff_dvd.mpr (Int.dvd_of_tmod_eq_zero h)]
    · rw [ih b (a.tmod b) h (by omega), Int.tmod_def, Int.gcd_sub_mul_left_right, Int.gcd_comm]

theorem lcm_natAbs {a b : ℤ} (hb : b ≠ 0) (hab : InInt (a * b)) :
    (lcm a b).natAbs = Int.lcm a b := by
  have hgcd : (gcd a b).natAbs = Int.gcd a b := gcdAux_natAbs _ a b hb le_rfl
  unfold lcm
  rw [toInt_of_inInt hab, Int.natAbs_tdiv, hgcd, Int.natAbs_mul]
  rfl

/-- For a negative argument the sign is that of `_XMP_gcd`, whose last remainder may be negative. -/
theorem lcm_pos_iff {a b : ℤ} (ha : a ≠ 0) (hb : 0 < b) (hab : InInt (a * b)) :
    0 < lcm a b ↔ 0 < a ∨ gcd a b < 0 := by
  rcases lt_or_gt_of_ne ha with hneg | hpos
  · have hdvd : gcd a b ∣ a * b := by
      rw [← Int.natAbs_dvd, show (gcd a b).natAbs = Int.gcd a b from
        gcdAux_natAbs _ a b hb.ne' le_rfl]
      exact Dvd.dvd.mul_right (Int.gcd_dvd_left ..) b
    have hmul : lcm a b * gcd a b = a * b := by
      rw [lcm, toInt_of_inInt hab, Int.tdiv_mul_cancel hdvd]
    have hprod : a * b < 0 := mul_neg_of_neg_of_pos hneg hb
    constructor
    · intro h
      refine Or.inr ?_
      by_contra hc
      nlinarith
    · rintro (h | h)
      · omega
      · by_contra hc
        nlinarith
  · exact iff_of_true (lcm_pos hpos hb hab) (Or.inl hpos)

/-- Divisibility by the runtime's `lcm` is divisibility by both arguments. -/
theorem lcm_dvd_iff {a b x : ℤ} (hb : 0 < b) (hab : InInt (a * b)) :
    lcm a b ∣ x ↔ a ∣ x ∧ b ∣ x := by
  rw [← Int.natAbs_dvd, lcm_natAbs hb.ne' hab, Int.coe_lcm_dvd_iff]

end OmniCompiler.Xmp
