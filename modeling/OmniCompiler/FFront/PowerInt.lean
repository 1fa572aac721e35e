import OmniCompiler.Arithmetic.MachineInt
import Mathlib.Data.Int.ModEq

/-!
# Integer powers (`power_ii` in `F-opt-expv.c`)

`power_ii` squares and multiplies in 64-bit arithmetic. Its result is the Fortran power whenever
that fits in 64 bits.
-/
namespace OmniCompiler.FFront

open MachineInt

/-- The loop of `power_ii`. -/
def powerLoop (u : ℕ) (x pow : ℤ) : ℤ :=
  let pow := if u % 2 = 1 then toLL (pow * x) else pow
  if u / 2 ≠ 0 then powerLoop (u / 2) (toLL (x * x)) pow else pow
termination_by u
decreasing_by omega

def powerII (x n : ℤ) : ℤ :=
  if n ≤ 0 then
    if n = 0 ∨ x = 1 then 1
    else if x ≠ -1 then if x = 0 then Int.tdiv 1 x else 0
    else powerLoop (toULL (toLL (-n))).toNat x 1
  else powerLoop (toULL n).toNat x 1

/-- The Fortran power of integers. It is not defined for the base zero and a negative exponent. -/
def intPower (x n : ℤ) : Option ℤ :=
  if 0 ≤ n then some (x ^ n.toNat)
  else if x = 0 then none
  else some (Int.tdiv 1 (x ^ (-n).toNat))

theorem toLL_modEq (x : ℤ) : toLL x ≡ x [ZMOD 2 ^ 64] := by
  rw [toLL, Int.ModEq]
  omega

theorem toLL_eq_iff {x y : ℤ} : toLL x = toLL y ↔ x ≡ y [ZMOD 2 ^ 64] := by
  rw [toLL, toLL, Int.ModEq]
  omega

theorem inLL_toLL (x : ℤ) : InLL (toLL x) := by
  rw [InLL, toLL]
  omega

theorem powerLoop_eq {u : ℕ} (hu : 0 < u) (x pow : ℤ) : powerLoop u x pow = toLL (pow * x ^ u) := by
  induction u using Nat.strong_induction_on generalizing x pow with
  | _ u ih =>
    have hbits : u = 2 * (u / 2) + u % 2 := (Nat.div_add_mod u 2).symm
    rw [powerLoop]
    by_cases hlast : u / 2 = 0
    · have hone : u = 1 := by omega
      subst hone
      simp
    · rw [if_pos hlast, ih (u / 2) (by omega) (by omega), toLL_eq_iff]
      have hsquare : toLL (x * x) ^ (u / 2) ≡ x ^ (2 * (u / 2)) [ZMOD 2 ^ 64] := by
        rw [pow_mul, pow_two]
        exact (toLL_modEq _).pow _
      obtain hodd | heven := Nat.mod_two_eq_zero_or_one u
      · rw [if_neg (by omega)]
        nth_rewrite 2 [hbits]
        rw [hodd, Nat.add_zero]
        exact hsquare.mul_left pow
      · rw [if_pos heven]
        nth_rewrite 2 [hbits]
        have hsucc : pow * x ^ (2 * (u / 2) + 1) = pow * x * x ^ (2 * (u / 2)) := by ring
        rw [heven, hsucc]
        exact (toLL_modEq _).mul hsquare

theorem inLL_powerII (x n : ℤ) : InLL (powerII x n) := by
  have hloop : ∀ u : ℕ, InLL (powerLoop u x 1) := by
    intro u
    obtain rfl | hu := Nat.eq_zero_or_pos u
    · have hzero : powerLoop 0 x 1 = 1 := by simp [powerLoop]
      rw [hzero]
      decide
    · rw [powerLoop_eq hu]
      exact inLL_toLL _
  rw [powerII]
  split_ifs with _ _ _ hx
  · decide
  · rw [hx]
    decide
  · decide
  · exact hloop _
  · exact hloop _

theorem one_tdiv_of_natAbs {b : ℤ} (h : 1 < b.natAbs) : Int.tdiv 1 b = 0 := by
  obtain hb | hb := le_or_gt 0 b
  · exact Int.tdiv_eq_zero_of_lt (by decide) (by omega)
  · rw [← neg_neg b, Int.tdiv_neg, Int.tdiv_eq_zero_of_lt (by decide) (by omega), neg_zero]

theorem powerII_eq {x n c : ℤ} (hx : x ≠ 0) (hn : InLL n) (h : intPower x n = some c) :
    powerII x n = toLL c := by
  obtain ⟨hlo, hhi⟩ := hn
  rw [intPower] at h
  rw [powerII]
  split_ifs at h with hpos
  · cases h
    split_ifs with hle hone hneg
    · obtain rfl : n = 0 := by omega
      rw [Int.toNat_zero, pow_zero]
      rfl
    · omega
    · omega
    · have hu : toULL n = n := by
        unfold toULL
        omega
      rw [hu, powerLoop_eq (by omega), one_mul]
  · cases h
    rw [if_pos (by omega)]
    by_cases hx1 : x = 1
    · subst hx1
      rw [if_pos (Or.inr rfl), one_pow]
      rfl
    · rw [if_neg (by omega)]
      by_cases hxm : x = -1
      · subst hxm
        have hu : (toULL (toLL (-n))).toNat = (-n).toNat := by
          unfold toULL toLL
          omega
        rw [if_neg (by simp), hu, powerLoop_eq (by omega), one_mul]
        obtain he | he := neg_one_pow_eq_or ℤ (-n).toNat
        · rw [he]
          rfl
        · rw [he]
          rfl
      · rw [if_pos hxm, if_neg hx]
        have hbig : 1 < (x ^ (-n).toNat).natAbs := by
          rw [Int.natAbs_pow]
          exact Nat.one_lt_pow (by omega) (by omega)
        rw [one_tdiv_of_natAbs hbig]
        rfl

theorem intPower_neg {x n : ℤ} (hx : x ≠ 0) (hn : n < 0) : intPower x n =
    some (if x = 1 then 1 else if x = -1 then if n % 2 = 0 then 1 else -1 else 0) := by
  rw [intPower, if_neg (by omega), if_neg hx]
  congr 1
  split_ifs with hone hminus heven
  · rw [hone, one_pow]
    rfl
  · have hpow : (-1 : ℤ) ^ (-n).toNat = 1 := Even.neg_one_pow (Nat.even_iff.mpr (by omega))
    rw [hminus, hpow]
    rfl
  · have hpow : (-1 : ℤ) ^ (-n).toNat = -1 := Odd.neg_one_pow (Nat.odd_iff.mpr (by omega))
    rw [hminus, hpow]
    rfl
  · apply one_tdiv_of_natAbs
    rw [Int.natAbs_pow]
    exact Nat.one_lt_pow (by omega) (by omega)

/-- For all 64-bit integers, with a base that is not zero: a power modulo `2 ^ 64`, and the Fortran
value for a negative exponent, `-2 ^ 63` included. -/
theorem powerII_correct {x n : ℤ} (hx : x ≠ 0) (hn : InLL n) : InLL (powerII x n) ∧
    (0 ≤ n → powerII x n ≡ x ^ n.toNat [ZMOD 2 ^ 64]) ∧
    (n < 0 → intPower x n = some (powerII x n) ∧ powerII x n =
      if x = 1 then 1 else if x = -1 then if n % 2 = 0 then 1 else -1 else 0) := by
  refine ⟨inLL_powerII x n, ?_, ?_⟩
  · intro hpos
    have hpower : intPower x n = some (x ^ n.toNat) := if_pos hpos
    rw [powerII_eq hx hn hpower]
    exact toLL_modEq _
  · intro hneg
    have hpower := intPower_neg hx hneg
    have hvalue := powerII_eq hx hn hpower
    have hsmall : ∀ c : ℤ, c = 1 ∨ c = -1 ∨ c = 0 → toLL c = c := by
      intro c hc
      obtain rfl | rfl | rfl := hc <;> rfl
    rw [hsmall _ (by split_ifs <;> simp)] at hvalue
    rw [hpower, hvalue]
    exact ⟨rfl, rfl⟩

theorem powerII_correct_min : powerII (-1) (-2 ^ 63) = 1 := by
  have hall := powerII_correct (by decide : (-1 : ℤ) ≠ 0) (by decide : InLL (-2 ^ 63))
  have hmin := hall.2.2 (by decide)
  rw [hmin.2]
  decide

end OmniCompiler.FFront
