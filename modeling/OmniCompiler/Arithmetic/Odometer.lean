import OmniCompiler.Arithmetic.Box

/-!
# An odometer

A loop over digits whose last one runs fastest: one is added to the last digit, and a digit that
reaches its limit starts again and hands a carry to the digit before it. The loop ends with the
carry out of the first digit. Counting tells which digits the loop has at each step.
-/
namespace OmniCompiler.MixedRadix

/-- The digits of `v`, the last one running fastest. -/
def odometer : List ℕ → ℕ → List ℕ
  | [], _ => []
  | _ :: sizes, v => v / sizes.prod :: odometer sizes (v % sizes.prod)

def carryInto (n i : ℕ) : Bool × List ℕ → Bool × List ℕ
  | (false, is) => (false, i :: is)
  | (true, is) => if i + 1 ≥ n then (true, (i + 1 - n) :: is) else (false, (i + 1) :: is)

def increment : List ℕ → List ℕ → Bool × List ℕ
  | n :: sizes, i :: is => carryInto n i (increment sizes is)
  | _, _ => (true, [])

def odometerLoop {σ : Type*} (step : List ℕ → σ → Option σ) (sizes : List ℕ) :
    ℕ → List ℕ → σ → Option σ
  | 0, _, _ => none
  | fuel + 1, is, s => (step is s).bind fun s' =>
      if (increment sizes is).1 then some s'
      else odometerLoop step sizes fuel (increment sizes is).2 s'

theorem odometer_zero (sizes : List ℕ) : odometer sizes 0 = List.replicate sizes.length 0 := by
  induction sizes with
  | nil => rfl
  | cons n sizes ih =>
    rw [odometer, Nat.zero_div, Nat.zero_mod, ih]
    rfl

theorem increment_odometer {sizes : List ℕ} {v : ℕ} (hv : v < sizes.prod) :
    increment sizes (odometer sizes v) =
      if v + 1 = sizes.prod then (true, odometer sizes 0) else (false, odometer sizes (v + 1)) := by
  induction sizes generalizing v with
  | nil =>
    rw [List.prod_nil] at hv
    rw [List.prod_nil, if_pos (by omega)]
    rfl
  | cons n sizes ih =>
    rw [List.prod_cons] at hv ⊢
    have hpos : 0 < sizes.prod := Nat.pos_of_mul_pos_left (Nat.zero_lt_of_lt hv)
    have hdigit : v / sizes.prod < n := (Nat.div_lt_iff_lt_mul hpos).mpr hv
    have hsplit := Nat.div_add_mod v sizes.prod
    have hrest := Nat.mod_lt v hpos
    rw [odometer, increment, ih hrest]
    generalize v / sizes.prod = q at *
    generalize v % sizes.prod = r at *
    subst hsplit
    by_cases hr : r + 1 = sizes.prod
    · have hnext : sizes.prod * q + r + 1 = sizes.prod * (q + 1) := by rw [mul_add_one]; omega
      rw [if_pos hr, carryInto, hnext]
      by_cases hq : q + 1 = n
      · subst hq
        rw [if_pos le_rfl, if_pos (mul_comm _ _), Nat.sub_self, odometer, Nat.zero_div,
          Nat.zero_mod]
      · have hne : ¬sizes.prod * (q + 1) = n * sizes.prod := by
          intro heq
          exact hq (Nat.eq_of_mul_eq_mul_left hpos (heq.trans (mul_comm _ _)))
        rw [if_neg (by omega), if_neg hne, odometer, Nat.mul_div_cancel_left _ hpos,
          Nat.mul_mod_right]
    · have hr' : r + 1 < sizes.prod := by omega
      have hne : ¬sizes.prod * q + r + 1 = n * sizes.prod := by
        have hle := Nat.mul_le_mul_left sizes.prod (Nat.succ_le_of_lt hdigit)
        rw [Nat.mul_succ, mul_comm sizes.prod n] at hle
        omega
      rw [if_neg hr, carryInto, if_neg hne, odometer, add_assoc, Nat.mul_add_div hpos,
        Nat.div_eq_of_lt hr', add_zero, Nat.mul_add_mod, Nat.mod_eq_of_lt hr']

theorem odometerLoop_from {σ : Type*} (step : List ℕ → σ → Option σ) {sizes : List ℕ} (n fuel : ℕ)
    {v : ℕ} (hv : v + (n + 1) = sizes.prod) (hfuel : n < fuel) (s : σ) :
    odometerLoop step sizes fuel (odometer sizes v) s =
      (List.range' v (n + 1)).foldlM (fun s w => step (odometer sizes w) s) s := by
  induction n generalizing v fuel s with
  | zero =>
    obtain ⟨fuel, rfl⟩ := Nat.exists_eq_succ_of_ne_zero (Nat.ne_of_gt hfuel)
    rw [odometerLoop, increment_odometer (by omega), if_pos (by omega), List.range'_one,
      List.foldlM_cons]
    rfl
  | succ n ih =>
    obtain ⟨fuel, rfl⟩ := Nat.exists_eq_succ_of_ne_zero (Nat.ne_of_gt (Nat.zero_lt_of_lt hfuel))
    rw [odometerLoop, increment_odometer (by omega), if_neg (by omega), List.range'_succ,
      List.foldlM_cons]
    congr 1
    funext s'
    exact ih fuel (by omega) (by omega) s'

/-- From the digits zero on the loop runs through all digits, and ends. -/
theorem odometerLoop_eq {σ : Type*} (step : List ℕ → σ → Option σ) {sizes : List ℕ} {fuel : ℕ}
    (hpos : 0 < sizes.prod) (hfuel : sizes.prod ≤ fuel) (s : σ) :
    odometerLoop step sizes fuel (List.replicate sizes.length 0) s =
      ((List.range sizes.prod).map (odometer sizes)).foldlM (fun s is => step is s) s := by
  rw [← odometer_zero, odometerLoop_from step (sizes.prod - 1) fuel (by omega) (by omega),
    Nat.sub_add_cancel hpos, ← List.range_eq_range', List.foldlM_map]

theorem map_odometer_cons (n : ℕ) (sizes : List ℕ) :
    (List.range (n :: sizes).prod).map (odometer (n :: sizes)) =
      (List.range n).flatMap fun i =>
        ((List.range sizes.prod).map (odometer sizes)).map (i :: ·) := by
  rw [List.prod_cons, mul_comm, range_mul, List.map_flatMap]
  apply List.flatMap_congr
  intro i _
  rw [List.map_map, List.map_map]
  apply List.map_congr_left
  intro x hx
  have hx' : x < sizes.prod := List.mem_range.mp hx
  have hpos := Nat.zero_lt_of_lt hx'
  rw [Function.comp_apply, Function.comp_apply, odometer, mul_comm, Nat.mul_add_div hpos,
    Nat.div_eq_of_lt hx', add_zero, Nat.mul_add_mod, Nat.mod_eq_of_lt hx']

end OmniCompiler.MixedRadix
