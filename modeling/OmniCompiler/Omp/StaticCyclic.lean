import OmniCompiler.Omp.StaticBlock

/-!
# Static cyclic schedule of a work-sharing loop (`ompc_runtime.c`)

Each thread starts at its own iteration and advances by the whole team. The
number of iterations is computed only to find the thread that runs the last
one; the bound offset of Fortran loops is added to the bound whatever the
direction of the loop, so it is counted the wrong way in decreasing loops.
-/
namespace OmniCompiler.Omp

open MachineInt ForLoop Chunking

def staticCschedTid (tp : OmpThread) (lb up ubofs step : ℤ) : Option (OmpThread × ℤ × ℤ) :=
  let nThd : ℤ := getNumThreads tp
  if getNumThreads tp = 1 then some (tp, lb, step)
  else do
    let ee ← clong (up + ubofs)
    let dist ← clong (ee - lb)
    let sum ← clong (dist + step)
    let sum ← clong (if 0 < step then sum - 1 else sum + 1)
    let n ← clong (sum.tdiv step)
    let n := toInt n
    let ofs ← cint (tp.num * step)
    let b ← clong (lb + ofs)
    let stride ← cint (step * nThd)
    some ({ tp with isLast := decide (0 < n ∧ (n - 1).tmod nThd = tp.num) }, b, stride)

/-- The loops of the threads share out the serial loop, and `is_last` is set where the last
iteration runs. -/
def CyclicScheduled (n : ℕ) (team : ℕ → OmpThread) (lb up ubofs step : ℤ) : Prop :=
  ∃ out : ℕ → OmpThread × ℤ × ℤ,
    (∀ id < n, staticCschedTid (team id) lb up ubofs step = some (out id)) ∧
    ((List.range n).flatMap fun id => serialLoop ubofs (out id).2.1 up (out id).2.2).Perm
      (serialLoop ubofs lb up step) ∧
    ∀ id < n, (out id).1.isLast = true ↔ ∃ x, (serialLoop ubofs lb up step).getLast? = some x ∧
      x ∈ serialLoop ubofs (out id).2.1 up (out id).2.2

/-- The distance to the bound, prepared for the division that rounds away from zero. -/
def roundedDist (lb up ubofs step : ℤ) : ℤ :=
  if 0 < step then up + ubofs - lb + step - 1 else up + ubofs - lb + step + 1

/-- No operation on indices or steps overflows. -/
structure CyclicFits (lb up ubofs step : ℤ) (n : ℕ) : Prop where
  inLL_bound : InLL (up + ubofs)
  inLL_dist : InLL (up + ubofs - lb)
  inLL_sum : InLL (up + ubofs - lb + step)
  inLL_rounded : InLL (roundedDist lb up ubofs step)
  inLL_quotient : InLL ((roundedDist lb up ubofs step).tdiv step)
  inLL_start : ∀ id < n, InLL (lb + id * step)
  inInt_stride : InInt (step * n)

/-- Where the offset added to the bound does not move the last iteration to another thread. -/
def OffsetHarmless (lb up ubofs step : ℤ) (n : ℕ) : Prop :=
  0 < step ∨ ubofs = 0 ∨ lb < up ∨
    (up + 2 ≤ lb ∧ if step = -1 then n = 2 else 2 ≤ (lb - up) % step)

instance (lb up ubofs step : ℤ) (n : ℕ) : Decidable (OffsetHarmless lb up ubofs step n) :=
  inferInstanceAs (Decidable (_ ∨ _ ∨ _ ∨ (_ ∧ ite _ _ _)))

/-- What the rounding leaves of the steps by which a loop starts past its bound. -/
def stepsPast (lb bound step : ℤ) : ℕ :=
  (1 - reach lb bound step - step.natAbs).toNat / step.natAbs

/-- Where the number of iterations still names the last thread after it is cut to an `int`. -/
def CutHarmless (lb up ubofs step : ℤ) (n : ℕ) : Prop :=
  if 0 < loopCount lb (up + ubofs) step then
    0 < loopCount lb (up + ubofs) step % 2 ^ 32 ∧
      loopCount lb (up + ubofs) step % 2 ^ 32 < 2 ^ 31 ∧
      (n : ℤ) ∣ loopCount lb (loopBound ubofs up step) step -
        (loopCount lb (up + ubofs) step % 2 ^ 32 : ℕ)
  else stepsPast lb (up + ubofs) step % 2 ^ 32 ≤ 2 ^ 31

/-- Where the thread that is marked is the last one. -/
def MarksLast (lb up ubofs step : ℤ) (n : ℕ) : Prop :=
  if loopCount lb (up + ubofs) step < 2 ^ 31 ∧ stepsPast lb (up + ubofs) step ≤ 2 ^ 31 then
    OffsetHarmless lb up ubofs step n
  else CutHarmless lb up ubofs step n

variable {lb up ubofs step bound : ℤ} {n id : ℕ} {team : ℕ → OmpThread}

def countedIters (lb up ubofs step : ℤ) : ℤ := toInt ((roundedDist lb up ubofs step).tdiv step)

def cyclicThread (tp : OmpThread) (lb up ubofs step : ℤ) (n id : ℕ) : OmpThread × ℤ × ℤ :=
  ({ tp with
      isLast := decide (0 < countedIters lb up ubofs step ∧
        (countedIters lb up ubofs step - 1).tmod n = id) },
    lb + id * step, step * n)

theorem staticCschedTid_eq_some_iff (hteam : IsTeam n team) (hn : 2 ≤ n) (hid : id < n)
    (out : OmpThread × ℤ × ℤ) :
    staticCschedTid (team id) lb up ubofs step = some out ↔
      (InLL (up + ubofs) ∧ InLL (up + ubofs - lb) ∧ InLL (up + ubofs - lb + step) ∧
        InLL (roundedDist lb up ubofs step) ∧ InLL ((roundedDist lb up ubofs step).tdiv step) ∧
        InLL (lb + id * step) ∧ InInt (step * n)) ∧
      out = cyclicThread (team id) lb up ubofs step n id := by
  obtain ⟨hnum, hpar⟩ := hteam id hid
  have hn1 : ¬ n = 1 := by omega
  simp only [staticCschedTid, getNumThreads, hpar, Option.getD_some, hn1, if_false, hnum,
    Option.bind_eq_bind, Option.bind_eq_some_iff, clong_eq_some, cint_eq_some]
  constructor
  · rintro ⟨_, ⟨h1, rfl⟩, _, ⟨h2, rfl⟩, _, ⟨h3, rfl⟩, _, ⟨h4, rfl⟩, _, ⟨h5, rfl⟩, _, ⟨-, rfl⟩, _,
      ⟨h7, rfl⟩, _, ⟨h8, rfl⟩, hout⟩
    refine ⟨⟨h1, h2, h3, h4, h5, h7, h8⟩, (Option.some_inj.mp hout).symm.trans ?_⟩
    simp only [cyclicThread, countedIters, roundedDist, hnum, hpar]
    congr 1
  · rintro ⟨⟨h1, h2, h3, h4, h5, h7, h8⟩, rfl⟩
    have hofs : InInt (id * step) := by
      rw [mul_comm]
      exact inInt_mul_of_le hid.le h8
    refine ⟨_, ⟨h1, rfl⟩, _, ⟨h2, rfl⟩, _, ⟨h3, rfl⟩, _, ⟨h4, rfl⟩, _, ⟨h5, rfl⟩, _, ⟨hofs, rfl⟩, _,
      ⟨h7, rfl⟩, _, ⟨h8, rfl⟩, ?_⟩
    simp only [cyclicThread, countedIters, roundedDist, hnum, hpar]
    congr 1

/-! ## The threads take the iterations in turn -/

theorem loopBound_mul (hn : 0 < n) : loopBound ubofs up (step * n) = loopBound ubofs up step := by
  have hpos : 0 < step * (n : ℤ) ↔ 0 < step := mul_pos_iff_of_pos_right (by exact_mod_cast hn)
  unfold loopBound
  simp only [hpos]

/-- The iterations of thread `id` are every `n`-th one of the serial loop. -/
theorem loopValues_turn (hn : 0 < n) (hs : step ≠ 0) (id : ℕ) :
    loopValues (lb + id * step) bound (step * n) =
      (List.range (loopCount lb bound step)).flatMap fun j : ℕ =>
        if id + n * j < loopCount lb bound step then [lb + (id + n * j : ℕ) * step] else [] := by
  have hne : step * (n : ℤ) ≠ 0 := mul_ne_zero hs (by exact_mod_cast hn.ne')
  have hpos : 0 < step * (n : ℤ) ↔ 0 < step := mul_pos_iff_of_pos_right (by exact_mod_cast hn)
  have habs : ((step * n).natAbs : ℤ) = n * step.natAbs := by
    rw [Int.natAbs_mul, Int.natAbs_natCast, Nat.cast_mul, mul_comm]
  have hlt : ∀ j, j < loopCount (lb + id * step) bound (step * n) ↔
      id + n * j < loopCount lb bound step := by
    intro j
    rw [lt_loopCount_iff hne, lt_loopCount_iff hs, habs, reach, reach]
    simp only [hpos]
    push_cast
    split_ifs with h
    · rw [abs_of_pos h]
      constructor
      · intro h'
        linarith
      · intro h'
        linarith
    · rw [abs_of_nonpos (by omega)]
      constructor
      · intro h'
        linarith
      · intro h'
        linarith
  have hle : loopCount (lb + id * step) bound (step * n) ≤ loopCount lb bound step := by
    by_contra hc
    have h := (hlt _).mp (not_le.mp hc)
    have : loopCount lb bound step ≤ n * loopCount lb bound step := Nat.le_mul_of_pos_left _ hn
    omega
  rw [loopValues_eq_map hne]
  simp only [← hlt]
  rw [flatMap_range_cut (fun j : ℕ => [lb + (id + n * j : ℕ) * step]) hle,
    ← List.flatMap_pure_eq_map]
  apply List.flatMap_congr
  intro j _
  simp only [List.pure_def, Function.comp_apply, List.cons.injEq, and_true]
  push_cast
  ring

theorem cyclic_perm (hn : 0 < n) (hs : step ≠ 0) :
    ((List.range n).flatMap fun id : ℕ => loopValues (lb + id * step) bound (step * n)).Perm
      (loopValues lb bound step) := by
  have hdeal := flatMap_rounds_perm (fun m : ℕ =>
    if m < loopCount lb bound step then [lb + (m : ℤ) * step] else []) n (loopCount lb bound step)
  have hle : loopCount lb bound step ≤ n * loopCount lb bound step := Nat.le_mul_of_pos_left _ hn
  rw [flatMap_range_cut (fun m : ℕ => [lb + (m : ℤ) * step]) hle] at hdeal
  have hserial : ((List.range (loopCount lb bound step)).flatMap fun m : ℕ =>
      [lb + (m : ℤ) * step]) = loopValues lb bound step := by
    rw [loopValues_eq_map hs, ← List.flatMap_pure_eq_map]
    rfl
  rw [hserial] at hdeal
  simp only [loopValues_turn hn hs]
  exact hdeal

/-- The last iteration belongs to the thread of its number modulo the team size. -/
theorem last_mem_turn_iff (hn : 0 < n) (hs : step ≠ 0) (hid : id < n) :
    (∃ x, (loopValues lb bound step).getLast? = some x ∧
        x ∈ loopValues (lb + id * step) bound (step * n)) ↔
      0 < loopCount lb bound step ∧ (loopCount lb bound step - 1) % n = id := by
  rw [loopValues_turn hn hs, loopValues_eq_map hs]
  generalize loopCount lb bound step = K
  cases K with
  | zero => simp
  | succ k =>
    rw [List.range_succ, List.map_append, List.map_singleton, List.getLast?_concat]
    simp only [Option.some.injEq, exists_eq_left', Nat.succ_pos, true_and, Nat.add_sub_cancel,
      List.mem_flatMap, List.mem_append, List.mem_range, List.mem_singleton]
    constructor
    · rintro ⟨j, -, hj⟩
      split_ifs at hj with hlt
      · rw [List.mem_singleton, add_right_inj] at hj
        have hk : k = id + n * j := by exact_mod_cast mul_right_cancel₀ hs hj
        rw [hk, Nat.add_mul_mod_self_left, Nat.mod_eq_of_lt hid]
      · cases hj
    · intro h
      refine ⟨k / n, ?_, ?_⟩
      · have := Nat.div_le_self k n
        omega
      · have hk : id + n * (k / n) = k := by
          rw [← h]
          exact Nat.mod_add_div k n
        rw [hk, if_pos (by omega)]
        exact List.mem_singleton.mpr rfl

/-! ## The number of iterations -/

/-- The quotient counts the iterations of the loop that ends before `up + ubofs`, and below
zero the steps that the loop starts past it. -/
theorem tdiv_roundedDist (hs : step ≠ 0) :
    (roundedDist lb up ubofs step).tdiv step =
      loopCount lb (up + ubofs) step - stepsPast lb (up + ubofs) step := by
  have habs : (0 : ℤ) < step.natAbs := by omega
  have hquot : (roundedDist lb up ubofs step).tdiv step =
      (reach lb (up + ubofs) step + step.natAbs - 1).tdiv step.natAbs := by
    rw [roundedDist, reach]
    split_ifs with h
    · rw [Int.natAbs_of_nonneg h.le]
    · rw [Int.ofNat_natAbs_of_nonpos (by omega), ← Int.neg_tdiv_neg]
      congr 1
      ring
  rw [hquot, loopCount, stepsPast, ← add_sub_assoc]
  generalize reach lb (up + ubofs) step = d
  generalize step.natAbs = p at habs
  rcases le_or_gt 0 (d + p - 1) with h | h
  · rw [show (1 - d - p).toNat = 0 by omega, Nat.zero_div, Int.tdiv_eq_ediv_of_nonneg h,
      Int.toNat_of_nonneg (Int.ediv_nonneg h habs.le), Nat.cast_zero, sub_zero]
  · have hneg : (d + p - 1) / p < 0 := Int.ediv_neg_of_neg_of_pos h habs
    rw [Int.toNat_of_nonpos hneg.le, Nat.cast_zero, zero_sub, Int.natCast_div,
      Int.toNat_of_nonneg (by omega), ← Int.tdiv_eq_ediv_of_nonneg (by omega), ← Int.neg_tdiv]
    congr 1
    ring

theorem stepsPast_eq_zero (h : 0 < loopCount lb bound step) : stepsPast lb bound step = 0 := by
  unfold loopCount at h
  unfold stepsPast
  rcases Nat.eq_zero_or_pos step.natAbs with h0 | h0
  · rw [h0, Nat.div_zero]
  · have hpos : ¬ reach lb bound step + (step.natAbs - 1) < 0 := by
      intro hc
      have := Int.ediv_neg_of_neg_of_pos hc (show (0 : ℤ) < step.natAbs by exact_mod_cast h0)
      omega
    rw [show (1 - reach lb bound step - step.natAbs).toNat = 0 by omega, Nat.zero_div]

theorem loopCount_pos_iff (hs : step ≠ 0) :
    0 < loopCount lb bound step ↔ 0 < reach lb bound step := by
  simpa using @lt_loopCount_iff lb bound step hs 0

/-- Two indices nearer by two steps of one: the same quotient only away from the multiples. -/
theorem sub_two_div {t p : ℕ} (hp : 2 ≤ p) (ht : 2 ≤ t) :
    (t - 2) / p = if 2 ≤ t % p then t / p else t / p - 1 := by
  have hdm := Nat.div_add_mod t p
  have hlt := Nat.mod_lt t (show 0 < p by omega)
  split_ifs with h
  · have hsum : t - 2 = p * (t / p) + (t % p - 2) := by omega
    rw [hsum, Nat.mul_add_div (by omega), Nat.div_eq_of_lt (show t % p - 2 < p by omega), add_zero]
  · have hq : t / p ≠ 0 := by
      intro h0
      rw [h0, mul_zero] at hdm
      omega
    obtain ⟨q, hq⟩ := Nat.exists_eq_succ_of_ne_zero hq
    rw [hq] at hdm ⊢
    rw [Nat.succ_eq_add_one, mul_add_one] at hdm
    have hsum : t - 2 = p * q + (p + t % p - 2) := by omega
    rw [hsum, Nat.mul_add_div (by omega), Nat.div_eq_of_lt (by omega), add_zero]
    rfl

theorem sub_two_div_mod_iff {t p : ℕ} (hn : 2 ≤ n) (hp : 1 ≤ p) (ht : 2 ≤ t) :
    (t - 2) / p % n = t / p % n ↔ if p = 1 then n = 2 else 2 ≤ t % p := by
  split_ifs with h1
  · subst h1
    rw [Nat.div_one, Nat.div_one]
    constructor
    · intro h
      have hmod : t - 2 ≡ t [MOD n] := h
      have hdvd := (Nat.modEq_iff_dvd' (by omega)).mp hmod
      rw [Nat.sub_sub_self ht] at hdvd
      have := Nat.le_of_dvd (by omega) hdvd
      omega
    · rintro rfl
      omega
  · rw [sub_two_div (by omega) ht]
    split_ifs with h
    · exact iff_of_true rfl h
    · refine iff_of_false ?_ h
      have hdm := Nat.div_add_mod t p
      have hpos : t / p ≠ 0 := by
        intro h0
        rw [h0, mul_zero] at hdm
        omega
      intro hmod
      have hmod' : t / p - 1 ≡ t / p [MOD n] := hmod
      have hdvd := (Nat.modEq_iff_dvd' (Nat.sub_le _ _)).mp hmod'
      rw [Nat.sub_sub_self (Nat.one_le_iff_ne_zero.mpr hpos)] at hdvd
      have := Nat.le_of_dvd Nat.one_pos hdvd
      omega

/-- The thread that the count names is the one that runs the last iteration. -/
def SameLast (lb up ubofs step : ℤ) (n : ℕ) : Prop :=
  ∀ id < n, (0 < countedIters lb up ubofs step ∧
      (countedIters lb up ubofs step - 1).tmod n = id) ↔
    (0 < loopCount lb (loopBound ubofs up step) step ∧
      (loopCount lb (loopBound ubofs up step) step - 1) % n = id)

theorem countedIters_eq (hs : step ≠ 0) :
    countedIters lb up ubofs step =
      toInt (loopCount lb (up + ubofs) step - stepsPast lb (up + ubofs) step) := by
  rw [countedIters, tdiv_roundedDist hs]

/-- A count that is not cut names the last thread of the loop that is counted. -/
theorem count_names_iff (hs : step ≠ 0) (hcount : loopCount lb (up + ubofs) step < 2 ^ 31)
    (hpast : stepsPast lb (up + ubofs) step ≤ 2 ^ 31) (id : ℕ) :
    (0 < countedIters lb up ubofs step ∧ (countedIters lb up ubofs step - 1).tmod n = id) ↔
      (0 < loopCount lb (up + ubofs) step ∧ (loopCount lb (up + ubofs) step - 1) % n = id) := by
  rw [countedIters_eq hs, toInt_of_inInt (by constructor <;> omega)]
  rcases Nat.eq_zero_or_pos (loopCount lb (up + ubofs) step) with h0 | hpos
  · rw [h0]
    exact iff_of_false (fun h => by omega) fun h => by omega
  · rw [stepsPast_eq_zero hpos, Nat.cast_zero, sub_zero, ← Nat.cast_pred hpos,
      Int.tmod_eq_emod_of_nonneg (by omega)]
    exact_mod_cast Iff.rfl

theorem loopCount_le_of_bound (hs : step ≠ 0) (hub : 0 ≤ ubofs) :
    loopCount lb (up + ubofs) step ≤ loopCount lb (loopBound ubofs up step) step := by
  by_contra hc
  rw [not_le] at hc
  have hlt := (lt_loopCount_iff hs _).mp hc
  have hnot :=
    mt (lt_loopCount_iff hs _).mpr (lt_irrefl (loopCount lb (loopBound ubofs up step) step))
  unfold reach loopBound at hlt hnot
  split_ifs at hlt hnot <;> omega

/-- A count that is cut to an `int` names the last thread where the cut does no harm. -/
theorem sameLast_cut_iff (hn : 2 ≤ n) (hs : step ≠ 0) (hub : ubofs = 0 ∨ ubofs = 1)
    (hcut : ¬ (loopCount lb (up + ubofs) step < 2 ^ 31 ∧
      stepsPast lb (up + ubofs) step ≤ 2 ^ 31)) :
    SameLast lb up ubofs step n ↔ CutHarmless lb up ubofs step n := by
  have hle := @loopCount_le_of_bound lb up ubofs step hs (by omega)
  unfold SameLast CutHarmless
  rw [countedIters_eq hs]
  split_ifs with hpos
  · rw [stepsPast_eq_zero hpos, Nat.cast_zero, sub_zero]
    generalize loopCount lb (loopBound ubofs up step) step = K at hle
    generalize loopCount lb (up + ubofs) step = c at *
    have hc : 0 < toInt c ↔ 0 < c % 2 ^ 32 ∧ c % 2 ^ 32 < 2 ^ 31 := by
      unfold toInt
      omega
    have heq : 0 < toInt c → toInt c = (c % 2 ^ 32 : ℕ) := by
      unfold toInt
      omega
    have hmod : 0 < toInt c → (((toInt c - 1).tmod n : ℤ) = ((K - 1) % n : ℕ) ↔
        (n : ℤ) ∣ K - (c % 2 ^ 32 : ℕ)) := by
      intro h
      have hK : (((K - 1) % n : ℕ) : ℤ) = ((K : ℤ) - 1) % n := by
        rw [← Nat.cast_pred (by omega), Int.natCast_mod]
      rw [Int.tmod_eq_emod_of_nonneg (by omega), heq h, hK]
      refine Int.modEq_iff_dvd.trans ?_
      rw [sub_sub_sub_cancel_right]
    rw [← and_assoc, ← hc]
    constructor
    · intro h
      obtain ⟨h1, h2⟩ := (h ((K - 1) % n) (Nat.mod_lt _ (by omega))).mpr ⟨by omega, rfl⟩
      exact ⟨h1, (hmod h1).mp h2⟩
    · rintro ⟨h1, h2⟩ id -
      rw [and_iff_right h1, and_iff_right (show 0 < K by omega), (hmod h1).mpr h2]
      exact Nat.cast_inj
  · have hback : 2 ^ 31 < stepsPast lb (up + ubofs) step := by omega
    have hfar := Nat.div_mul_le_self (1 - reach lb (up + ubofs) step - step.natAbs).toNat
      step.natAbs
    have hmul := Nat.le_mul_of_pos_right (stepsPast lb (up + ubofs) step)
      (show 0 < step.natAbs by omega)
    have hnone : ¬ 0 < loopCount lb (loopBound ubofs up step) step := by
      rw [loopCount_pos_iff hs]
      unfold stepsPast at hback hmul
      unfold loopBound
      unfold reach at hfar hmul hback ⊢
      split_ifs at hfar hmul hback ⊢ <;> omega
    have hpos' : 0 < toInt (loopCount lb (up + ubofs) step - stepsPast lb (up + ubofs) step) ↔
        ¬ stepsPast lb (up + ubofs) step % 2 ^ 32 ≤ 2 ^ 31 := by
      unfold toInt
      omega
    constructor
    · intro h
      by_contra hc
      have h1 := hpos'.mpr hc
      have hlt := Int.tmod_lt_of_pos (toInt (loopCount lb (up + ubofs) step -
        stepsPast lb (up + ubofs) step) - 1) (show (0 : ℤ) < n by omega)
      have h0 := Int.tmod_nonneg (n : ℤ) (show 0 ≤ toInt (loopCount lb (up + ubofs) step -
        stepsPast lb (up + ubofs) step) - 1 by omega)
      obtain ⟨id, hid⟩ := Int.eq_ofNat_of_zero_le h0
      exact hnone ((h id (by omega)).mp ⟨h1, hid⟩).1
    · intro h id _
      exact iff_of_false (fun h1 => hpos'.mp h1.1 h) fun h1 => hnone h1.1

theorem sameLast_whole_iff (hn : 2 ≤ n) (hs : step ≠ 0) (hub : ubofs = 0 ∨ ubofs = 1)
    (hcount : loopCount lb (up + ubofs) step < 2 ^ 31)
    (hpast : stepsPast lb (up + ubofs) step ≤ 2 ^ 31) :
    SameLast lb up ubofs step n ↔ OffsetHarmless lb up ubofs step n := by
  have hnames : SameLast lb up ubofs step n ↔ ∀ id < n,
      (0 < loopCount lb (up + ubofs) step ∧ (loopCount lb (up + ubofs) step - 1) % n = id) ↔
      (0 < loopCount lb (loopBound ubofs up step) step ∧
        (loopCount lb (loopBound ubofs up step) step - 1) % n = id) := by
    simp only [SameLast, count_names_iff hs hcount hpast]
  rw [hnames]
  by_cases hsame : 0 < step ∨ ubofs = 0
  · have hbound : loopBound ubofs up step = up + ubofs := by
      unfold loopBound
      split_ifs with hpos
      · rfl
      · rw [hsame.resolve_left hpos, sub_zero, add_zero]
    rw [hbound]
    exact iff_of_true (fun _ _ => Iff.rfl) (or_assoc.mp (Or.inl hsame))
  · rw [not_or] at hsame
    obtain rfl : ubofs = 1 := hub.resolve_left hsame.2
    have hneg : ¬ 0 < step := hsame.1
    rw [OffsetHarmless, or_iff_right hneg, or_iff_right hsame.2, loopBound, if_neg hneg]
    obtain ⟨p, hp1, rfl⟩ : ∃ p : ℕ, 1 ≤ p ∧ step = -p := ⟨step.natAbs, by omega, by omega⟩
    rcases lt_or_ge lb up with hlt | hge
    · -- both loops are empty
      refine iff_of_true (fun id _ => ?_) (Or.inl hlt)
      rw [loopCount_pos_iff hs, loopCount_pos_iff hs, reach, reach, if_neg hneg, if_neg hneg]
      exact iff_of_false (fun h => absurd h.1 (by omega)) fun h => absurd h.1 (by omega)
    · obtain ⟨t, rfl⟩ : ∃ t : ℕ, lb = up + t := ⟨(lb - up).toNat, by omega⟩
      have hcount : loopCount (up + t) (up - 1) (-p : ℤ) = t / p + 1 := by
        rw [loopCount, reach, if_neg hneg, Int.natAbs_neg, Int.natAbs_natCast]
        have hsum : up + (t : ℤ) - (up - 1) + (p - 1) = ((t + p : ℕ) : ℤ) := by
          push_cast
          ring
        rw [hsum, ← Int.natCast_div, Int.toNat_natCast, Nat.add_div_right _ (by omega)]
      rw [hcount, or_iff_right (by omega)]
      rcases Nat.lt_or_ge t 2 with ht | ht
      · -- the last iteration is not counted
        have hzero : loopCount (up + t) (up + 1) (-p : ℤ) = 0 := by
          apply Nat.eq_zero_of_not_pos
          rw [loopCount_pos_iff hs, reach, if_neg hneg]
          omega
        rw [hzero]
        refine iff_of_false (fun h => ?_) fun h => absurd h.1 (by omega)
        have hlast := (h (t / p % n) (Nat.mod_lt _ (by omega))).mpr ⟨Nat.succ_pos _, rfl⟩
        exact absurd hlast.1 (lt_irrefl 0)
      · have hshort : loopCount (up + t) (up + 1) (-p : ℤ) = (t - 2) / p + 1 := by
          rw [loopCount, reach, if_neg hneg, Int.natAbs_neg, Int.natAbs_natCast]
          have hsum : up + (t : ℤ) - (up + 1) + (p - 1) = ((t - 2 + p : ℕ) : ℤ) := by
            push_cast [ht]
            ring
          rw [hsum, ← Int.natCast_div, Int.toNat_natCast, Nat.add_div_right _ (by omega)]
        have hmod : ((t : ℤ) % (-p : ℤ)) = ((t % p : ℕ) : ℤ) := by
          rw [Int.emod_neg, Int.natCast_mod]
        have hone : (-p : ℤ) = -1 ↔ p = 1 := by omega
        rw [hshort, add_sub_cancel_left, hmod, and_iff_right (by omega)]
        simp only [hone]
        have hcond := sub_two_div_mod_iff hn hp1 ht
        simp only [Nat.succ_pos, true_and, Nat.add_sub_cancel]
        have hall : (∀ id < n, (t - 2) / p % n = id ↔ t / p % n = id) ↔
            (t - 2) / p % n = t / p % n := by
          constructor
          · intro h
            exact (h (t / p % n) (Nat.mod_lt _ (by omega))).mpr rfl
          · intro h id _
            rw [h]
        rw [hall, hcond]
        split_ifs
        · exact Iff.rfl
        · exact_mod_cast Iff.rfl

theorem sameLast_iff (hn : 2 ≤ n) (hs : step ≠ 0) (hub : ubofs = 0 ∨ ubofs = 1) :
    SameLast lb up ubofs step n ↔ MarksLast lb up ubofs step n := by
  unfold MarksLast
  split_ifs with h
  · exact sameLast_whole_iff hn hs hub h.1 h.2
  · exact sameLast_cut_iff hn hs hub h

/-- The cyclic schedule is the serial loop, dealt out in turn, and `is_last` is set where its last
iteration runs, exactly when nothing overflows and neither the bound offset nor the cut of the
number of iterations to an `int` does harm. -/
theorem cyclicScheduled_iff (hteam : IsTeam n team) (hn : 2 ≤ n) (hs : step ≠ 0)
    (hub : ubofs = 0 ∨ ubofs = 1) :
    CyclicScheduled n team lb up ubofs step ↔
      CyclicFits lb up ubofs step n ∧ MarksLast lb up ubofs step n := by
  have hn0 : 0 < n := by omega
  have hloop : ∀ id : ℕ, serialLoop ubofs (cyclicThread (team id) lb up ubofs step n id).2.1 up
      (cyclicThread (team id) lb up ubofs step n id).2.2 =
        loopValues (lb + id * step) (loopBound ubofs up step) (step * n) := by
    intro id
    rw [serialLoop, cyclicThread, loopBound_mul hn0]
  have hlast : ∀ id < n, ((cyclicThread (team id) lb up ubofs step n id).1.isLast = true ↔
      ∃ x, (serialLoop ubofs lb up step).getLast? = some x ∧
        x ∈ serialLoop ubofs (cyclicThread (team id) lb up ubofs step n id).2.1 up
          (cyclicThread (team id) lb up ubofs step n id).2.2) ↔
      ((0 < countedIters lb up ubofs step ∧
          (countedIters lb up ubofs step - 1).tmod n = id) ↔
        (0 < loopCount lb (loopBound ubofs up step) step ∧
          (loopCount lb (loopBound ubofs up step) step - 1) % n = id)) := by
    intro id hid
    rw [hloop id, serialLoop, last_mem_turn_iff hn0 hs hid, cyclicThread]
    simp only [decide_eq_true_eq]
  rw [← sameLast_iff hn hs hub]
  constructor
  · rintro ⟨out, hout, -, hflag⟩
    have heq : ∀ id < n, out id = cyclicThread (team id) lb up ubofs step n id := fun id hid =>
      ((staticCschedTid_eq_some_iff hteam hn hid _).mp (hout id hid)).2
    obtain ⟨h1, h2, h3, h4, h5, -, h7⟩ :=
      ((staticCschedTid_eq_some_iff hteam hn hn0 _).mp (hout 0 hn0)).1
    constructor
    · exact ⟨h1, h2, h3, h4, h5, fun id hid =>
        ((staticCschedTid_eq_some_iff hteam hn hid _).mp (hout id hid)).1.2.2.2.2.2.1, h7⟩
    · intro id hid
      have hfl := hflag id hid
      rw [heq id hid] at hfl
      exact (hlast id hid).mp hfl
  · rintro ⟨⟨h1, h2, h3, h4, h5, h6, h7⟩, hsame⟩
    refine ⟨fun id => cyclicThread (team id) lb up ubofs step n id, ?_, ?_, ?_⟩
    · intro id hid
      exact (staticCschedTid_eq_some_iff hteam hn hid _).mpr
        ⟨⟨h1, h2, h3, h4, h5, h6 id hid, h7⟩, rfl⟩
    · simp only [hloop]
      exact cyclic_perm hn0 hs
    · intro id hid
      exact (hlast id hid).mpr (hsame id hid)

instance (lb up ubofs step : ℤ) (n : ℕ) : Decidable (MarksLast lb up ubofs step n) :=
  inferInstanceAs (Decidable (ite _ _ (ite _ (_ ∧ _ ∧ _) _)))

/-- A team of two. -/
def pair (id : ℕ) : OmpThread := ⟨id, some 2, 0, 0, 0, 0, false⟩

theorem cyclicScheduled_five : CyclicFits 0 5 0 1 2 ∧ CyclicScheduled 2 pair 0 5 0 1 := by
  have hfits : CyclicFits 0 5 0 1 2 :=
    ⟨by decide, by decide, by decide, by decide, by decide, by decide, by decide⟩
  exact ⟨hfits, (cyclicScheduled_iff (fun _ _ => ⟨rfl, rfl⟩) le_rfl (by decide)
    (Or.inl rfl)).mpr ⟨hfits, by decide⟩⟩

/-- `do i = 3, 1, -2`: the iterations 3 and 1, of which the second is thread 1's; the count is
one, so that thread 0 is marked. -/
theorem cyclicSchedule_marks_first : ¬ CyclicScheduled 2 pair 3 1 1 (-2) := by
  rintro ⟨out, hout, -, hflag⟩
  have h0 : out 0 = ({ pair 0 with isLast := true }, 3, -4) := by
    have := hout 0 (by decide)
    exact (Option.some_inj.mp this).symm
  obtain ⟨x, hlast, hmem⟩ := (hflag 0 (by decide)).mp (by rw [h0])
  have hserial : serialLoop 1 3 1 (-2) = [3, 1] := by decide
  have hthread : serialLoop 1 3 1 (-4) = [3] := by decide
  rw [h0, hthread, List.mem_singleton] at hmem
  rw [hserial, hmem] at hlast
  simp at hlast

end OmniCompiler.Omp
