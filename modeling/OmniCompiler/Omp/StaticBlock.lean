import OmniCompiler.Arithmetic.Chunking
import OmniCompiler.Arithmetic.ForLoop
import OmniCompiler.Arithmetic.MachineInt

/-!
# Static block schedule of a work-sharing loop (`ompc_runtime.c`)

Loop indices travel through the runtime as `void *`. Differences and casts to `intptr_t` are
signed, comparisons of the pointers themselves are unsigned. Block sizes and offsets are `int`.
-/
namespace OmniCompiler.Omp

open MachineInt ForLoop Chunking

/-- The members of `struct ompc_thread` that the loop schedules use; `parentNumThds` is
`num_thds` of the parent, where there is one. -/
structure OmpThread where
  num : ℕ
  parentNumThds : Option ℕ
  loopChunkSize : ℤ
  loopEnd : ℤ
  loopSchedIndex : ℤ
  loopStride : ℤ
  isLast : Bool
  deriving DecidableEq

def getNumThreads (tp : OmpThread) : ℕ := tp.parentNumThds.getD 1

/-- Threads `0` to `n - 1` of a team, with whatever earlier loops left in them. -/
def IsTeam (n : ℕ) (team : ℕ → OmpThread) : Prop :=
  ∀ id < n, (team id).num = id ∧ (team id).parentNumThds = some n

/-- The exclusive bound of a loop whose bound is exclusive for `ubofs = 0` (C) and inclusive
for `ubofs = 1` (Fortran). -/
def loopBound (ubofs up step : ℤ) : ℤ := if 0 < step then up + ubofs else up - ubofs

/-- Iterations of the serial loop `(lb, up, step)`. -/
def serialLoop (ubofs lb up step : ℤ) : List ℤ := loopValues lb (loopBound ubofs up step) step

def staticBschedTid (tp : OmpThread) (lb up ubofs step : ℤ) : Option (OmpThread × ℤ × ℤ) :=
  let nThd : ℤ := getNumThreads tp
  if getNumThreads tp = 1 then some (tp, lb, up)
  else if 0 < step then do
    let ee := up + ubofs
    let blk := toInt ((toLL (ee - lb) + nThd - 1).tdiv nThd)
    let sum ← cint (blk + step)
    let sum ← cint (sum - 1)
    let blk ← cint (sum.tdiv step * step)
    let ofs ← cint (blk * tp.num)
    let b := lb + ofs
    let e := b + blk
    if toLL e ≥ toLL ee then
      some ({ tp with isLast := decide (toULL ee > toULL b) }, toLL b, toLL (ee - ubofs))
    else some ({ tp with isLast := false }, toLL b, toLL (e - ubofs))
  else if step < 0 then do
    let ee := up - ubofs
    let blk := toInt ((toLL (ee - lb) - nThd + 1).tdiv nThd)
    let sum ← cint (blk + step)
    let sum ← cint (sum + 1)
    let blk ← cint (sum.tdiv step * step)
    let ofs ← cint (blk * tp.num)
    let b := lb + ofs
    let e := b + blk
    if toLL e ≤ toLL ee then
      some ({ tp with isLast := decide (toLL ee < toLL b) }, toLL b, toLL (ee + ubofs))
    else some ({ tp with isLast := false }, toLL b, toLL (e + ubofs))
  else some ({ tp with isLast := false }, lb, up)

/-- The loops of the threads, put together in thread order, are the serial loop, and
`is_last` is set where the last iteration runs. -/
def BlockScheduled (n : ℕ) (team : ℕ → OmpThread) (lb up ubofs step : ℤ) : Prop :=
  ∃ out : ℕ → OmpThread × ℤ × ℤ,
    (∀ id < n, staticBschedTid (team id) lb up ubofs step = some (out id)) ∧
    (List.range n).flatMap (fun id => serialLoop ubofs (out id).2.1 (out id).2.2 step) =
      serialLoop ubofs lb up step ∧
    ∀ id < n, (out id).1.isLast = true ↔ ∃ x, (serialLoop ubofs lb up step).getLast? = some x ∧
      x ∈ serialLoop ubofs (out id).2.1 (out id).2.2 step

/-! ## Size of the blocks -/

def wideShare (lb bound step : ℤ) (n : ℕ) : ℤ := (reach lb bound step + n - 1).tdiv n

/-- The same as it is stored in an `int`, with the sign of the step. -/
def share (lb bound step : ℤ) (n : ℕ) : ℤ :=
  step.sign * toInt (step.sign * wideShare lb bound step n)

def blockIters (lb bound step : ℤ) (n : ℕ) : ℤ :=
  (share lb bound step n + step.natAbs - 1).tdiv step.natAbs

def blockStart (lb bound step : ℤ) (n id : ℕ) : ℤ := lb + blockIters lb bound step n * step * id

/-- No sum of indices overflows. -/
structure NoSumOverflow (lb up ubofs step : ℤ) (n : ℕ) : Prop where
  inLL_up : InLL up
  inLL_bound : InLL (loopBound ubofs up step)
  inLL_dist : InLL (loopBound ubofs up step - lb)
  inLL_start : ∀ id ≤ n, InLL (blockStart lb (loopBound ubofs up step) step n id)

/-- No `int` operation on block sizes overflows. -/
structure BlockFits (lb bound step : ℤ) (n : ℕ) : Prop where
  inInt_sum : InInt (step.sign * share lb bound step n + step)
  inInt_ofs : InInt (blockIters lb bound step n * step * (n - 1 : ℕ))

/-- The share of a thread in a loop with iterations is stored without loss. -/
def ShareFits (lb bound step : ℤ) (n : ℕ) : Prop :=
  0 < reach lb bound step → InInt (step.sign * wideShare lb bound step n)

/-- Adding the divisor less one before a truncating division rounds up, also where the
dividend is not positive and the quotient is not either. -/
theorem tdiv_round {a b : ℤ} (hb : 0 < b) :
    a ≤ (a + b - 1).tdiv b * b ∧ (0 < a → 0 < (a + b - 1).tdiv b) ∧
      (a ≤ 0 → (a + b - 1).tdiv b ≤ 0) := by
  have hdm := Int.tmod_add_tdiv_mul (a + b - 1) b
  have hlt := Int.tmod_lt_of_pos (a + b - 1) hb
  have hgt := Int.lt_tmod_of_pos (a + b - 1) hb
  set q := (a + b - 1).tdiv b
  set r := (a + b - 1).tmod b with hr
  have hle : a ≤ q * b := by
    omega
  refine ⟨hle, fun ha => ?_, fun ha => ?_⟩
  · by_contra hc
    nlinarith
  · by_contra hc
    have hq : b ≤ q * b := by nlinarith
    have hr0 : r ≤ 0 := by omega
    by_cases hd : a + b - 1 < 0
    · have := tmod_nonpos b hd.le
      omega
    · have := Int.tmod_nonneg b (show 0 ≤ a + b - 1 by omega)
      omega

variable {lb up ubofs step bound : ℤ} {n id : ℕ}

theorem share_eq_wideShare (hs : step ≠ 0) (h : InInt (step.sign * wideShare lb bound step n)) :
    share lb bound step n = wideShare lb bound step n := by
  rw [share, toInt_of_inInt h, ← mul_assoc, ← Int.sign_mul, Int.sign_eq_one_of_pos
    (mul_self_pos.mpr hs), one_mul]

theorem share_mul (hn : 0 < n) (hs : step ≠ 0) (h : 0 < reach lb bound step)
    (hlong : ShareFits lb bound step n) :
    reach lb bound step ≤ share lb bound step n * n ∧ 0 < share lb bound step n := by
  obtain ⟨h1, h2, -⟩ := @tdiv_round (reach lb bound step) n (by exact_mod_cast hn)
  rw [share_eq_wideShare hs (hlong h)]
  exact ⟨h1, h2 h⟩

theorem blockIters_mul (hs : step ≠ 0) :
    share lb bound step n ≤ blockIters lb bound step n * step.natAbs ∧
      (0 < share lb bound step n → 0 < blockIters lb bound step n) ∧
      (share lb bound step n ≤ 0 → blockIters lb bound step n ≤ 0) :=
  tdiv_round (by omega)

theorem blockStart_succ :
    blockStart lb bound step n id + blockIters lb bound step n * step =
      blockStart lb bound step n (id + 1) := by
  unfold blockStart
  push_cast
  ring

/-! The quotients as the two branches compute them. -/

theorem share_of_pos (hs : 0 < step) (hdist : InLL (bound - lb)) :
    toInt ((toLL (bound - lb) + n - 1).tdiv n) = share lb bound step n := by
  rw [share, wideShare, Int.sign_eq_one_of_pos hs, one_mul, one_mul, reach, if_pos hs,
    toLL_of_inLL hdist]

theorem share_of_neg (hs : step < 0) (hdist : InLL (bound - lb)) :
    toInt ((toLL (bound - lb) - n + 1).tdiv n) = -share lb bound step n := by
  rw [share, wideShare, Int.sign_eq_neg_one_of_neg hs, neg_one_mul, neg_one_mul, neg_neg, reach,
    if_neg (by omega), toLL_of_inLL hdist, ← Int.neg_tdiv]
  congr 2
  ring

theorem BlockFits.blockSize (h : BlockFits lb bound step n) (hs : step ≠ 0) :
    InInt (blockIters lb bound step n * step) := by
  have hsum := h.inInt_sum
  have hsh : InInt (step.sign * share lb bound step n) := by
    have := inInt_toInt (step.sign * wideShare lb bound step n)
    rwa [share, ← mul_assoc, ← Int.sign_mul, Int.sign_eq_one_of_pos (mul_self_pos.mpr hs), one_mul]
  obtain ⟨h0, h1⟩ := hsum
  obtain ⟨h2, h3⟩ := hsh
  rcases lt_or_gt_of_ne hs with hneg | hpos
  · rw [Int.sign_eq_neg_one_of_neg hneg, neg_one_mul] at h0 h1 h2 h3
    have := @inInt_tdiv_mul (-share lb bound step n + step + 1) step ⟨by omega, by omega⟩
    rwa [blockIters, Int.ofNat_natAbs_of_nonpos hneg.le, ← Int.neg_tdiv_neg, neg_neg,
      show -(share lb bound step n + -step - 1) = -share lb bound step n + step + 1 by ring]
  · rw [Int.sign_eq_one_of_pos hpos, one_mul] at h0 h1 h2 h3
    have := @inInt_tdiv_mul (share lb bound step n + step - 1) step ⟨by omega, by omega⟩
    rwa [blockIters, Int.natAbs_of_nonneg hpos.le]

theorem blockIters_of_pos (hs : 0 < step) :
    (share lb bound step n + step - 1).tdiv step = blockIters lb bound step n := by
  rw [blockIters, Int.natAbs_of_nonneg hs.le]

theorem blockIters_of_neg (hs : step < 0) :
    (-share lb bound step n + step + 1).tdiv step = blockIters lb bound step n := by
  rw [blockIters, Int.ofNat_natAbs_of_nonpos hs.le, ← Int.neg_tdiv_neg]
  congr 1
  ring

section

variable {tp : OmpThread} (hnum : tp.num = id) (hpar : tp.parentNumThds = some n) (hn : 2 ≤ n)
  (hno : NoSumOverflow lb up ubofs step n) (hbound : bound = loopBound ubofs up step)

include hnum hpar hn hno hbound

theorem staticBschedTid_of_pos (hid : id < n) (hs : 0 < step) (hfit : BlockFits lb bound step n) :
    staticBschedTid tp lb up ubofs step =
      if bound ≤ blockStart lb bound step n (id + 1) then
        some ({ tp with isLast := decide (toULL (blockStart lb bound step n id) < toULL bound) },
          blockStart lb bound step n id, up)
      else some ({ tp with isLast := false }, blockStart lb bound step n id,
        toLL (blockStart lb bound step n (id + 1) - ubofs)) := by
  have hb : bound = up + ubofs := by rw [hbound, loopBound, if_pos hs]
  have hup : bound - ubofs = up := by omega
  have hn1 : ¬ n = 1 := by omega
  have hdist := hno.inLL_dist
  have hstart := hno.inLL_start id hid.le
  have hnext := hno.inLL_start (id + 1) hid
  have hend := hno.inLL_bound
  rw [← hbound] at hdist hstart hnext hend
  have hshare := @share_of_pos lb step bound n hs hdist
  have hiters := @blockIters_of_pos lb step bound n hs
  have hf5 := hfit.blockSize hs.ne'
  obtain ⟨hf2, hf3⟩ := hfit
  rw [Int.sign_eq_one_of_pos hs, one_mul] at hf2
  have hf4 : InInt (share lb bound step n + step - 1) := by
    have h1 := inInt_toInt (step.sign * wideShare lb bound step n)
    have h2 : share lb bound step n = toInt (step.sign * wideShare lb bound step n) := by
      rw [share, Int.sign_eq_one_of_pos hs, one_mul]
    have := h1.1
    have := hf2.2
    constructor <;> omega
  have hf6 := inInt_mul_of_le (show id ≤ n - 1 by omega) hf3
  have hofs : lb + blockIters lb bound step n * step * id = blockStart lb bound step n id := rfl
  simp only [staticBschedTid, getNumThreads, hpar, Option.getD_some, hn1, if_false, hs, if_true,
    ← hb, hshare, hnum, cint_of_inInt hf2, cint_of_inInt hf4, hiters,
    cint_of_inInt hf5, cint_of_inInt hf6, hofs, blockStart_succ, toLL_of_inLL hstart,
    toLL_of_inLL hnext, toLL_of_inLL hend, Option.bind_eq_bind, Option.bind_some, ge_iff_le,
    gt_iff_lt, hup, toLL_of_inLL hno.inLL_up]

theorem staticBschedTid_of_neg (hid : id < n) (hs : step < 0) (hfit : BlockFits lb bound step n) :
    staticBschedTid tp lb up ubofs step =
      if blockStart lb bound step n (id + 1) ≤ bound then
        some ({ tp with isLast := decide (bound < blockStart lb bound step n id) },
          blockStart lb bound step n id, up)
      else some ({ tp with isLast := false }, blockStart lb bound step n id,
        toLL (blockStart lb bound step n (id + 1) + ubofs)) := by
  have hs' : ¬ 0 < step := by omega
  have hb : bound = up - ubofs := by rw [hbound, loopBound, if_neg hs']
  have hup : bound + ubofs = up := by omega
  have hn1 : ¬ n = 1 := by omega
  have hdist := hno.inLL_dist
  have hstart := hno.inLL_start id hid.le
  have hnext := hno.inLL_start (id + 1) hid
  have hend := hno.inLL_bound
  rw [← hbound] at hdist hstart hnext hend
  have hshare := @share_of_neg lb step bound n hs hdist
  have hiters := @blockIters_of_neg lb step bound n hs
  have hf5 := hfit.blockSize hs.ne
  obtain ⟨hf2, hf3⟩ := hfit
  rw [Int.sign_eq_neg_one_of_neg hs, neg_one_mul] at hf2
  have hf4 : InInt (-share lb bound step n + step + 1) := by
    have h1 := inInt_toInt (step.sign * wideShare lb bound step n)
    have h2 : -share lb bound step n = toInt (step.sign * wideShare lb bound step n) := by
      rw [share, Int.sign_eq_neg_one_of_neg hs]
      ring
    have := h1.2
    have := hf2.1
    constructor <;> omega
  have hf6 := inInt_mul_of_le (show id ≤ n - 1 by omega) hf3
  have hofs : lb + blockIters lb bound step n * step * id = blockStart lb bound step n id := rfl
  simp only [staticBschedTid, getNumThreads, hpar, Option.getD_some, hn1, if_false, hs, if_true,
    ← hb, hshare, hnum, cint_of_inInt hf2, cint_of_inInt hf4, hiters,
    cint_of_inInt hf5, cint_of_inInt hf6, hofs, blockStart_succ, toLL_of_inLL hstart, hs',
    toLL_of_inLL hnext, toLL_of_inLL hend, Option.bind_eq_bind, Option.bind_some, hup,
    toLL_of_inLL hno.inLL_up]

theorem blockFits_of_eq_some (hs : step ≠ 0) (hlast : id = n - 1) {o : OmpThread × ℤ × ℤ}
    (h : staticBschedTid tp lb up ubofs step = some o) : BlockFits lb bound step n := by
  have hn1 : ¬ n = 1 := by omega
  have hdist := hno.inLL_dist
  rw [← hbound] at hdist
  rcases lt_or_gt_of_ne hs with hneg | hpos
  · have hs' : ¬ 0 < step := by omega
    have hb : bound = up - ubofs := by rw [hbound, loopBound, if_neg hs']
    simp only [staticBschedTid, getNumThreads, hpar, Option.getD_some, hn1, if_false, hneg,
      if_true, ← hb, share_of_neg hneg hdist, hnum, hs', Option.bind_eq_bind,
      Option.bind_eq_some_iff,
      cint_eq_some] at h
    obtain ⟨_, ⟨hf2, rfl⟩, _, ⟨-, rfl⟩, _, ⟨-, rfl⟩, _, ⟨hf3, -⟩, -⟩ := h
    rw [blockIters_of_neg hneg, hlast] at hf3
    exact ⟨by rwa [Int.sign_eq_neg_one_of_neg hneg, neg_one_mul], hf3⟩
  · have hb : bound = up + ubofs := by rw [hbound, loopBound, if_pos hpos]
    simp only [staticBschedTid, getNumThreads, hpar, Option.getD_some, hn1, if_false, hpos,
      if_true, ← hb, share_of_pos hpos hdist, hnum, Option.bind_eq_bind, Option.bind_eq_some_iff,
      cint_eq_some] at h
    obtain ⟨_, ⟨hf2, rfl⟩, _, ⟨-, rfl⟩, _, ⟨-, rfl⟩, _, ⟨hf3, -⟩, -⟩ := h
    rw [blockIters_of_pos hpos, hlast] at hf3
    exact ⟨by rwa [Int.sign_eq_one_of_pos hpos, one_mul], hf3⟩

end

/-! ## Blocks and iterations -/

/-- The block of thread `id` ends at or after the end of the loop. -/
def ReachesEnd (lb bound step : ℤ) (n id : ℕ) : Prop :=
  reach lb bound step ≤ blockIters lb bound step n * (id + 1) * step.natAbs

instance (lb bound step : ℤ) (n id : ℕ) : Decidable (ReachesEnd lb bound step n id) :=
  inferInstanceAs (Decidable (_ ≤ _))

theorem reachesEnd_iff_of_pos (hs : 0 < step) :
    ReachesEnd lb bound step n id ↔ bound ≤ blockStart lb bound step n (id + 1) := by
  unfold ReachesEnd
  rw [Int.natAbs_of_nonneg hs.le, reach, if_pos hs, blockStart, Nat.cast_succ, mul_right_comm]
  omega

theorem reachesEnd_iff_of_neg (hs : step < 0) :
    ReachesEnd lb bound step n id ↔ blockStart lb bound step n (id + 1) ≤ bound := by
  unfold ReachesEnd
  rw [Int.ofNat_natAbs_of_nonpos hs.le, reach, if_neg (by omega), blockStart, Nat.cast_succ,
    mul_right_comm, mul_neg, neg_mul]
  omega

theorem reach_blockStart (hs : step ≠ 0) :
    reach (blockStart lb bound step n id) bound step =
      reach lb bound step - blockIters lb bound step n * id * step.natAbs := by
  unfold reach blockStart
  rcases lt_or_gt_of_ne hs with h | h
  · rw [if_neg (by omega), if_neg (by omega), Int.ofNat_natAbs_of_nonpos h.le]
    ring
  · rw [if_pos h, if_pos h, Int.natAbs_of_nonneg h.le]
    ring

/-- The blocks of a loop whose share does not fit in an `int` are shorter than the share. -/
theorem blockIters_lt (hn : 0 < n) (hs : step ≠ 0) (hfit : BlockFits lb bound step n)
    (hlong : ¬ InInt (step.sign * wideShare lb bound step n)) :
    (0 < reach lb bound step → blockIters lb bound step n * step.natAbs * n < reach lb bound step) ∧
      (reach lb bound step ≤ 0 →
        reach lb bound step ≤ blockIters lb bound step n * step.natAbs * n) := by
  obtain ⟨h0, h1⟩ := hfit.blockSize hs
  have hn' : (0 : ℤ) < n := by exact_mod_cast hn
  have hdm := Int.tmod_add_mul_tdiv (reach lb bound step + n - 1) n
  have hlt := Int.tmod_lt_of_pos (reach lb bound step + n - 1) hn'
  have hgt := Int.lt_tmod_of_pos (reach lb bound step + n - 1) hn'
  have hnn := fun h => Int.tmod_nonneg (a := reach lb bound step + n - 1) n h
  have hnp := fun h => tmod_nonpos (a := reach lb bound step + n - 1) n h
  rw [← wideShare] at hdm
  generalize (reach lb bound step + n - 1).tmod n = r at *
  generalize wideShare lb bound step n = W at *
  rcases lt_or_gt_of_ne hs with hneg | hpos
  · rw [Int.sign_eq_neg_one_of_neg hneg, neg_one_mul] at hlong
    rw [Int.ofNat_natAbs_of_nonpos hneg.le, mul_neg]
    unfold InInt at hlong
    constructor
    · intro h
      have hr := hnn (by omega)
      have hW : 2 ^ 31 + 1 ≤ W := by
        by_contra hc
        have : W < -2 ^ 31 + 1 := by omega
        nlinarith
      nlinarith
    · intro h
      have hW : W ≤ -2 ^ 31 := by
        by_contra hc
        have : 2 ^ 31 < W := by omega
        nlinarith
      have hr := hnp (by nlinarith)
      nlinarith
  · rw [Int.sign_eq_one_of_pos hpos, one_mul] at hlong
    rw [Int.natAbs_of_nonneg hpos.le]
    unfold InInt at hlong
    constructor
    · intro h
      have hr := hnn (by omega)
      have hW : 2 ^ 31 ≤ W := by
        by_contra hc
        have : W < -2 ^ 31 := by omega
        nlinarith
      nlinarith
    · intro h
      have hW : W ≤ -2 ^ 31 - 1 := by
        by_contra hc
        have : 2 ^ 31 ≤ W := by omega
        nlinarith
      have hr := hnp (by nlinarith)
      nlinarith

theorem empty_blocks (hn : 0 < n) (hs : step ≠ 0) (hfit : BlockFits lb bound step n)
    (h : reach lb bound step ≤ 0) (hid : id < n) :
    ReachesEnd lb bound step n id ∧ reach (blockStart lb bound step n id) bound step ≤ 0 := by
  have hlt : (id : ℤ) + 1 ≤ n := by exact_mod_cast hid
  rw [reach_blockStart hs, ReachesEnd, mul_right_comm, mul_right_comm _ (id : ℤ)]
  by_cases hlong : InInt (step.sign * wideShare lb bound step n)
  · obtain ⟨h1, -, h2⟩ := @tdiv_round (reach lb bound step) n (by exact_mod_cast hn)
    obtain ⟨h3, -, h4⟩ := @blockIters_mul lb step bound n hs
    have hshare := share_eq_wideShare hs hlong
    rw [wideShare] at hshare
    rw [hshare] at h3 h4
    have hW := h4 (h2 h)
    set W := blockIters lb bound step n * step.natAbs with hWdef
    have hW0 : W ≤ 0 := mul_nonpos_of_nonpos_of_nonneg hW (by positivity)
    have hreach : reach lb bound step ≤ W * (id + 1) := by nlinarith
    exact ⟨hreach, by linarith⟩
  · have hshort := (blockIters_lt hn hs hfit hlong).2 h
    rcases le_total 0 (blockIters lb bound step n * step.natAbs) with hnn | hnp <;>
      constructor <;> nlinarith

/-- In a loop with iterations every thread gets the next block of the list. -/
theorem nonempty_block (hn : 0 < n) (hs : step ≠ 0) (hlong : ShareFits lb bound step n)
    (h : 0 < reach lb bound step) :
    ∃ w : ℕ, blockIters lb bound step n = w ∧ loopCount lb bound step ≤ n * w ∧
      ∀ id, loopValues (blockStart lb bound step n id)
          (if ReachesEnd lb bound step n id then bound
            else blockStart lb bound step n (id + 1)) step =
        ((loopValues lb bound step).drop (id * w)).take w := by
  obtain ⟨h1, h2⟩ := share_mul hn hs h hlong
  obtain ⟨h3, h4, -⟩ := @blockIters_mul lb step bound n hs
  obtain ⟨w, hw⟩ := Int.eq_ofNat_of_zero_le (h4 h2).le
  refine ⟨w, hw, ?_, fun id => ?_⟩
  · rw [← not_lt, lt_loopCount_iff hs, not_lt]
    rw [hw] at h3
    rw [Nat.cast_mul]
    nlinarith
  · have hstart : blockStart lb bound step n id = lb + (id * w : ℕ) * step := by
      rw [blockStart, hw]
      push_cast
      ring
    have hnext : blockStart lb bound step n (id + 1) = lb + (id * w + w : ℕ) * step := by
      rw [blockStart, hw]
      push_cast
      ring
    have hreaches : ReachesEnd lb bound step n id ↔
        reach lb bound step ≤ (id * w + w : ℕ) * (step.natAbs : ℤ) := by
      rw [ReachesEnd, hw, show (w : ℤ) * (id + 1) = (id * w + w : ℕ) by push_cast; ring]
    rw [← loopValues_block hs, hstart, hnext, blockEnd]
    simp only [hreaches]

theorem blockIters_pos (hn : 0 < n) (hs : step ≠ 0) (hfit : BlockFits lb bound step n)
    (hlong : ShareFits lb bound step n) (hid : id < n)
    (h : ¬ ReachesEnd lb bound step n id) : 0 < blockIters lb bound step n := by
  have hreach : 0 < reach lb bound step := by
    by_contra hc
    exact h (empty_blocks hn hs hfit (not_lt.mp hc) hid).1
  exact (blockIters_mul hs).2.1 (share_mul hn hs hreach hlong).2

theorem staticBschedTid_spec {tp : OmpThread} (hnum : tp.num = id)
    (hpar : tp.parentNumThds = some n) (hn : 2 ≤ n) (hno : NoSumOverflow lb up ubofs step n)
    (hbound : bound = loopBound ubofs up step) (hid : id < n) (hub : ubofs = 0 ∨ ubofs = 1)
    (hs : step ≠ 0) (hfit : BlockFits lb bound step n) (hlong : ShareFits lb bound step n) :
    ∃ tp' up', staticBschedTid tp lb up ubofs step =
        some (tp', blockStart lb bound step n id, up') ∧
      loopBound ubofs up' step = (if ReachesEnd lb bound step n id then bound
        else blockStart lb bound step n (id + 1)) ∧
      (tp'.isLast = true ↔ ReachesEnd lb bound step n id ∧
        if 0 < step then toULL (blockStart lb bound step n id) < toULL bound
        else bound < blockStart lb bound step n id) := by
  have hlb := hno.inLL_start 0 (by omega)
  have hnext := hno.inLL_start (id + 1) hid
  rw [← hbound] at hlb hnext
  rw [blockStart, Nat.cast_zero, mul_zero, add_zero] at hlb
  have hW := @blockIters_pos lb step bound n id (by omega) hs hfit hlong hid
  have hid1 : (0 : ℤ) < (id + 1 : ℕ) := by positivity
  rcases lt_or_gt_of_ne hs with hneg | hpos
  · have hs' : ¬ 0 < step := by omega
    have heq := staticBschedTid_of_neg hnum hpar hn hno hbound hid hneg hfit
    simp only [← reachesEnd_iff_of_neg hneg] at heq
    by_cases hr : ReachesEnd lb bound step n id
    · refine ⟨_, _, by rw [heq, if_pos hr], ?_, ?_⟩
      · rw [if_pos hr, hbound]
      · simp [hr, hs']
    · refine ⟨_, _, by rw [heq, if_neg hr], ?_, ?_⟩
      · have hlt : blockStart lb bound step n (id + 1) < lb := by
          have := mul_neg_of_neg_of_pos (mul_neg_of_pos_of_neg (hW hr) hneg) hid1
          unfold blockStart
          omega
        rw [if_neg hr, loopBound, if_neg hs', toLL_of_inLL, add_sub_cancel_right]
        have := hlb.2
        have := hnext.1
        constructor <;> omega
      · simp [hr]
  · have heq := staticBschedTid_of_pos hnum hpar hn hno hbound hid hpos hfit
    simp only [← reachesEnd_iff_of_pos hpos] at heq
    by_cases hr : ReachesEnd lb bound step n id
    · refine ⟨_, _, by rw [heq, if_pos hr], ?_, ?_⟩
      · rw [if_pos hr, hbound]
      · simp [hr, hpos]
    · refine ⟨_, _, by rw [heq, if_neg hr], ?_, ?_⟩
      · have hlt : lb < blockStart lb bound step n (id + 1) := by
          have := mul_pos (mul_pos (hW hr) hpos) hid1
          unfold blockStart
          omega
        rw [if_neg hr, loopBound, if_pos hpos, toLL_of_inLL, sub_add_cancel]
        have := hlb.1
        have := hnext.2
        constructor <;> omega
      · simp [hr]

/-- The last iteration of the loop is in the block that reaches the end and starts before it. -/
theorem runs_last_iff (hn : 0 < n) (hs : step ≠ 0) (hfit : BlockFits lb bound step n)
    (hlong : ShareFits lb bound step n) (hid : id < n) :
    (∃ x, (loopValues lb bound step).getLast? = some x ∧
        x ∈ loopValues (blockStart lb bound step n id) (if ReachesEnd lb bound step n id then bound
          else blockStart lb bound step n (id + 1)) step) ↔
      ReachesEnd lb bound step n id ∧ 0 < reach (blockStart lb bound step n id) bound step := by
  rcases le_or_gt (reach lb bound step) 0 with h | h
  · have := (empty_blocks hn hs hfit h hid).2
    simp only [loopValues_eq_nil hs h, List.getLast?_nil, reduceCtorEq, false_and, exists_false,
      false_iff]
    omega
  · obtain ⟨w, hw, -, hblock⟩ := nonempty_block hn hs hlong h
    rw [hblock, getLast_mem_block (loopValues_nodup hs), loopValues_length hs, lt_loopCount_iff hs,
      ← not_lt, lt_loopCount_iff hs, not_lt, reach_blockStart hs, ReachesEnd, hw, sub_pos, and_comm]
    push_cast
    rw [add_mul, mul_add_one, mul_comm (id : ℤ), add_mul]

/-- Every block that reaches the end of an increasing loop starts on the same side of zero as
the loop ends. -/
def EndsOnSameSide (lb bound step : ℤ) (n : ℕ) : Prop :=
  0 < step → ∀ id < n, bound ≤ blockStart lb bound step n (id + 1) →
    (0 ≤ blockStart lb bound step n id ↔ 0 ≤ bound)

/-- In a loop whose share does not fit, no thread finds the end in its block. -/
theorem isLast_false_of_long {tp : OmpThread} (hnum : tp.num = id)
    (hpar : tp.parentNumThds = some n) (hn : 2 ≤ n) (hno : NoSumOverflow lb up ubofs step n)
    (hbound : bound = loopBound ubofs up step) (hid : id < n) (hs : step ≠ 0)
    (hfit : BlockFits lb bound step n) (h : 0 < reach lb bound step)
    (hlong : ¬ InInt (step.sign * wideShare lb bound step n)) {o : OmpThread × ℤ × ℤ}
    (hrun : staticBschedTid tp lb up ubofs step = some o) : o.1.isLast = false := by
  have hshort := (blockIters_lt (by omega) hs hfit hlong).1 h
  have hend : ¬ ReachesEnd lb bound step n id := by
    have hlt : (id : ℤ) + 1 ≤ n := by exact_mod_cast hid
    rw [ReachesEnd, mul_right_comm, not_le]
    rcases le_total 0 (blockIters lb bound step n * step.natAbs) with hnn | hnp <;> nlinarith
  rcases lt_or_gt_of_ne hs with hneg | hpos
  · rw [staticBschedTid_of_neg hnum hpar hn hno hbound hid hneg hfit,
      if_neg (mt (reachesEnd_iff_of_neg hneg).mpr hend), Option.some.injEq] at hrun
    rw [← hrun]
  · rw [staticBschedTid_of_pos hnum hpar hn hno hbound hid hpos hfit,
      if_neg (mt (reachesEnd_iff_of_pos hpos).mpr hend), Option.some.injEq] at hrun
    rw [← hrun]

/-- The block schedule is the serial loop exactly when no `int` overflows and, in an
increasing loop, the unsigned test behind `is_last` compares indices of the same sign. -/
theorem blockScheduled_iff {team : ℕ → OmpThread} (hteam : IsTeam n team) (hn : 2 ≤ n)
    (hs : step ≠ 0) (hub : ubofs = 0 ∨ ubofs = 1) (hno : NoSumOverflow lb up ubofs step n) :
    BlockScheduled n team lb up ubofs step ↔
      BlockFits lb (loopBound ubofs up step) step n ∧
        ShareFits lb (loopBound ubofs up step) step n ∧
        EndsOnSameSide lb (loopBound ubofs up step) step n := by
  obtain ⟨bound, hbound⟩ : ∃ bound, bound = loopBound ubofs up step := ⟨_, rfl⟩
  have hn0 : 0 < n := by omega
  have hserial : serialLoop ubofs lb up step = loopValues lb bound step := by
    rw [serialLoop, hbound]
  have hsign : ∀ id < n, 0 < step →
      ((toULL (blockStart lb bound step n id) < toULL bound ↔
        0 < reach (blockStart lb bound step n id) bound step) ↔
      (0 ≤ blockStart lb bound step n id ↔ 0 ≤ bound)) := by
    intro id hid hpos
    have hstart := hno.inLL_start id hid.le
    have hend := hno.inLL_bound
    rw [← hbound] at hstart hend
    rw [← toULL_lt_iff hstart hend, reach, if_pos hpos, sub_pos]
  rw [← hbound]
  constructor
  · rintro ⟨out, hout, hcover, hlast⟩
    obtain ⟨hnum, hpar⟩ := hteam (n - 1) (by omega)
    have hfit := blockFits_of_eq_some hnum hpar hn hno hbound hs rfl (hout (n - 1) (by omega))
    have hlong : ShareFits lb bound step n := by
      intro h
      by_contra hlong
      -- the thread that runs the last iteration does not mark it
      have hne : serialLoop ubofs lb up step ≠ [] := by
        rw [hserial, ← List.length_pos_iff_ne_nil, loopValues_length hs, lt_loopCount_iff hs]
        simpa using h
      obtain ⟨x, hx⟩ := Option.isSome_iff_exists.mp (List.getLast?_isSome.mpr hne)
      have hmem := List.mem_of_getLast? hx
      rw [← hcover, List.mem_flatMap] at hmem
      obtain ⟨id, hid, hrun⟩ := hmem
      have hid := List.mem_range.mp hid
      obtain ⟨hnum, hpar⟩ := hteam id hid
      have hmark := (hlast id hid).mpr ⟨x, hx, hrun⟩
      rw [isLast_false_of_long hnum hpar hn hno hbound hid hs hfit h hlong (hout id hid)] at hmark
      cases hmark
    refine ⟨hfit, hlong, fun hpos id hid hreach => ?_⟩
    obtain ⟨hnum, hpar⟩ := hteam id hid
    obtain ⟨tp', up', hrun, hcut, hflag⟩ :=
      staticBschedTid_spec hnum hpar hn hno hbound hid hub hs hfit hlong
    rw [← reachesEnd_iff_of_pos hpos] at hreach
    have hid' := hlast id hid
    rw [hserial, Option.some_inj.mp ((hout id hid).symm.trans hrun), serialLoop, hcut,
      runs_last_iff hn0 hs hfit hlong hid, hflag] at hid'
    simpa only [hreach, true_and, if_pos hpos, hsign id hid hpos] using hid'
  · rintro ⟨hfit, hlong, hside⟩
    have hrun : ∀ id, ∃ o : OmpThread × ℤ × ℤ, id < n →
        staticBschedTid (team id) lb up ubofs step = some o ∧
        o.2.1 = blockStart lb bound step n id ∧
        loopBound ubofs o.2.2 step = (if ReachesEnd lb bound step n id then bound
          else blockStart lb bound step n (id + 1)) ∧
        (o.1.isLast = true ↔ ReachesEnd lb bound step n id ∧
          0 < reach (blockStart lb bound step n id) bound step) := by
      intro id
      by_cases hid : id < n
      · obtain ⟨hnum, hpar⟩ := hteam id hid
        obtain ⟨tp', up', hrun, hcut, hflag⟩ :=
          staticBschedTid_spec hnum hpar hn hno hbound hid hub hs hfit hlong
        refine ⟨_, fun _ => ⟨hrun, rfl, hcut, hflag.trans ?_⟩⟩
        apply and_congr_right
        intro hreach
        by_cases hpos : 0 < step
        · rw [if_pos hpos]
          rw [reachesEnd_iff_of_pos hpos] at hreach
          exact (hsign id hid hpos).mpr (hside hpos id hid hreach)
        · rw [if_neg hpos, reach, if_neg hpos, sub_pos]
      · exact ⟨(team id, 0, 0), fun h => absurd h hid⟩
    choose out hout using hrun
    have hloop : ∀ id < n, serialLoop ubofs (out id).2.1 (out id).2.2 step =
        loopValues (blockStart lb bound step n id) (if ReachesEnd lb bound step n id then bound
          else blockStart lb bound step n (id + 1)) step := by
      intro id hid
      rw [serialLoop, (hout id hid).2.1, (hout id hid).2.2.1]
    refine ⟨out, fun id hid => (hout id hid).1, ?_, fun id hid => ?_⟩
    · rw [hserial]
      rcases le_or_gt (reach lb bound step) 0 with h | h
      · rw [loopValues_eq_nil hs h, List.flatMap_eq_nil_iff]
        intro id hid
        have hid := List.mem_range.mp hid
        obtain ⟨hr, hstart⟩ := empty_blocks hn0 hs hfit h hid
        rw [hloop id hid, if_pos hr, loopValues_eq_nil hs hstart]
      · obtain ⟨w, -, hcount, hblock⟩ := nonempty_block hn0 hs hlong h
        calc (List.range n).flatMap (fun id => serialLoop ubofs (out id).2.1 (out id).2.2 step)
            = (List.range n).flatMap fun id =>
              ((loopValues lb bound step).drop (id * w)).take w := by
              apply List.flatMap_congr
              intro id hid
              rw [hloop id (List.mem_range.mp hid), hblock]
          _ = (loopValues lb bound step).take (n * w) := flatMap_blocks _ _ _
          _ = loopValues lb bound step := by
              rw [List.take_of_length_le]
              rwa [loopValues_length hs]
    · rw [(hout id hid).2.2.2, hloop id hid, hserial, runs_last_iff hn0 hs hfit hlong hid]

/-- A team whose threads have run no loop yet. -/
def freshTeam (n id : ℕ) : OmpThread := ⟨id, some n, 0, 0, 0, 0, false⟩

theorem isTeam_freshTeam (n : ℕ) : IsTeam n (freshTeam n) := fun _ _ => ⟨rfl, rfl⟩

/-- `for (i = -12; i < -2; i += 3)` on four threads. -/
theorem blockScheduled_below_zero :
    NoSumOverflow (-12) (-2) 0 3 4 ∧ BlockScheduled 4 (freshTeam 4) (-12) (-2) 0 3 := by
  have hno : NoSumOverflow (-12) (-2) 0 3 4 := ⟨by decide, by decide, by decide, by decide⟩
  refine ⟨hno,
    (blockScheduled_iff (isTeam_freshTeam 4) (by decide) (by decide) (Or.inl rfl) hno).mpr
    ⟨⟨by decide, by decide⟩, fun _ => by decide, ?_⟩⟩
  unfold EndsOnSameSide
  decide

/-- `for (i = -10; i < 5; i++)` on two threads: the second runs `-2, ..., 4` and finds the end
`5` below its first index, read as unsigned numbers. -/
theorem blockSchedule_no_last :
    NoSumOverflow (-10) 5 0 1 2 ∧ ¬ BlockScheduled 2 (freshTeam 2) (-10) 5 0 1 := by
  refine ⟨⟨by decide, by decide, by decide, by decide⟩, ?_⟩
  rintro ⟨out, hout, -, hlast⟩
  have hrun : staticBschedTid (freshTeam 2 1) (-10) 5 0 1 = some (freshTeam 2 1, -2, 5) := by decide
  have hflag := hlast 1 (by decide)
  rw [Option.some_inj.mp ((hout 1 (by decide)).symm.trans hrun)] at hflag
  have hruns : ∃ x, (serialLoop 0 (-10) 5 1).getLast? = some x ∧ x ∈ serialLoop 0 (-2) 5 1 :=
    ⟨4, by decide⟩
  have : (freshTeam 2 1).isLast = true := hflag.mpr hruns
  exact absurd this (by decide)

end OmniCompiler.Omp
