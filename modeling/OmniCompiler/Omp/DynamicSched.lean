import OmniCompiler.Omp.StaticChunk

/-!
# Chunks of dynamic and guided schedules (`ompc_runtime.c`)

The shared index of a dynamic or guided loop runs through the same values
whichever threads fetch them: each fetch adds the chunk length that belongs to
the current value. The chunks cut between these values, up to the first one
past the loop end, are the whole loop.
-/
namespace OmniCompiler.Omp

open MachineInt ForLoop

/-- The arguments of `ompc_dynamic_sched_init_tid` and the flag `guided` of the calls of
`ompc_dynamic_sched_next_tid`. -/
structure DynLoop where
  lb : ℤ
  up : ℤ
  ubofs : ℤ
  step : ℤ
  chunkSize : ℤ
  guided : Bool

namespace DynLoop

variable (L : DynLoop) (n : ℕ)

def loopEnd : ℤ := L.up + L.ubofs

/-- `tp->loop_chunk_size`. -/
def chunk : ℤ := toInt (L.chunkSize * L.step)

/-- What a fetch adds to `dynamic_index = b`; the lengths of guided chunks are `int`. Sums and
quotients are written as they wrap. -/
def fetchLen (b : ℤ) : ℤ :=
  if L.guided then
    let c := L.chunk
    let l := toInt ((toLL (L.loopEnd - b)).tdiv n)
    let l := toInt (toInt ((toInt (l + c)).tdiv c) * c)
    if 0 < c then if c > l then c else l else if c < l then c else l
  else L.chunk

/-- The length of a guided chunk at `b` is computed without overflow. -/
def LenInInt (b : ℤ) : Prop :=
  let c := L.chunk
  let l := toInt ((toLL (L.loopEnd - b)).tdiv n)
  InInt (l + c) ∧ InInt ((l + c).tdiv c)

instance (b : ℤ) : Decidable (L.LenInInt n b) := inferInstanceAs (Decidable (_ ∧ _))

/-- `dynamic_index` after `j` fetches. -/
def index : ℕ → ℤ
  | 0 => L.lb
  | j + 1 => index j + L.fetchLen n (index j)

/-- The comparison with the loop end in the direction of the chunks. -/
def IsPast (x : ℤ) : Prop := Past L.chunk L.loopEnd x

instance : DecidablePred L.IsPast := fun x => inferInstanceAs (Decidable (Past _ _ x))

/-- What `ompc_dynamic_sched_next_tid` stores in `*lb` and `*up` for the fetch of `b` and `e`. -/
def bounds (b e : ℤ) : ℤ × ℤ := (toLL b, toLL ((if L.IsPast e then L.loopEnd else e) - L.ubofs))

/-- The chunk of fetch `j`. -/
def chunkOf (j : ℕ) : ℤ × ℤ := L.bounds (L.index n j) (L.index n (j + 1))

/-- The iterations of a chunk as the calling loop runs them. -/
def iters (chunk : ℤ × ℤ) : List ℤ := serialLoop L.ubofs chunk.1 chunk.2 L.step

/-- Iterations of the whole loop. -/
def serial : List ℤ := serialLoop L.ubofs L.lb L.up L.step

/-- The index gets past the end with fetch `J`, not before, and stays past it for a fetch of
every thread. -/
structure Ends (J : ℕ) : Prop where
  pos : 0 < J
  before : ∀ j < J, ¬ L.IsPast (L.index n j)
  after : ∀ i ≤ n, L.IsPast (L.index n (J + i))

variable {L n}

theorem index_succ (j : ℕ) : L.index n (j + 1) = L.index n j + L.fetchLen n (L.index n j) := rfl

/-- Rounding an `int` to a multiple of a chunk stays within `int`, apart from the quotient of
`-2 ^ 31` and `-1`, which wraps around twice. -/
theorem toInt_tdiv_mul {x c : ℤ} (hx : InInt x) :
    toInt (toInt (x.tdiv c) * c) = x.tdiv c * c ∨
      c = -1 ∧ toInt (toInt (x.tdiv c) * c) = -2 ^ 31 := by
  have hle := Int.natAbs_tdiv_le_natAbs x c
  have hmod : (x.tmod c).natAbs ≤ x.natAbs := by
    rw [Int.natAbs_tmod]
    exact Nat.mod_le _ _
  have hsum := Int.tmod_add_tdiv_mul x c
  have hmul : (x.tdiv c * c).natAbs ≤ x.natAbs := by
    rw [Int.natAbs_mul, Int.natAbs_tdiv]
    exact Nat.div_mul_le_self _ _
  obtain ⟨hx0, hx1⟩ := hx
  by_cases hq : x.tdiv c = 2 ^ 31
  · right
    have hc0 : c ≠ 0 := by
      intro hc0
      rw [hc0, Int.tdiv_zero] at hq
      norm_num at hq
    rw [hq] at hmul hsum
    have hc : c = -1 := by omega
    rw [hq, hc]
    exact ⟨rfl, by decide⟩
  · left
    rw [toInt_of_inInt (x := x.tdiv c) ⟨by omega, by omega⟩]
    apply toInt_of_inInt
    exact ⟨by omega, by omega⟩

theorem exists_fetchLen (hc : L.chunk ≠ 0) (b : ℤ) :
    ∃ q : ℕ, 0 < q ∧ L.fetchLen n b = q * L.chunk := by
  have hone : ∃ q : ℕ, 0 < q ∧ L.chunk = q * L.chunk := ⟨1, Nat.one_pos, by simp⟩
  rw [fetchLen]
  split_ifs with hg
  · dsimp only
    generalize hx : toInt (toInt ((toLL (L.loopEnd - b)).tdiv n) + L.chunk) = x
    obtain hround | ⟨hone', hround⟩ := @toInt_tdiv_mul x L.chunk (hx ▸ inInt_toInt _)
    · rw [hround]
      have hq : 0 < x.tdiv L.chunk →
          ∃ q : ℕ, 0 < q ∧ x.tdiv L.chunk * L.chunk = q * L.chunk := by
        intro hpos
        exact ⟨(x.tdiv L.chunk).toNat, by omega, by rw [Int.toNat_of_nonneg hpos.le]⟩
      split_ifs with hpos hlt hlt
      · exact hone
      · apply hq
        nlinarith
      · exact hone
      · apply hq
        have : L.chunk < 0 := by omega
        nlinarith
    · rw [hround, hone']
      exact ⟨2 ^ 31, by norm_num, by norm_num⟩
  · exact hone

/-! ## Chunks in iterations -/

/-- Iterations before fetch `j`. -/
def position (L : DynLoop) (n j : ℕ) : ℕ := ((L.index n j - L.lb) / L.step).toNat

def Beyond (L : DynLoop) (x : ℤ) : Prop := if 0 < L.step then L.loopEnd ≤ x else x ≤ L.loopEnd

instance : DecidablePred L.Beyond := fun _ => inferInstanceAs (Decidable (ite _ _ _))

/-- A loop with at least one iteration whose bounds are not negative. Counting down, the index
does not get below zero within a fetch of every thread after the last chunk, and a loop whose
bound is inclusive has one chunk. The lengths of all guided chunks up to there are `int`s. -/
structure Fits (n : ℕ) (L : DynLoop) : Prop where
  step_ne : L.step ≠ 0
  chunkSize_pos : 1 ≤ L.chunkSize
  chunk : InInt (L.chunkSize * L.step)
  lb : 0 ≤ L.lb ∧ L.lb < 2 ^ 63
  loopEnd : 0 ≤ L.loopEnd ∧ L.loopEnd < 2 ^ 63
  nonempty : ¬ L.Beyond L.lb
  room : L.step < 0 → ∀ j, ¬ L.Beyond (L.index n j) → 0 ≤ L.index n (j + 1 + n)
  ubofs : L.ubofs = 0 ∨ L.ubofs = 1
  bound : L.step < 0 → L.ubofs = 0 ∨ L.Beyond (L.index n 1)
  guided : L.guided = true → ∀ j, ¬ L.Beyond (L.index n j) → ∀ i ≤ j + n, L.LenInInt n (L.index n i)

section Fits

variable (h : L.Fits n)
include h

theorem chunk_eq : L.chunk = L.chunkSize * L.step := toInt_of_inInt h.chunk

theorem chunk_ne_zero : L.chunk ≠ 0 := by
  have := h.chunkSize_pos
  rw [chunk_eq h]
  exact mul_ne_zero (by omega) h.step_ne

theorem chunk_pos_iff : 0 < L.chunk ↔ 0 < L.step := by
  have := h.chunkSize_pos
  rw [chunk_eq h]
  exact mul_pos_iff_of_pos_left (by omega)

theorem exists_iters (j : ℕ) : ∃ w : ℕ, 0 < w ∧ L.index n (j + 1) = L.index n j + w * L.step := by
  obtain ⟨q, hq, hlen⟩ := exists_fetchLen (n := n) (chunk_ne_zero h) (L.index n j)
  have := h.chunkSize_pos
  refine ⟨q * L.chunkSize.toNat, Nat.mul_pos hq (by omega), ?_⟩
  rw [index, hlen, chunk_eq h]
  push_cast
  rw [Int.toNat_of_nonneg (by omega)]
  ring

theorem index_eq (j : ℕ) : L.index n j = L.lb + L.position n j * L.step := by
  have hex : ∃ k : ℕ, L.index n j = L.lb + k * L.step := by
    induction j with
    | zero => exact ⟨0, by simp [index]⟩
    | succ j ih =>
      obtain ⟨k, hk⟩ := ih
      obtain ⟨w, -, hw⟩ := exists_iters h j
      refine ⟨k + w, ?_⟩
      rw [hw, hk]
      push_cast
      ring
  obtain ⟨k, hk⟩ := hex
  have hpos : L.position n j = k := by
    rw [position, hk, add_sub_cancel_left, Int.mul_ediv_cancel _ h.step_ne]
    rfl
  rw [hpos, hk]

omit h in
theorem position_zero : L.position n 0 = 0 := by
  simp [position, index]

theorem position_lt_succ (j : ℕ) : L.position n j < L.position n (j + 1) := by
  obtain ⟨w, hw, hidx⟩ := exists_iters h j
  rw [index_eq h, index_eq h j] at hidx
  have : (L.position n (j + 1) : ℤ) = L.position n j + w :=
    mul_right_cancel₀ h.step_ne (by linarith)
  omega

theorem le_position (j : ℕ) : j ≤ L.position n j := by
  induction j with
  | zero => exact Nat.zero_le _
  | succ j ih => exact (Nat.lt_of_le_of_lt ih (position_lt_succ h j))

theorem position_mono {i j : ℕ} (hij : i ≤ j) : L.position n i ≤ L.position n j :=
  monotone_nat_of_le_succ (fun j => (position_lt_succ h j).le) hij

theorem beyond_index_iff (j : ℕ) :
    L.Beyond (L.index n j) ↔ loopCount L.lb L.loopEnd L.step ≤ L.position n j := by
  have hcont := @continues_iff L.lb L.loopEnd L.step (L.position n j)
  rw [← not_lt, lt_loopCount_iff h.step_ne, ← hcont, index_eq h, Beyond]
  split_ifs <;> simp

theorem exists_last : ∃ J, 0 < J ∧ (∀ j < J, ¬ L.Beyond (L.index n j)) ∧
    ∀ j, J ≤ j → L.Beyond (L.index n j) := by
  have hex : ∃ J, L.Beyond (L.index n J) :=
    ⟨_, (beyond_index_iff h _).mpr (le_position h (loopCount L.lb L.loopEnd L.step))⟩
  refine ⟨Nat.find hex, ?_, ?_, ?_⟩
  · apply Nat.pos_of_ne_zero
    intro h0
    have hf := Nat.find_spec hex
    rw [h0] at hf
    exact h.nonempty hf
  · intro j hj
    exact Nat.find_min hex hj
  · intro j hj
    have hf := (beyond_index_iff h _).mp (Nat.find_spec hex)
    exact (beyond_index_iff h _).mpr (hf.trans (position_mono h hj))

omit h in
theorem fetchLen_le (b : ℤ) : L.fetchLen n b ≤ 2 ^ 31 := by
  have hall : ∀ x, toInt x ≤ 2 ^ 31 := fun x => (inInt_toInt x).2.le
  rw [fetchLen]
  dsimp only
  split_ifs <;> exact hall _

/-- Within a fetch of every thread after the last chunk, the index is an address. -/
theorem index_range (hn : n < 2 ^ 31) {j : ℕ} (hj : ¬ L.Beyond (L.index n j)) {i : ℕ}
    (hi : i ≤ j + 1 + n) : 0 ≤ L.index n i ∧ L.index n i < 2 ^ 64 := by
  have hmono := position_mono h hi
  have hlb := h.lb
  have hend := h.loopEnd
  obtain hs | hs := lt_or_gt_of_ne h.step_ne
  · have hroom := h.room hs j hj
    rw [index_eq h] at hroom ⊢
    constructor <;> nlinarith
  · rw [Beyond, if_pos hs] at hj
    have hlen : ∀ m, L.index n (j + m) < 2 ^ 63 + m * 2 ^ 31 := by
      intro m
      induction m with
      | zero =>
        rw [add_zero]
        push_cast
        omega
      | succ m ih =>
        have := @fetchLen_le L n (L.index n (j + m))
        rw [← add_assoc, index]
        push_cast
        omega
    have hlast := hlen (1 + n)
    rw [← add_assoc, index_eq h] at hlast
    rw [index_eq h]
    push_cast at hlast
    constructor <;> nlinarith

theorem isPast_iff {x : ℤ} (hx : 0 ≤ x ∧ x < 2 ^ 64) : L.IsPast x ↔ L.Beyond x := by
  have hend := h.loopEnd
  rw [IsPast, Past, Beyond, toULL_of_nonneg hx.1 hx.2, toULL_of_nonneg hend.1 (by omega)]
  simp only [chunk_pos_iff h]

theorem ends_of_beyond (hn : n < 2 ^ 31) {J : ℕ} (hJ : 0 < J)
    (hbefore : ∀ j < J, ¬ L.Beyond (L.index n j)) (hafter : ∀ j, J ≤ j → L.Beyond (L.index n j)) :
    L.Ends n J := by
  have hlast := hbefore (J - 1) (by omega)
  have hpast : ∀ i ≤ J + n, L.IsPast (L.index n i) ↔ L.Beyond (L.index n i) := by
    intro i hi
    exact isPast_iff h (index_range h hn hlast (by omega))
  refine ⟨hJ, ?_, ?_⟩
  · intro j hj
    rw [hpast j (by omega)]
    exact hbefore j hj
  · intro i hi
    rw [hpast (J + i) (by omega)]
    exact hafter _ (by omega)

theorem index_inLL {j : ℕ} (hj : ¬ L.Beyond (L.index n j)) : InLL (L.index n j) := by
  have hlb := h.lb
  have hend := h.loopEnd
  have hidx := @index_eq L n h j
  have hle : (0 : ℤ) ≤ L.position n j := by positivity
  rw [Beyond] at hj
  obtain hs | hs := lt_or_gt_of_ne h.step_ne
  · rw [if_neg (by omega)] at hj
    constructor <;> nlinarith
  · rw [if_pos hs] at hj
    constructor <;> nlinarith

theorem chunkOf_eq (hn : n < 2 ^ 31) {j : ℕ} (hj : ¬ L.Beyond (L.index n j)) :
    L.chunkOf n j = (L.index n j,
      (if L.Beyond (L.index n (j + 1)) then L.loopEnd else L.index n (j + 1)) - L.ubofs) := by
  have hub := h.ubofs
  have hend := h.loopEnd
  rw [chunkOf, bounds, toLL_of_inLL (index_inLL h hj)]
  simp only [isPast_iff h (index_range h hn hj (show j + 1 ≤ j + 1 + n by omega))]
  congr 1
  apply toLL_of_inLL
  split_ifs with hb
  · constructor <;> omega
  · have := index_inLL h hb
    have h0 := (index_range h hn hj (show j + 1 ≤ j + 1 + n by omega)).1
    obtain ⟨h1, h2⟩ := this
    constructor <;> omega

theorem flatMap_chunkOf (hn : n < 2 ^ 31) {J : ℕ} (hJ : 0 < J)
    (hbefore : ∀ j < J, ¬ L.Beyond (L.index n j)) (hafter : ∀ j, J ≤ j → L.Beyond (L.index n j)) :
    (List.range J).flatMap (fun j => L.iters (L.chunkOf n j)) = L.serial := by
  by_cases hb : 0 < L.step ∨ L.ubofs = 0
  · -- the end of the code is the bound of the loop
    have hbound : ∀ x, loopBound L.ubofs (x - L.ubofs) L.step = x := by
      intro x
      rw [loopBound]
      split_ifs with hs
      · ring
      · rw [hb.resolve_left hs]
        ring
    have hserial : L.serial = loopValues L.lb L.loopEnd L.step := by
      have := hbound L.loopEnd
      rw [serial, serialLoop, ← this]
      simp [loopEnd]
    have hchunk : ∀ j < J, L.iters (L.chunkOf n j) =
        (L.serial.drop (L.position n j)).take (L.position n (j + 1) - L.position n j) := by
      intro j hj
      have hlt := @position_lt_succ L n h j
      rw [chunkOf_eq h hn (hbefore j hj), iters, serialLoop, hbound, hserial,
        ← loopValues_block h.step_ne, ← index_eq h, blockEnd, Nat.add_sub_cancel' hlt.le,
        ← index_eq h]
      have hiff := beyond_index_iff h (j + 1)
      rw [← not_lt, lt_loopCount_iff h.step_ne, not_lt] at hiff
      simp only [hiff]
    have htake : ∀ j ≤ J, (List.range j).flatMap (fun j => L.iters (L.chunkOf n j)) =
        L.serial.take (L.position n j) := by
      intro j hj
      induction j with
      | zero => simp [position_zero]
      | succ j ih =>
        have hlt := @position_lt_succ L n h j
        rw [List.range_succ, List.flatMap_append, ih (by omega), List.flatMap_singleton,
          hchunk j (by omega), ← List.take_add, Nat.add_sub_cancel' hlt.le]
    rw [htake J le_rfl, List.take_of_length_le]
    rw [hserial, loopValues_length h.step_ne]
    exact (beyond_index_iff h J).mp (hafter J le_rfl)
  · have hs : L.step < 0 := by
      have := h.step_ne
      omega
    have h1 := (h.bound hs).resolve_left (by tauto)
    obtain rfl : J = 1 := by
      by_contra hne
      exact hbefore 1 (by omega) h1
    have hlb : L.index n 0 = L.lb := rfl
    simp [chunkOf_eq h hn (hbefore 0 hJ), h1, iters, serial, loopEnd, hlb]

end Fits

end DynLoop

end OmniCompiler.Omp
