import OmniCompiler.Arithmetic.ForLoop
import OmniCompiler.Memory.ShareRounds
import OmniCompiler.Xmp.ArrayParts

/-!
# Reflecting a full shadow (`xmp_shadow.c`)

With a full shadow every node of a line has room for all indices of the dimension. In
`_XMP_reflect_shadow_FULL_BCAST` each rank of the line broadcasts the part that it holds. The
receivers do not ask the root for its range: they compute it from the chunk width of the template
and their own bounds, and they expect as many elements as they hold themselves.
-/
namespace OmniCompiler.Xmp

open MachineInt ForLoop Memory SmallFin

variable {k d n : ℕ}

structure LocalTriplet where
  lower : ℤ
  upper : ℤ
  stride : ℤ
  deriving DecidableEq, Repr

namespace LocalTriplet

def width (tr : LocalTriplet) : ℤ := countTriplet tr.lower tr.upper tr.stride

def positions (tr : LocalTriplet) : List ℤ := loopValues tr.lower (tr.upper + 1) tr.stride

theorem mem_positions {tr : LocalTriplet} (hs : 0 < tr.stride) {p : ℤ} :
    p ∈ tr.positions ↔ tr.lower ≤ p ∧ p ≤ tr.upper ∧ tr.stride ∣ p - tr.lower := by
  rw [positions, mem_loopValues_of_pos hs, Int.lt_add_one_iff]

end LocalTriplet

section Code

variable (array : XmpArray k d n) (arrayIndex : Fin k)

def packTriplet : LocalTriplet :=
  let ai := array.info arrayIndex
  ⟨ai.localLower, ai.localUpper, ai.localStride⟩

/-- The number of elements for one position of the dimension. -/
def rowSize : ℤ := ∏ i ∈ Finset.univ.erase arrayIndex, (array.info i).allocSize

/-- `count`, the product of the widths of all dimensions. -/
def bcastCount : ℤ :=
  ∏ i, if i = arrayIndex then (packTriplet array i).width else (array.info i).allocSize

/-- `unpack_lower`, `unpack_upper` and `stride` for the part of rank `i`. -/
def unpackTriplet (size i : ℕ) : Option LocalTriplet :=
  let ai := array.info arrayIndex
  ai.alignTemplateIndex.bind fun t =>
    let chunkWidth := (array.alignTemplate.chunk t).parChunkWidth
    match ai.alignManner with
    | .block =>
      let unpackLower := i * chunkWidth
      let unpackUpper := if (i : ℤ) = size - 1 then ai.serUpper - ai.serLower
        else unpackLower + chunkWidth - 1
      some ⟨unpackLower, unpackUpper, ai.localStride⟩
    | .cyclic =>
      let cycle := ai.parStride
      let mod := ai.serUpper.tmod cycle
      let unpackUpper := if (i : ℤ) > mod then i + cycle * (chunkWidth - 2)
        else i + cycle * (chunkWidth - 1)
      some ⟨i, unpackUpper, ai.localStride⟩
    | _ => none

/-- One broadcast; a cell stands for all elements at its position. A broadcast needs the same count
on all ranks, and other formats end the program. -/
def bcastRound {ρ : Type*} {S : ℕ} (comm : Fin S → XmpArray k d n) (i : Fin S)
    (mems : Fin S → ℤ → ρ) : Option (Fin S → ℤ → ρ) :=
  if (∀ r, bcastCount (comm r) arrayIndex = bcastCount (comm i) arrayIndex) ∧
      ∀ r, r ≠ i → (unpackTriplet (comm r) arrayIndex S i).isSome then
    some (shareRound (packTriplet (comm i) arrayIndex).positions
      (fun r => (unpackTriplet (comm r) arrayIndex S i).elim [] LocalTriplet.positions) i mems)
  else none

/-- `_XMP_reflect_shadow_FULL_BCAST` on all ranks of the communicator. -/
def reflectShadowFullBcast {ρ : Type*} {S : ℕ} (comm : Fin S → XmpArray k d n)
    (mems : Fin S → ℤ → ρ) : Option (Fin S → ℤ → ρ) :=
  (List.finRange S).foldlM (fun mems i => bcastRound arrayIndex comm i mems) mems

end Code

theorem bcastCount_eq (array : XmpArray k d n) (arrayIndex : Fin k) :
    bcastCount array arrayIndex = (packTriplet array arrayIndex).width *
      rowSize array arrayIndex := by
  rw [bcastCount, rowSize, ← Finset.mul_prod_erase Finset.univ _ (Finset.mem_univ arrayIndex),
    if_pos rfl]
  congr 1
  apply Finset.prod_congr rfl
  intro i hi
  rw [if_neg (Finset.ne_of_mem_erase hi)]

/-! ## Parts of a `block` dimension -/

section Block

variable {S : ℕ} {w o N : ℤ}

/-- The positions of the elements that rank `i` holds when the array starts at position `o` of the
first block. -/
def BlockHeld (w o N : ℤ) (i : ℕ) (p : ℤ) : Prop :=
  0 ≤ p ∧ p < N ∧ i * w - o ≤ p ∧ p < i * w - o + w

def blockUnpack (w N : ℤ) (S i : ℕ) : LocalTriplet :=
  ⟨i * w, if (i : ℤ) = S - 1 then N - 1 else i * w + w - 1, 1⟩

theorem block_positions_iff (hw : 0 < w) (ho : 0 ≤ o) (how : o < w) (hlast : (S - 1) * w - o < N)
    (hN : N ≤ S * w - o) : (∀ i r : Fin S, r ≠ i → ∀ p,
      p ∈ (blockUnpack w N S i).positions ↔ BlockHeld w o N i p) ↔ S ≤ 1 ∨ o = 0 := by
  constructor
  · intro h
    by_cases hS : S ≤ 1
    · exact Or.inl hS
    right
    have hone := h ⟨1, by omega⟩ ⟨0, by omega⟩ (by simp [Fin.ext_iff]) (w - o)
    rw [LocalTriplet.mem_positions one_pos] at hone
    have hheld : BlockHeld w o N 1 (w - o) := by
      have hfirst : 1 * w ≤ ((S : ℤ) - 1) * w := by
        apply mul_le_mul_of_nonneg_right _ hw.le
        omega
      refine ⟨by omega, by omega, ?_, ?_⟩
      · push_cast
        omega
      · push_cast
        omega
    have hlow := (hone.mpr hheld).1
    simp only [blockUnpack, Nat.cast_one, one_mul] at hlow
    omega
  · rintro (hS | rfl) i r hri p
    · exact absurd (Fin.ext (by omega)) hri
    rw [LocalTriplet.mem_positions one_pos, BlockHeld]
    have hi : (i : ℤ) * w ≤ ((S : ℤ) - 1) * w := by
      apply mul_le_mul_of_nonneg_right _ hw.le
      omega
    have h0 : 0 ≤ (i : ℤ) * w := by positivity
    simp only [blockUnpack, one_dvd, and_true, sub_zero] at *
    split_ifs with hlasti
    · have hend : (i : ℤ) * w + w = S * w := by
        rw [hlasti]
        ring
      omega
    · have hnext : ((i : ℤ) + 1) * w ≤ ((S : ℤ) - 1) * w := by
        apply mul_le_mul_of_nonneg_right _ hw.le
        omega
      rw [add_one_mul] at hnext
      omega

/-- The width of the part of rank `i`. -/
def blockWidth (w o N : ℤ) (i : ℕ) : ℤ := min (N - 1) (i * w - o + w - 1) - max 0 (i * w - o) + 1

theorem block_widths_iff (hw : 0 < w) (hS : 1 < S) (hlast : (S - 1) * w < N) (hN : N ≤ S * w) :
    (∀ i r : Fin S, blockWidth w 0 N r = blockWidth w 0 N i) ↔ w ∣ N := by
  constructor
  · intro h
    have hends := h ⟨0, by omega⟩ ⟨S - 1, by omega⟩
    have hcast : ((S - 1 : ℕ) : ℤ) = S - 1 := by omega
    have hone : 1 * w ≤ ((S : ℤ) - 1) * w := by
      apply mul_le_mul_of_nonneg_right _ hw.le
      omega
    have hsucc : ((S : ℤ) - 1) * w + w = S * w := by ring
    simp only [blockWidth, hcast, Nat.cast_zero, zero_mul] at hends
    have hfull : N = S * w := by omega
    exact hfull ▸ dvd_mul_left w _
  · rintro ⟨m, rfl⟩ i r
    have hm : m = S := by
      have h₁ : ((S : ℤ) - 1) < m := by
        apply lt_of_mul_lt_mul_right _ hw.le
        rwa [mul_comm m]
      have h₂ : m ≤ S := by
        apply le_of_mul_le_mul_right _ hw
        rwa [mul_comm m]
      omega
    subst hm
    have hfull : ∀ i : Fin S, blockWidth w 0 (w * S) i = w := by
      intro i
      have hi : ((i : ℤ) + 1) * w ≤ (S : ℤ) * w := by
        apply mul_le_mul_of_nonneg_right _ hw.le
        omega
      have h0 : 0 ≤ (i : ℤ) * w := by positivity
      rw [blockWidth, mul_comm w]
      rw [add_one_mul] at hi
      omega
    rw [hfull, hfull]

end Block

/-! ## Parts of a `cyclic` dimension -/

section Cyclic

variable {S : ℕ} {P off N q u : ℤ}

/-- The positions of the elements that rank `i` holds when the array starts at position `off` of
the template. -/
def CyclicHeld (P off N : ℤ) (i : ℕ) (p : ℤ) : Prop := 0 ≤ p ∧ p < N ∧ P ∣ p + off - i

def cyclicUnpack (P q u : ℤ) (i : ℕ) : LocalTriplet :=
  ⟨i, if (i : ℤ) > u then i + P * (q - 2) else i + P * (q - 1), P⟩

/-- The number of elements that are unpacked for rank `i`. -/
def cyclicCount (q u : ℤ) (i : ℕ) : ℤ := if (i : ℤ) > u then q - 1 else q

theorem mem_cyclicUnpack (hP : 0 < P) {i : ℕ} {p : ℤ} : p ∈ (cyclicUnpack P q u i).positions ↔
    ∃ x, 0 ≤ x ∧ x < cyclicCount q u i ∧ p = i + P * x := by
  have hupper : (cyclicUnpack P q u i).upper = i + P * (cyclicCount q u i - 1) := by
    simp only [cyclicUnpack, cyclicCount]
    split_ifs
    · ring
    · rfl
  rw [LocalTriplet.mem_positions (show 0 < (cyclicUnpack P q u i).stride from hP), hupper]
  constructor
  · rintro ⟨hlow, hup, x, hx⟩
    have hp : p = i + P * x := by
      have hx' : p - i = P * x := hx
      omega
    refine ⟨x, ?_, ?_, hp⟩
    · have h0 : 0 ≤ P * x := by
        have hlow' : (i : ℤ) ≤ p := hlow
        omega
      exact nonneg_of_mul_nonneg_right h0 hP
    · rw [hp, add_le_add_iff_left] at hup
      have hle := le_of_mul_le_mul_left hup hP
      omega
  · rintro ⟨x, h0, hx, rfl⟩
    refine ⟨?_, ?_, ⟨x, ?_⟩⟩
    · show (i : ℤ) ≤ i + P * x
      have := mul_nonneg hP.le h0
      omega
    · rw [add_le_add_iff_left]
      apply mul_le_mul_of_nonneg_left _ hP.le
      omega
    · show (i : ℤ) + P * x - i = P * x
      ring

theorem cyclicHeld_iff (hP : 0 < P) (hoff : P ∣ off) {i : ℕ} (hi : (i : ℤ) < P) {p : ℤ} :
    CyclicHeld P off N i p ↔ ∃ x, 0 ≤ x ∧ i + P * x < N ∧ p = i + P * x := by
  constructor
  · rintro ⟨h0, hN, hd⟩
    have hd' : P ∣ p - i := by
      have hsub := dvd_sub hd hoff
      have heq : p + off - i - off = p - i := by ring
      rwa [heq] at hsub
    obtain ⟨x, hx⟩ := hd'
    have hp : p = i + P * x := by omega
    refine ⟨x, ?_, by omega, hp⟩
    by_contra hneg
    have hle : P * x ≤ P * -1 := by
      apply mul_le_mul_of_nonneg_left _ hP.le
      omega
    omega
  · rintro ⟨x, h0, hN, rfl⟩
    have hnn := mul_nonneg hP.le h0
    refine ⟨by omega, hN, ?_⟩
    have heq : (i : ℤ) + P * x + off - i = P * x + off := by ring
    rw [heq]
    exact dvd_add (dvd_mul_right P x) hoff

theorem cyclicCount_iff (hP : 0 < P) (hS : (S : ℤ) ≤ P) (hS0 : 0 < S) (hN : 0 ≤ N)
    (hsmall : (S : ℤ) < P → N ≤ S ∧ q = 1) (hq : 0 < q) :
    (∀ i : Fin S, ∀ x, 0 ≤ x → (x < cyclicCount q u i ↔ (i : ℤ) + P * x < N)) ↔
      N = (q - 1) * P + min (S : ℤ) (max 0 (u + 1)) := by
  have hround : (q - 1) * P = P * (q - 1) := mul_comm _ _
  have hnext : P * q = P * (q - 1) + P := by ring
  constructor
  · intro h
    obtain ⟨v, hv⟩ : ∃ v : ℕ, (v : ℤ) = min (S : ℤ) (max 0 (u + 1)) :=
      ⟨(min (S : ℤ) (max 0 (u + 1))).toNat, by omega⟩
    rw [← hv, hround]
    have hge : P * (q - 1) + v ≤ N := by
      by_cases hv0 : v = 0
      · by_cases hq1 : q = 1
        · rw [hq1, hv0]
          omega
        · have hSP : (S : ℤ) = P := by
            by_contra hne
            exact hq1 (hsmall (by omega)).2
          have hlast := (h ⟨S - 1, by omega⟩ (q - 2) (by omega)).mp (by
            rw [cyclicCount]
            split_ifs <;> omega)
          have hprev : P * (q - 2) = P * (q - 1) - P := by ring
          have hcast : ((S - 1 : ℕ) : ℤ) = S - 1 := by omega
          simp only [hcast] at hlast
          omega
      · have hlast := (h ⟨v - 1, by omega⟩ (q - 1) (by omega)).mp (by
          have hcast : ((v - 1 : ℕ) : ℤ) = v - 1 := by omega
          rw [cyclicCount, if_neg (by simp only [hcast]; omega)]
          omega)
        have hcast : ((v - 1 : ℕ) : ℤ) = v - 1 := by omega
        simp only [hcast] at hlast
        omega
    have hle : N ≤ P * (q - 1) + v := by
      by_cases hvS : v < S
      · have hfirst := (h ⟨v, hvS⟩ (q - 1) (by omega)).not.mp (by
          rw [cyclicCount, if_pos (by simp only; omega)]
          omega)
        simp only at hfirst
        omega
      · by_cases hSP : (S : ℤ) < P
        · obtain ⟨hNS, hq1⟩ := hsmall hSP
          rw [hq1]
          omega
        · have hfirst := (h ⟨0, hS0⟩ q (by omega)).not.mp (by
            rw [cyclicCount]
            split_ifs <;> omega)
          simp only [Nat.cast_zero, zero_add] at hfirst
          omega
    omega
  · intro hNeq i x hx
    have hi := i.isLt
    rw [hround] at hNeq
    rw [cyclicCount]
    split_ifs with hiu
    · constructor
      · intro hlt
        have hmul : P * x ≤ P * (q - 2) := by
          apply mul_le_mul_of_nonneg_left _ hP.le
          omega
        have hprev : P * (q - 2) = P * (q - 1) - P := by ring
        omega
      · intro hlt
        by_contra hge
        have hmul : P * (q - 1) ≤ P * x := by
          apply mul_le_mul_of_nonneg_left _ hP.le
          omega
        omega
    · constructor
      · intro hlt
        have hmul : P * x ≤ P * (q - 1) := by
          apply mul_le_mul_of_nonneg_left _ hP.le
          omega
        omega
      · intro hlt
        by_contra hge
        have hmul : P * q ≤ P * x := by
          apply mul_le_mul_of_nonneg_left _ hP.le
          omega
        omega

theorem cyclic_positions_iff (hP : 0 < P) (hS : (S : ℤ) ≤ P) (hS0 : 0 < S) (hN : 0 < N)
    (hoff : 0 ≤ off) (hsmall : (S : ℤ) < P → off + N ≤ S ∧ q = 1) (hq : 0 < q) :
    (∀ i r : Fin S, r ≠ i → ∀ p, p ∈ (cyclicUnpack P q u i).positions ↔ CyclicHeld P off N i p) ↔
      S ≤ 1 ∨ P ∣ off ∧ N = (q - 1) * P + min (S : ℤ) (max 0 (u + 1)) := by
  by_cases hS1 : S ≤ 1
  · apply iff_of_true _ (Or.inl hS1)
    intro i r hri
    exact absurd (Fin.ext (by omega)) hri
  have hother : ∀ i : Fin S, ∃ r : Fin S, r ≠ i := by
    intro i
    by_cases hi : (i : ℕ) = 0
    · exact ⟨⟨1, by omega⟩, by simp [Fin.ext_iff]; omega⟩
    · exact ⟨⟨0, by omega⟩, by simp [Fin.ext_iff]; omega⟩
  have hcount : P ∣ off → ((∀ i r : Fin S, r ≠ i → ∀ p,
      p ∈ (cyclicUnpack P q u i).positions ↔ CyclicHeld P off N i p) ↔
      ∀ i : Fin S, ∀ x, 0 ≤ x → (x < cyclicCount q u i ↔ (i : ℤ) + P * x < N)) := by
    intro hd
    have hinj : ∀ {i x y : ℤ}, i + P * x = i + P * y → x = y := by
      intro i x y hxy
      exact mul_left_cancel₀ hP.ne' (add_left_cancel hxy)
    constructor
    · intro h i x hx
      obtain ⟨r, hri⟩ := hother i
      have hiff := h i r hri (i + P * x)
      rw [mem_cyclicUnpack hP, cyclicHeld_iff hP hd (by omega)] at hiff
      constructor
      · intro hlt
        obtain ⟨y, -, hy, hxy⟩ := hiff.mp ⟨x, hx, hlt, rfl⟩
        rwa [hinj hxy]
      · intro hlt
        obtain ⟨y, -, hy, hxy⟩ := hiff.mpr ⟨x, hx, hlt, rfl⟩
        rwa [hinj hxy]
    · intro h i r hri p
      rw [mem_cyclicUnpack hP, cyclicHeld_iff hP hd (by omega)]
      constructor
      · rintro ⟨x, hx, hlt, hp⟩
        exact ⟨x, hx, (h i x hx).mp hlt, hp⟩
      · rintro ⟨x, hx, hlt, hp⟩
        exact ⟨x, hx, (h i x hx).mpr hlt, hp⟩
  have hfit : (S : ℤ) < P → N ≤ S ∧ q = 1 := by
    intro hlt
    obtain ⟨hle, hq1⟩ := hsmall hlt
    exact ⟨by omega, hq1⟩
  constructor
  · intro h
    right
    have hd : P ∣ off := by
      -- the holder of position 0 has to be rank 0
      obtain ⟨v, hv⟩ : ∃ v : ℕ, (v : ℤ) = off % P := ⟨(off % P).toNat, by
        have := Int.emod_nonneg off hP.ne'
        omega⟩
      have hvP := Int.emod_lt_of_pos off hP
      have hvS : v < S := by
        by_cases hlt : (S : ℤ) < P
        · obtain ⟨hle, -⟩ := hsmall hlt
          have hoffP : off % P = off := Int.emod_eq_of_lt hoff (by omega)
          omega
        · omega
      obtain ⟨r, hri⟩ := hother ⟨v, hvS⟩
      have hheld : CyclicHeld P off N v 0 := by
        refine ⟨le_rfl, hN, ?_⟩
        rw [hv, zero_add]
        exact Int.dvd_self_sub_emod
      have hmem := (h ⟨v, hvS⟩ r hri 0).mpr hheld
      obtain ⟨x, hx, -, h0⟩ := (mem_cyclicUnpack hP).mp hmem
      have hnn := mul_nonneg hP.le hx
      simp only at h0
      apply Int.dvd_of_emod_eq_zero
      omega
    exact ⟨hd, (cyclicCount_iff hP hS hS0 hN.le hfit hq).mp ((hcount hd).mp h)⟩
  · rintro (hle | ⟨hd, hNeq⟩)
    · exact absurd hle hS1
    · exact (hcount hd).mpr ((cyclicCount_iff hP hS hS0 hN.le hfit hq).mpr hNeq)

/-- The width of the part of rank `i` when the array starts with a round. -/
def cyclicWidth (P N : ℤ) (i : ℕ) : ℤ := (N - 1 - i).tdiv P + 1

theorem cyclic_widths_iff (hP : 0 < P) (hS : (S : ℤ) ≤ P) (hS1 : 1 < S) (hN : 0 < N)
    (hsmall : (S : ℤ) < P → N ≤ S) :
    (∀ i r : Fin S, cyclicWidth P N r = cyclicWidth P N i) ↔ N < P ∨ P ∣ N := by
  by_cases hlt : N < P
  · apply iff_of_true _ (Or.inl hlt)
    have hone : ∀ i : Fin S, cyclicWidth P N i = 1 := by
      intro i
      have hi := i.isLt
      rw [cyclicWidth]
      have hzero : (N - 1 - (i : ℤ)).tdiv P = 0 := by
        by_cases hneg : 0 ≤ N - 1 - (i : ℤ)
        · exact Int.tdiv_eq_zero_of_lt hneg (by omega)
        · have hflip : N - 1 - (i : ℤ) = -(i - (N - 1)) := by ring
          rw [hflip, Int.neg_tdiv, Int.tdiv_eq_zero_of_lt (by omega) (by omega), neg_zero]
      rw [hzero, zero_add]
    intro i r
    rw [hone, hone]
  · have hSP : (S : ℤ) = P := by
      by_contra hne
      have := hsmall (by omega)
      omega
    have hdiv : ∀ i : Fin S, cyclicWidth P N i = (N - 1 - i) / P + 1 := by
      intro i
      have hi := i.isLt
      rw [cyclicWidth, Int.tdiv_eq_ediv_of_nonneg (by omega)]
    constructor
    · intro h
      right
      have hends := h ⟨0, by omega⟩ ⟨S - 1, by omega⟩
      have hcast : ((S - 1 : ℕ) : ℤ) = S - 1 := by omega
      rw [hdiv, hdiv] at hends
      simp only [hcast, Nat.cast_zero, sub_zero] at hends
      have hshift : N - 1 - (S - 1) = N - P := by omega
      rw [hshift] at hends
      have hlast : (N - P) / P = N / P - 1 := by
        have := Int.sub_mul_ediv_right N 1 hP.ne'
        rwa [one_mul] at this
      have hdm := Int.emod_add_mul_ediv N P
      have hdm' := Int.emod_add_mul_ediv (N - 1) P
      have hlt' := Int.emod_lt_of_pos (N - 1) hP
      have hnn := Int.emod_nonneg N hP.ne'
      have hfirst : (N - 1) / P = N / P - 1 := by omega
      rw [hfirst] at hdm'
      have hmul : P * (N / P - 1) = P * (N / P) - P := by ring
      apply Int.dvd_of_emod_eq_zero
      omega
    · rintro (hlt' | ⟨m, rfl⟩)
      · exact absurd hlt' hlt
      · have hall : ∀ i : Fin S, cyclicWidth P (P * m) i = m := by
          intro i
          have hi := i.isLt
          have hq : (P * m - 1 - (i : ℤ)) / P = m - 1 := by
            rw [Int.ediv_eq_iff_of_pos hP]
            have hmul : (m - 1) * P = P * m - P := by ring
            rw [hmul]
            omega
          rw [hdiv, hq]
          ring
        intro i r
        rw [hall, hall]

end Cyclic

/-! ## The ranks of a line -/

/-- What the ranks of a communicator pack and unpack; rank `x` holds the positions `held x`, and
its part is unpacked at `stored x`. -/
structure LineParts {S : ℕ} (comm : Fin S → XmpArray k d n) (arrayIndex : Fin k) (N : ℤ)
    (held : Fin S → ℤ → Prop) (stored : Fin S → LocalTriplet) : Prop where
  unpack : ∀ x r : Fin S, unpackTriplet (comm r) arrayIndex S x = some (stored x)
  stride : ∀ x, 0 < (packTriplet (comm x) arrayIndex).stride ∧ 0 < (stored x).stride
  packed : ∀ x, (∃ p, held x p) → ∀ p, p ∈ (packTriplet (comm x) arrayIndex).positions ↔ held x p
  covered : ∀ p, 0 ≤ p → p < N → ∃ x, held x p

/-- The positions that are unpacked for every rank are those that it holds. -/
def TripletsRight {S : ℕ} (held : Fin S → ℤ → Prop) (stored : Fin S → LocalTriplet) : Prop :=
  ∀ x r : Fin S, r ≠ x → ∀ p, p ∈ (stored x).positions ↔ held x p

section Line

variable {S : ℕ} {comm : Fin S → XmpArray k d n} {arrayIndex : Fin k} {N : ℤ}
  {held : Fin S → ℤ → Prop} {stored : Fin S → LocalTriplet}

theorem LineParts.sharesHeld (h : LineParts comm arrayIndex N held stored)
    (htriplets : TripletsRight held stored) (x : Fin S) :
    SharesHeld held x (packTriplet (comm x) arrayIndex).positions
      fun r => (unpackTriplet (comm r) arrayIndex S x).elim [] LocalTriplet.positions := by
  obtain ⟨hpack, hstored⟩ := h.stride x
  constructor
  · exact loopValues_nodup hpack.ne'
  · intro r hr p
    rw [h.unpack x r]
    exact htriplets x r hr p
  · intro r hr
    rw [h.unpack x r]
    show (stored x).positions = [] ∨ (stored x).positions = _
    by_cases hheld : ∃ p, held x p
    · right
      apply List.Pairwise.eq_of_mem_iff (loopValues_pairwise_lt hstored)
        (loopValues_pairwise_lt hpack)
      intro p
      exact (htriplets x r hr p).trans (h.packed x hheld p).symm
    · left
      rw [List.eq_nil_iff_forall_not_mem]
      intro p hp
      exact hheld ⟨p, (htriplets x r hr p).mp hp⟩

/-- With equal counts and the right triplets the dimension is replicated. -/
theorem LineParts.replicated (h : LineParts comm arrayIndex N held stored)
    (hcounts : ∀ x r, bcastCount (comm r) arrayIndex = bcastCount (comm x) arrayIndex)
    (htriplets : TripletsRight held stored) {ρ : Type*} {g : ℤ → ρ} {mems : Fin S → ℤ → ρ}
    (hmems : ∀ r p, held r p → mems r p = g p) :
    ∃ mems', reflectShadowFullBcast arrayIndex comm mems = some mems' ∧
      ∀ r p, 0 ≤ p → p < N → mems' r p = g p := by
  have hround : ∀ x, bcastRound (ρ := ρ) arrayIndex comm x = fun mems =>
      some (shareRound (packTriplet (comm x) arrayIndex).positions
        (fun r => (unpackTriplet (comm r) arrayIndex S x).elim [] LocalTriplet.positions)
          x mems) := by
    intro x
    funext mems
    apply if_pos
    refine ⟨hcounts x, ?_⟩
    intro r _
    rw [h.unpack x r]
    rfl
  refine ⟨(List.finRange S).foldl (fun mems x =>
    shareRound (packTriplet (comm x) arrayIndex).positions
      (fun r => (unpackTriplet (comm r) arrayIndex S x).elim [] LocalTriplet.positions)
        x mems) mems,
    ?_, ?_⟩
  · rw [reflectShadowFullBcast]
    simp only [hround]
    exact List.foldlM_pure
  · intro r p h0 hN
    apply foldl_shareRound (h.sharesHeld htriplets) hmems
    obtain ⟨x, hx⟩ := h.covered p h0 hN
    exact Or.inr ⟨x, List.mem_finRange x, hx⟩

theorem bcastCount_same_iff {width : Fin S → ℤ}
    (hwidth : ∀ x, (packTriplet (comm x) arrayIndex).width = width x) {rest : ℤ}
    (hrest : ∀ x, rowSize (comm x) arrayIndex = rest) :
    (∀ x r, bcastCount (comm r) arrayIndex = bcastCount (comm x) arrayIndex) ↔
      rest = 0 ∨ ∀ x r : Fin S, width r = width x := by
  simp only [bcastCount_eq, hwidth, hrest, mul_eq_mul_right_iff]
  by_cases h0 : rest = 0
  · simp [h0]
  · simp [h0]

end Line

/-! ## Lines of nodes -/

namespace ArrayDecl

variable {decl : ArrayDecl k d n}

/-- The node of the line of `c` with coordinate `r` in node dimension `j`. -/
def coordAlong (decl : ArrayDecl k d n) (c : decl.Coord) (j : Fin n) (r : Fin (decl.nodesSize j)) :
    decl.Coord := Function.update c j r

/-- The shadow communicator of `_XMP_create_shadow_comm` along node dimension `j`: the nodes of the
line on which the array is allocated, in the order of their ranks. -/
def shadowComm (decl : ArrayDecl k d n) (a : decl.Coord → XmpArray k d n) (c : decl.Coord)
    (j : Fin n) : List (Fin (decl.nodesSize j)) :=
  (List.finRange (decl.nodesSize j)).filter fun r => (a (decl.coordAlong c j r)).isAllocated

/-- The coordinates of rank `x` of the communicator. -/
def commCoord (decl : ArrayDecl k d n) (a : decl.Coord → XmpArray k d n) (c : decl.Coord)
    (j : Fin n) (x : Fin (decl.shadowComm a c j).length) : decl.Coord :=
  decl.coordAlong c j ((decl.shadowComm a c j).get x)

theorem onLine_coordAlong (c : decl.Coord) (j : Fin n) (r : Fin (decl.nodesSize j)) :
    OnLine c (decl.coordAlong c j r) j := by
  intro j' hj'
  exact Function.update_of_ne hj' r c

theorem nodesInfo_coordAlong (c : decl.Coord) (t : Fin d)
    (r : Fin (decl.nodesSize (decl.dist t).1)) :
    decl.nodesInfo (decl.coordAlong c (decl.dist t).1 r) t =
      ⟨decl.nodesSize (decl.dist t).1, r, decl.nodesSize_limit _⟩ := by
  rw [nodesInfo, coordAlong, Function.update_self]

/-- When the array is allocated on an interval of the line, the ranks are numbered along it. -/
theorem get_shadowComm {a : decl.Coord → XmpArray k d n} {c : decl.Coord} {j : Fin n} {lo S : ℕ}
    (hP : lo + S ≤ decl.nodesSize j)
    (h : ∀ r, (a (decl.coordAlong c j r)).isAllocated = true ↔ lo ≤ (r : ℕ) ∧ (r : ℕ) < lo + S) :
    (decl.shadowComm a c j).length = S ∧
      ∀ x, ((decl.shadowComm a c j).get x : ℕ) = lo + x := by
  have hmap := map_val_filter_finRange hP h
  have hlen : (decl.shadowComm a c j).length = S := by
    have := congrArg List.length hmap
    rwa [List.length_map, List.length_range'] at this
  refine ⟨hlen, ?_⟩
  intro x
  have hget : ((decl.shadowComm a c j).map Fin.val)[(x : ℕ)]? = (List.range' lo S)[(x : ℕ)]? :=
    congrArg (fun l => l[(x : ℕ)]?) hmap
  rw [List.getElem?_map, List.getElem?_eq_getElem x.isLt,
    List.getElem?_range' (hlen ▸ x.isLt)] at hget
  have hval := Option.some.inj hget
  rw [one_mul] at hval
  exact hval

end ArrayDecl

/-! ## Descriptors with a full shadow -/

theorem initShadow_info {b a : XmpArray k d n} {shadow : Fin k → Shadow}
    (h : initShadow b shadow = .ok a) (i : Fin k) :
    initShadowDim b.isAllocated (b.info i) (shadow i) = .ok (a.info i) :=
  (initShadow_run (List.nodup_finRange k) h).2.2.1 i (List.mem_finRange i)

theorem initShadow_full {b a : XmpArray k d n} {shadow : Fin k → Shadow}
    (h : initShadow b shadow = .ok a) {i : Fin k} (hfull : shadow i = .full)
    (ha : b.isAllocated = true) : a.info i = { b.info i with
      shadowSizeLo := (b.info i).parLower - (b.info i).serLower
      shadowSizeHi := (b.info i).serUpper - (b.info i).parUpper
      localLower := (b.info i).parLower - (b.info i).serLower
      localUpper := (b.info i).parUpper - (b.info i).serLower
      localStride := (b.info i).parStride
      allocSize := (b.info i).serSize } := by
  have hi := initShadow_info h i
  rw [hfull, ha, initShadowDim, if_pos rfl] at hi
  exact (Except.ok.inj hi).symm

theorem initShadowDim_allocSize {ai ai' bi bi' : ArrayInfo d} {shadow : Shadow}
    (ha : initShadowDim true ai shadow = .ok ai') (hb : initShadowDim true bi shadow = .ok bi')
    (halloc : ai.allocSize = bi.allocSize) (hser : ai.serSize = bi.serSize) :
    ai'.allocSize = bi'.allocSize := by
  cases shadow with
  | none =>
    cases ha
    cases hb
    exact halloc
  | normal lo hi =>
    simp only [initShadowDim] at ha hb
    split_ifs at ha hb
    · cases ha
      cases hb
      exact halloc
    · cases ha
      cases hb
      show ai.allocSize + (lo + hi) = bi.allocSize + (lo + hi)
      rw [halloc]
  | full =>
    simp only [initShadowDim, if_true] at ha hb
    cases ha
    cases hb
    exact hser

namespace ArrayDecl

def alignOffset (decl : ArrayDecl k d n) (i : Fin k) (t : Fin d) (sub : ℤ) : ℤ :=
  decl.lower i + sub - (decl.template t).serLower

def dimSize (decl : ArrayDecl k d n) (i : Fin k) : ℤ := decl.upper i - decl.lower i + 1

/-- `par_chunk_width` of a `block` or a `cyclic` dimension. -/
def chunkWidth (decl : ArrayDecl k d n) (t : Fin d) : ℤ :=
  ceilDiv (decl.template t).serSize (decl.nodesSize (decl.dist t).1)

end ArrayDecl

/-- Dimension `i` has a full shadow and is aligned with a `block` or a `cyclic` dimension; node `c`
holds a part of the array. -/
structure FullLine (decl : ArrayDecl k d n) (b a : decl.Coord → XmpArray k d n)
    (shadow : Fin k → Shadow) (c : decl.Coord) (i : Fin k) (t : Fin d) (sub : ℤ) : Prop where
  built : ∀ c, decl.Built c (b c)
  shadowed : ∀ c, initShadow (b c) shadow = .ok (a c)
  full : shadow i = .full
  target : decl.target i = some (t, sub)
  fmt : (decl.dist t).2 = .block ∨ (decl.dist t).2 = .cyclic
  allocated : (a c).isAllocated = true
  gblocks : decl.OwnsGblocks c

namespace FullLine

variable {decl : ArrayDecl k d n} {b a : decl.Coord → XmpArray k d n} {shadow : Fin k → Shadow}
  {c c' : decl.Coord} {i : Fin k} {t : Fin d} {sub : ℤ}

theorem isAllocated_eq (h : FullLine decl b a shadow c i t sub) (c' : decl.Coord) :
    (a c').isAllocated = (b c').isAllocated := (initShadow_spec (h.shadowed c')).2.1

theorem alignTemplate_eq (h : FullLine decl b a shadow c i t sub) (c' : decl.Coord) :
    (a c').alignTemplate = (b c').alignTemplate := (initShadow_spec (h.shadowed c')).1

theorem dup (h : FullLine decl b a shadow c i t sub) : (decl.dist t).2 ≠ .duplication := by
  intro hd
  have hfmt := h.fmt
  rw [hd] at hfmt
  obtain hd | hd := hfmt
  · cases hd
  · cases hd

theorem info_eq (h : FullLine decl b a shadow c i t sub) (ha : (a c').isAllocated = true) :
    (a c').info i = { (b c').info i with
      shadowSizeLo := ((b c').info i).parLower - ((b c').info i).serLower
      shadowSizeHi := ((b c').info i).serUpper - ((b c').info i).parUpper
      localLower := ((b c').info i).parLower - ((b c').info i).serLower
      localUpper := ((b c').info i).parUpper - ((b c').info i).serLower
      localStride := ((b c').info i).parStride
      allocSize := ((b c').info i).serSize } :=
  initShadow_full (h.shadowed c') h.full (h.isAllocated_eq c' ▸ ha)

theorem rowSize_eq (h : FullLine decl b a shadow c i t sub)
    (hline : ArrayDecl.OnLine c c' (decl.dist t).1) (ha : (a c').isAllocated = true) :
    rowSize (a c') i = rowSize (a c) i := by
  apply Finset.prod_congr rfl
  intro i' hi'
  have hne := Finset.ne_of_mem_erase hi'
  have hac := h.allocated
  rw [h.isAllocated_eq] at ha hac
  have hbi := initShadow_info (h.shadowed c) i'
  have hbi' := initShadow_info (h.shadowed c') i'
  rw [hac] at hbi
  rw [ha] at hbi'
  apply initShadowDim_allocSize hbi' hbi
  · exact ArrayDecl.allocSize_other (h.built c) (h.built c') hac ha h.gblocks hline h.dup
      h.target hne
  · have hdesc := (h.built c).described i'
    have hdesc' := (h.built c').described i'
    rw [ArrayInfo.serSize, ArrayInfo.serSize, hdesc.lower, hdesc.upper, hdesc'.lower, hdesc'.upper]

theorem offset_bounds (h : FullLine decl b a shadow c i t sub) : 0 ≤ decl.alignOffset i t sub ∧
    decl.alignOffset i t sub + decl.dimSize i ≤ (decl.template t).serSize ∧ 0 < decl.dimSize i := by
  obtain ⟨-, -, -, -, hlow, hup, -⟩ := ((h.built c).described i).aligned t sub h.target
  have hend := (decl.template t).serUpper_eq
  have hle := decl.lower_le_upper i
  rw [ArrayDecl.alignOffset, ArrayDecl.dimSize]
  omega

theorem coordAlong_isAllocated_iff (h : FullLine decl b a shadow c i t sub)
    (hfmt : (decl.dist t).2 = .block) (r : Fin (decl.nodesSize (decl.dist t).1)) :
    (a (decl.coordAlong c (decl.dist t).1 r)).isAllocated = true ↔
      decl.alignOffset i t sub ≤ r * decl.chunkWidth t + decl.chunkWidth t - 1 ∧
        r * decl.chunkWidth t < decl.alignOffset i t sub + decl.dimSize i := by
  have hac := h.allocated
  rw [h.isAllocated_eq] at hac
  rw [h.isAllocated_eq, ArrayDecl.block_isAllocated_iff (h.built c) (h.built _) hac h.gblocks
    (ArrayDecl.onLine_coordAlong c _ r) h.target hfmt, ArrayDecl.blockStart,
    ArrayDecl.nodesInfo_coordAlong, ArrayDecl.alignOffset, ArrayDecl.dimSize, ArrayDecl.chunkWidth]
  dsimp only
  constructor
  · rintro ⟨h₁, h₂⟩
    omega
  · rintro ⟨h₁, h₂⟩
    omega

/-- The communicator of a `block` dimension starts at the node that holds the first element. -/
theorem block_comm (h : FullLine decl b a shadow c i t sub) (hfmt : (decl.dist t).2 = .block) :
    ∃ S : ℕ, (decl.shadowComm a c (decl.dist t).1).length = S ∧ 0 < S ∧
      (∀ x, (((decl.shadowComm a c (decl.dist t).1).get x : ℕ) : ℤ) =
        decl.alignOffset i t sub / decl.chunkWidth t + x) ∧
      (S - 1) * decl.chunkWidth t - decl.alignOffset i t sub % decl.chunkWidth t < decl.dimSize i ∧
      decl.dimSize i ≤ S * decl.chunkWidth t - decl.alignOffset i t sub % decl.chunkWidth t := by
  obtain ⟨hoff, hfit, hN⟩ := h.offset_bounds
  have hPpos : (0 : ℤ) < decl.nodesSize (decl.dist t).1 := by exact_mod_cast (c (decl.dist t).1).pos
  have hw : 0 < decl.chunkWidth t := ceilDiv_pos (decl.template t).serSize_pos hPpos
  have hcover := (ceilDiv_bounds (decl.template t).serSize_pos.le hPpos).1
  change (decl.template t).serSize ≤ decl.chunkWidth t * _ at hcover
  have halloc := h.coordAlong_isAllocated_iff hfmt
  generalize decl.chunkWidth t = w at *
  generalize decl.alignOffset i t sub = off at *
  generalize decl.dimSize i = N at *
  have hdm := Int.emod_add_mul_ediv off w
  have hdm' := Int.emod_add_mul_ediv (off + N - 1) w
  have hlt := Int.emod_lt_of_pos off hw
  have hlt' := Int.emod_lt_of_pos (off + N - 1) hw
  have hnn := Int.emod_nonneg off hw.ne'
  have hnn' := Int.emod_nonneg (off + N - 1) hw.ne'
  have hq : 0 ≤ off / w := Int.ediv_nonneg hoff hw.le
  have hqq : off / w ≤ (off + N - 1) / w := Int.ediv_le_ediv hw (by omega)
  obtain ⟨lo, hlo⟩ := Int.eq_ofNat_of_zero_le hq
  obtain ⟨m, hm⟩ := Int.eq_ofNat_of_zero_le (sub_nonneg.mpr hqq)
  have hlast : (off + N - 1) / w = lo + m := by omega
  have hPlo : lo + (m + 1) ≤ decl.nodesSize (decl.dist t).1 := by
    have hdiv : (off + N - 1) / w < decl.nodesSize (decl.dist t).1 := by
      apply Int.ediv_lt_of_lt_mul hw
      rw [mul_comm]
      omega
    omega
  rw [hlo] at hdm
  rw [hlast] at hdm'
  obtain ⟨hlen, hget⟩ := ArrayDecl.get_shadowComm (a := a) (c := c) hPlo (fun r => by
    rw [halloc]
    constructor
    · rintro ⟨h₁, h₂⟩
      constructor
      · by_contra hlt₀
        have hmul : w * ((r : ℤ) + 1) ≤ w * lo := by
          apply mul_le_mul_of_nonneg_left _ hw.le
          omega
        have hexp : w * ((r : ℤ) + 1) = r * w + w := by ring
        omega
      · by_contra hge
        have hmul : w * ((lo : ℤ) + m + 1) ≤ w * r := by
          apply mul_le_mul_of_nonneg_left _ hw.le
          omega
        have hexp : w * ((lo : ℤ) + m + 1) = w * (lo + m) + w := by ring
        have hcomm : w * (r : ℤ) = r * w := mul_comm _ _
        omega
    · rintro ⟨h₁, h₂⟩
      have hmul₁ : w * (lo : ℤ) ≤ w * r := by
        apply mul_le_mul_of_nonneg_left _ hw.le
        omega
      have hmul₂ : w * (r : ℤ) ≤ w * (lo + m) := by
        apply mul_le_mul_of_nonneg_left _ hw.le
        omega
      have hcomm : w * (r : ℤ) = r * w := mul_comm _ _
      omega)
  have hspan : w * ((lo : ℤ) + m) = w * lo + m * w := by ring
  have hspan' : ((m : ℤ) + 1) * w = m * w + w := by ring
  refine ⟨m + 1, hlen, by omega, ?_, ?_, ?_⟩
  · intro x
    rw [hget x, hlo]
    push_cast
    rfl
  · push_cast
    rw [add_sub_cancel_right]
    omega
  · push_cast
    omega

theorem commCoord_isAllocated (x : Fin (decl.shadowComm a c (decl.dist t).1).length) :
    (a (decl.commCoord a c (decl.dist t).1 x)).isAllocated = true :=
  (List.mem_filter.mp (List.get_mem (decl.shadowComm a c (decl.dist t).1) x)).2

theorem block_owns_iff (h : FullLine decl b a shadow c i t sub) (hfmt : (decl.dist t).2 = .block)
    {x : Fin (decl.shadowComm a c (decl.dist t).1).length}
    (hx : (((decl.shadowComm a c (decl.dist t).1).get x : ℕ) : ℤ) =
      decl.alignOffset i t sub / decl.chunkWidth t + (x : ℕ)) (p : ℤ) :
    decl.Owns (decl.commCoord a c (decl.dist t).1 x) i (decl.lower i + p) ↔
      BlockHeld (decl.chunkWidth t) (decl.alignOffset i t sub % decl.chunkWidth t) (decl.dimSize i)
        x p := by
  rw [ArrayDecl.Owns, h.target]
  show _ ∧ _ ∧ Owned _ (decl.nodesInfo (decl.commCoord a c (decl.dist t).1 x) t) _ _ ↔ _
  rw [ArrayDecl.commCoord, ArrayDecl.nodesInfo_coordAlong, hfmt, owned_block_iff, BlockHeld]
  dsimp only
  rw [hx]
  have hoff : decl.alignOffset i t sub = decl.lower i + sub - (decl.template t).serLower := rfl
  have hdim : decl.dimSize i = decl.upper i - decl.lower i + 1 := rfl
  have hw : ceilDiv (decl.template t).serSize (decl.nodesSize (decl.dist t).1) =
    decl.chunkWidth t := rfl
  have hdm := Int.emod_add_mul_ediv (decl.alignOffset i t sub) (decl.chunkWidth t)
  rw [hw, add_mul, mul_comm (decl.alignOffset i t sub / decl.chunkWidth t)]
  constructor
  · rintro ⟨h₁, h₂, h₃, h₄⟩
    exact ⟨by omega, by omega, by omega, by omega⟩
  · rintro ⟨h₁, h₂, h₃, h₄⟩
    exact ⟨by omega, by omega, by omega, by omega⟩

theorem block_packTriplet (h : FullLine decl b a shadow c i t sub) (hfmt : (decl.dist t).2 = .block)
    {x : Fin (decl.shadowComm a c (decl.dist t).1).length}
    (hx : (((decl.shadowComm a c (decl.dist t).1).get x : ℕ) : ℤ) =
      decl.alignOffset i t sub / decl.chunkWidth t + (x : ℕ)) :
    packTriplet (a (decl.commCoord a c (decl.dist t).1 x)) i =
      ⟨max 0 (x * decl.chunkWidth t - decl.alignOffset i t sub % decl.chunkWidth t),
        min (decl.dimSize i - 1) (x * decl.chunkWidth t -
          decl.alignOffset i t sub % decl.chunkWidth t + decl.chunkWidth t - 1), 1⟩ := by
  have ha := commCoord_isAllocated x
  have hdesc := (h.built (decl.commCoord a c (decl.dist t).1 x)).described i
  have hpart := (h.built (decl.commCoord a c (decl.dist t).1 x)).blockPart
    (h.isAllocated_eq _ ▸ ha) h.target hfmt
  rw [packTriplet, h.info_eq ha]
  dsimp only
  rw [hpart.parLower, hpart.parUpper, hpart.parStride, hdesc.lower, ArrayDecl.blockStart,
    ArrayDecl.commCoord, ArrayDecl.nodesInfo_coordAlong]
  dsimp only
  rw [hx]
  have hoff : decl.alignOffset i t sub = decl.lower i + sub - (decl.template t).serLower := rfl
  have hdim : decl.dimSize i = decl.upper i - decl.lower i + 1 := rfl
  have hw : ceilDiv (decl.template t).serSize (decl.nodesSize (decl.dist t).1) =
    decl.chunkWidth t := rfl
  have hdm := Int.emod_add_mul_ediv (decl.alignOffset i t sub) (decl.chunkWidth t)
  rw [hw, add_mul, mul_comm (decl.alignOffset i t sub / decl.chunkWidth t)]
  rw [LocalTriplet.mk.injEq]
  exact ⟨by omega, by omega, rfl⟩

theorem block_unpackTriplet (h : FullLine decl b a shadow c i t sub)
    (hfmt : (decl.dist t).2 = .block) (ha : (a c').isAllocated = true) (S x : ℕ) :
    unpackTriplet (a c') i S x = some (blockUnpack (decl.chunkWidth t) (decl.dimSize i) S x) := by
  have hdesc := (h.built c').described i
  have hpart := (h.built c').blockPart (h.isAllocated_eq _ ▸ ha) h.target hfmt
  obtain ⟨hmanner, -, hidx, -, -, -, hrep⟩ := hdesc.aligned t sub h.target
  rw [hfmt] at hrep
  rw [hrep.1] at hmanner
  have hend : decl.upper i - decl.lower i = decl.dimSize i - 1 := (add_sub_cancel_right _ _).symm
  rw [unpackTriplet, h.info_eq ha, h.alignTemplate_eq]
  dsimp only
  rw [hidx, hmanner, hpart.parStride, hdesc.lower, hdesc.upper, hend, Option.bind_some, hrep.2.2]
  rfl

theorem block_parts (h : FullLine decl b a shadow c i t sub) (hfmt : (decl.dist t).2 = .block) :
    LineParts (fun x => a (decl.commCoord a c (decl.dist t).1 x)) i (decl.dimSize i)
        (fun x p => decl.Owns (decl.commCoord a c (decl.dist t).1 x) i (decl.lower i + p))
        (fun x => blockUnpack (decl.chunkWidth t) (decl.dimSize i)
          (decl.shadowComm a c (decl.dist t).1).length x) := by
  obtain ⟨S, hlen, hS, hget, hlast, hN⟩ := h.block_comm hfmt
  have hPpos : (0 : ℤ) < decl.nodesSize (decl.dist t).1 := by exact_mod_cast (c (decl.dist t).1).pos
  have hw : 0 < decl.chunkWidth t := ceilDiv_pos (decl.template t).serSize_pos hPpos
  have ho := Int.emod_nonneg (decl.alignOffset i t sub) hw.ne'
  have how := Int.emod_lt_of_pos (decl.alignOffset i t sub) hw
  constructor
  · intro x r
    exact h.block_unpackTriplet hfmt (commCoord_isAllocated r) _ x
  · intro x
    rw [h.block_packTriplet hfmt (hget x)]
    exact ⟨one_pos, one_pos⟩
  · intro x _ p
    rw [h.block_packTriplet hfmt (hget x), h.block_owns_iff hfmt (hget x),
      LocalTriplet.mem_positions one_pos, BlockHeld]
    simp only [one_dvd, and_true]
    omega
  · intro p h0 hp
    -- the node that holds the position
    have hq : 0 ≤ (p + decl.alignOffset i t sub % decl.chunkWidth t) / decl.chunkWidth t :=
      Int.ediv_nonneg (by omega) hw.le
    have hqS : (p + decl.alignOffset i t sub % decl.chunkWidth t) / decl.chunkWidth t < S := by
      apply Int.ediv_lt_of_lt_mul hw
      omega
    obtain ⟨x, hx⟩ := Int.eq_ofNat_of_zero_le hq
    have hdm := Int.emod_add_mul_ediv (p + decl.alignOffset i t sub % decl.chunkWidth t)
      (decl.chunkWidth t)
    have hlt := Int.emod_lt_of_pos (p + decl.alignOffset i t sub % decl.chunkWidth t) hw
    have hnn := Int.emod_nonneg (p + decl.alignOffset i t sub % decl.chunkWidth t) hw.ne'
    rw [hx] at hqS hdm
    have hxlt : x < (decl.shadowComm a c (decl.dist t).1).length := by omega
    refine ⟨⟨x, hxlt⟩, (h.block_owns_iff hfmt (hget ⟨x, hxlt⟩) p).mpr ?_⟩
    have hcomm : decl.chunkWidth t * (x : ℤ) = x * decl.chunkWidth t := mul_comm _ _
    exact ⟨h0, hp, by dsimp only; omega, by dsimp only; omega⟩

/-- The communicator of a `cyclic` dimension starts at the first node of the line. -/
theorem cyclic_comm (h : FullLine decl b a shadow c i t sub) (hfmt : (decl.dist t).2 = .cyclic) :
    ∃ S : ℕ, (decl.shadowComm a c (decl.dist t).1).length = S ∧ 0 < S ∧
      S ≤ decl.nodesSize (decl.dist t).1 ∧
      (∀ x, ((decl.shadowComm a c (decl.dist t).1).get x : ℕ) = x) ∧
      (S < decl.nodesSize (decl.dist t).1 → (decl.template t).serSize ≤ S) := by
  have hac := h.allocated
  rw [h.isAllocated_eq] at hac
  obtain ⟨S, hSP, hseg⟩ := exists_initial_segment
    (p := fun r => (a (decl.coordAlong c (decl.dist t).1 r)).isAllocated = true) (by
      intro r r' hle hr
      rw [h.isAllocated_eq] at hr ⊢
      have hline : ArrayDecl.OnLine (decl.coordAlong c (decl.dist t).1 r)
          (decl.coordAlong c (decl.dist t).1 r') (decl.dist t).1 := by
        intro j hj
        rw [ArrayDecl.onLine_coordAlong c _ r' j hj, ArrayDecl.onLine_coordAlong c _ r j hj]
      apply ArrayDecl.cyclic_isAllocated (h.built _) (h.built _) hr _ hline h.target hfmt
      · intro hown
        rw [ArrayDecl.ownsDim_cyclic_iff hfmt, ArrayDecl.nodesInfo_coordAlong] at hown ⊢
        have hle' : (r' : ℕ) ≤ r := hle
        dsimp only at hown ⊢
        omega
      · -- the other dimensions are those of `c`
        intro i' t' sub' m htar' hfmt'
        have hdup' : (decl.dist t').2 ≠ .duplication := by simp [hfmt']
        have ht : t' ≠ t := by
          rintro rfl
          rw [hfmt] at hfmt'
          cases hfmt'
        have hown := h.gblocks i' t' sub' m htar' hfmt'
        rw [ArrayDecl.OwnsDim] at hown ⊢
        rwa [ArrayDecl.other_dim_congr (ArrayDecl.onLine_coordAlong c _ r) h.dup ht hdup'])
  have hself : decl.coordAlong c (decl.dist t).1 (c (decl.dist t).1) = c :=
    Function.update_eq_self _ c
  have hc : ((c (decl.dist t).1 : ℕ)) < S := (hseg _).mp (hself.symm ▸ h.allocated)
  obtain ⟨hlen, hget⟩ := @ArrayDecl.get_shadowComm k d n decl a c (decl.dist t).1 0 S (by omega)
    (fun r => by rw [hseg r]; omega)
  refine ⟨S, hlen, by omega, hSP, fun x => by rw [hget x, zero_add], ?_⟩
  intro hlt
  by_contra hown
  have hnot := (hseg ⟨S, hlt⟩).not.mpr (lt_irrefl S)
  apply hnot
  rw [h.isAllocated_eq]
  apply ArrayDecl.cyclic_isAllocated (h.built c) (h.built _) hac h.gblocks
    (ArrayDecl.onLine_coordAlong c _ _) h.target hfmt
  intro _
  rw [ArrayDecl.ownsDim_cyclic_iff hfmt, ArrayDecl.nodesInfo_coordAlong]
  exact not_le.mp hown

theorem cyclic_owns_iff (h : FullLine decl b a shadow c i t sub) (hfmt : (decl.dist t).2 = .cyclic)
    {x : Fin (decl.shadowComm a c (decl.dist t).1).length}
    (hx : ((decl.shadowComm a c (decl.dist t).1).get x : ℕ) = x) (p : ℤ) :
    decl.Owns (decl.commCoord a c (decl.dist t).1 x) i (decl.lower i + p) ↔
      CyclicHeld (decl.nodesSize (decl.dist t).1) (decl.alignOffset i t sub)
        (decl.dimSize i) x p := by
  have hlt := ((decl.shadowComm a c (decl.dist t).1).get x).isLt
  rw [hx] at hlt
  have hoff : decl.lower i + p + sub - (decl.template t).serLower =
      p + decl.alignOffset i t sub := by
    rw [ArrayDecl.alignOffset]
    ring
  have hdim : decl.dimSize i = decl.upper i - decl.lower i + 1 := rfl
  rw [ArrayDecl.Owns, h.target]
  show _ ∧ _ ∧ Owned _ (decl.nodesInfo (decl.commCoord a c (decl.dist t).1 x) t) _ _ ↔ _
  rw [ArrayDecl.commCoord, ArrayDecl.nodesInfo_coordAlong, hfmt, Owned,
    BlockCyclic.owner, CyclicHeld]
  dsimp only
  rw [hx, hoff, Int.ediv_one]
  have hrank : ((x : ℕ) : ℤ) % decl.nodesSize (decl.dist t).1 = x := by
    apply Int.emod_eq_of_lt (by omega)
    exact_mod_cast hlt
  have hmod : (p + decl.alignOffset i t sub) % decl.nodesSize (decl.dist t).1 = (x : ℕ) ↔
      (decl.nodesSize (decl.dist t).1 : ℤ) ∣ p + decl.alignOffset i t sub - (x : ℕ) := by
    rw [Int.dvd_iff_emod_eq_zero, ← Int.emod_eq_emod_iff_emod_sub_eq_zero, hrank]
  rw [hmod]
  constructor
  · rintro ⟨h₁, h₂, h₃⟩
    exact ⟨by omega, by omega, h₃⟩
  · rintro ⟨h₁, h₂, h₃⟩
    exact ⟨by omega, by omega, h₃⟩

theorem cyclic_packTriplet (h : FullLine decl b a shadow c i t sub)
    (hfmt : (decl.dist t).2 = .cyclic) {x : Fin (decl.shadowComm a c (decl.dist t).1).length}
    (hx : ((decl.shadowComm a c (decl.dist t).1).get x : ℕ) = x) {m : ℤ}
    (hm : m = ((x : ℕ) - decl.alignOffset i t sub) % decl.nodesSize (decl.dist t).1) :
    packTriplet (a (decl.commCoord a c (decl.dist t).1 x)) i =
      ⟨m, m + (decl.dimSize i - 1 - m).tdiv (decl.nodesSize (decl.dist t).1) *
        decl.nodesSize (decl.dist t).1, decl.nodesSize (decl.dist t).1⟩ := by
  have ha := commCoord_isAllocated x
  have hdesc := (h.built (decl.commCoord a c (decl.dist t).1 x)).described i
  have hpart := (h.built (decl.commCoord a c (decl.dist t).1 x)).cyclicPart
    (h.isAllocated_eq _ ▸ ha) h.target hfmt
  have hinfo : decl.nodesInfo (decl.commCoord a c (decl.dist t).1 x) t =
      ⟨decl.nodesSize (decl.dist t).1, (decl.shadowComm a c (decl.dist t).1).get x,
        decl.nodesSize_limit _⟩ := by
    rw [ArrayDecl.commCoord, ArrayDecl.nodesInfo_coordAlong]
  rw [hinfo] at hpart
  dsimp only at hpart
  rw [hx] at hpart
  have hoff : decl.lower i + sub - (decl.template t).serLower = decl.alignOffset i t sub := rfl
  have hend : decl.upper i - decl.lower i = decl.dimSize i - 1 := (add_sub_cancel_right _ _).symm
  rw [hoff, ← hm] at hpart
  rw [packTriplet, h.info_eq ha]
  dsimp only
  rw [hpart.parLower, hpart.parUpper, hpart.parStride, hdesc.lower, hend]
  rw [LocalTriplet.mk.injEq]
  exact ⟨by ring, by ring, rfl⟩

theorem cyclic_unpackTriplet (h : FullLine decl b a shadow c i t sub)
    (hfmt : (decl.dist t).2 = .cyclic) (ha : (a c').isAllocated = true) (S x : ℕ) :
    unpackTriplet (a c') i S x = some (cyclicUnpack (decl.nodesSize (decl.dist t).1)
      (decl.chunkWidth t) ((decl.upper i).tmod (decl.nodesSize (decl.dist t).1)) x) := by
  have hdesc := (h.built c').described i
  have hpart := (h.built c').cyclicPart (h.isAllocated_eq _ ▸ ha) h.target hfmt
  obtain ⟨hmanner, -, hidx, -, -, -, hrep⟩ := hdesc.aligned t sub h.target
  rw [hfmt] at hrep
  rw [hrep.1, if_pos rfl] at hmanner
  rw [unpackTriplet, h.info_eq ha, h.alignTemplate_eq]
  dsimp only
  rw [hidx, hmanner, hpart.parStride, hdesc.upper, Option.bind_some,
    (h.built c').cyclic_parChunkWidth hfmt]
  rfl

theorem cyclic_width {P N m : ℤ} (hP : 0 < P) :
    LocalTriplet.width ⟨m, m + (N - 1 - m).tdiv P * P, P⟩ = (N - 1 - m).tdiv P + 1 := by
  rw [LocalTriplet.width, countTriplet]
  dsimp only
  rw [add_sub_cancel_left, Int.mul_tdiv_cancel _ hP.ne']

theorem mem_cyclic_pack {P off N m : ℤ} {x : ℕ} (hP : 0 < P) (hm : m = (x - off) % P)
    (hheld : ∃ p, CyclicHeld P off N x p) (p : ℤ) :
    p ∈ LocalTriplet.positions ⟨m, m + (N - 1 - m).tdiv P * P, P⟩ ↔ CyclicHeld P off N x p := by
  have hm0 : 0 ≤ m := hm ▸ Int.emod_nonneg _ hP.ne'
  have hmP : m < P := hm ▸ Int.emod_lt_of_pos _ hP
  have hd : P ∣ m + off - x := by
    have hself : P ∣ (x - off) - (x - off) % P := Int.dvd_self_sub_emod
    have heq : m + off - x = -((x - off) - (x - off) % P) := by
      rw [hm]
      ring
    rw [heq]
    exact (Int.dvd_neg).mpr hself
  have hclass : ∀ p, P ∣ p + off - x ↔ P ∣ p - m := by
    intro p
    have heq : p + off - x = (p - m) + (m + off - x) := by ring
    rw [heq]
    exact (Int.dvd_add_left hd)
  have hle : ∀ p, 0 ≤ p → P ∣ p - m → m ≤ p := by
    rintro p h0 ⟨y, hy⟩
    by_contra hlt
    have hmul : P * y ≤ P * -1 := by
      apply mul_le_mul_of_nonneg_left _ hP.le
      by_contra hy0
      have := mul_nonneg hP.le (show 0 ≤ y by omega)
      omega
    omega
  obtain ⟨p₀, h₀, hN₀, hd₀⟩ := hheld
  have hmN : m ≤ p₀ := hle p₀ h₀ ((hclass p₀).mp hd₀)
  rw [LocalTriplet.mem_positions hP, CyclicHeld, hclass, Int.tdiv_eq_ediv_of_nonneg (by omega)]
  have hdm := Int.emod_add_mul_ediv (N - 1 - m) P
  have hlt := Int.emod_lt_of_pos (N - 1 - m) hP
  have hnn := Int.emod_nonneg (N - 1 - m) hP.ne'
  have hcomm : (N - 1 - m) / P * P = P * ((N - 1 - m) / P) := mul_comm _ _
  dsimp only
  constructor
  · rintro ⟨h₁, h₂, h₃⟩
    exact ⟨by omega, by omega, h₃⟩
  · rintro ⟨h₁, h₂, y, hy⟩
    refine ⟨hle p h₁ ⟨y, hy⟩, ?_, ⟨y, hy⟩⟩
    have hyle : y ≤ (N - 1 - m) / P := by
      apply (Int.le_ediv_iff_mul_le hP).mpr
      rw [mul_comm]
      omega
    have hmul := mul_le_mul_of_nonneg_left hyle hP.le
    omega

theorem cyclic_parts (h : FullLine decl b a shadow c i t sub) (hfmt : (decl.dist t).2 = .cyclic) :
    LineParts (fun x => a (decl.commCoord a c (decl.dist t).1 x)) i (decl.dimSize i)
        (fun x p => decl.Owns (decl.commCoord a c (decl.dist t).1 x) i (decl.lower i + p))
        (fun x => cyclicUnpack (decl.nodesSize (decl.dist t).1) (decl.chunkWidth t)
          ((decl.upper i).tmod (decl.nodesSize (decl.dist t).1)) x) := by
  obtain ⟨S, hlen, hS, hSP, hget, hcover⟩ := h.cyclic_comm hfmt
  obtain ⟨hoff, hfit, hN⟩ := h.offset_bounds
  have hP : (0 : ℤ) < decl.nodesSize (decl.dist t).1 := by exact_mod_cast (c (decl.dist t).1).pos
  constructor
  · intro x r
    exact h.cyclic_unpackTriplet hfmt (commCoord_isAllocated r) _ x
  · intro x
    rw [h.cyclic_packTriplet hfmt (hget x) rfl]
    exact ⟨hP, hP⟩
  · intro x hheld p
    simp only [h.cyclic_owns_iff hfmt (hget x)] at hheld ⊢
    rw [h.cyclic_packTriplet hfmt (hget x) rfl]
    exact mem_cyclic_pack hP rfl hheld p
  · intro p h0 hp
    have hnn := Int.emod_nonneg (p + decl.alignOffset i t sub) hP.ne'
    have hlt := Int.emod_lt_of_pos (p + decl.alignOffset i t sub) hP
    obtain ⟨x, hx⟩ := Int.eq_ofNat_of_zero_le hnn
    have hxlt : x < (decl.shadowComm a c (decl.dist t).1).length := by
      rw [hlen]
      by_contra hge
      have hsmall := hcover (by omega)
      have hself : (p + decl.alignOffset i t sub) % decl.nodesSize (decl.dist t).1 =
          p + decl.alignOffset i t sub := Int.emod_eq_of_lt (by omega) (by omega)
      omega
    refine ⟨⟨x, hxlt⟩, (h.cyclic_owns_iff hfmt (hget ⟨x, hxlt⟩) p).mpr ⟨h0, hp, ?_⟩⟩
    dsimp only
    rw [show ((x : ℕ) : ℤ) = (p + decl.alignOffset i t sub) % decl.nodesSize (decl.dist t).1 from
      hx.symm]
    exact Int.dvd_self_sub_emod

end FullLine

/-! ## When the dimension is replicated -/

/-- What a reflection of a full shadow is to do on the line of `c`: all ranks agree on the number of
elements of every broadcast, the positions that are unpacked are those of the elements that the
root owns, and in the end every rank has the whole dimension. -/
structure FullReflected (decl : ArrayDecl k d n) (a : decl.Coord → XmpArray k d n) (c : decl.Coord)
    (i : Fin k) (j : Fin n) : Prop where
  counts : ∀ x r, bcastCount (a (decl.commCoord a c j r)) i =
    bcastCount (a (decl.commCoord a c j x)) i
  triplets : ∀ x r, r ≠ x → ∃ tr, unpackTriplet (a (decl.commCoord a c j r)) i
      (decl.shadowComm a c j).length x = some tr ∧
    ∀ p, p ∈ tr.positions ↔ decl.Owns (decl.commCoord a c j x) i (decl.lower i + p)
  replicated : ∀ (ρ : Type) (g : ℤ → ρ) (mems : Fin (decl.shadowComm a c j).length → ℤ → ρ),
    (∀ r p, decl.Owns (decl.commCoord a c j r) i (decl.lower i + p) → mems r p = g p) →
    ∃ mems', reflectShadowFullBcast i (fun x => a (decl.commCoord a c j x)) mems = some mems' ∧
      ∀ r p, 0 ≤ p → p < decl.dimSize i → mems' r p = g p

/-- One rank holds the dimension, or the parts fit: a `block` dimension starts with a block and
consists of full blocks; a `cyclic` dimension starts with a round, is as long as the template and
the remainder of the upper bound say, and gives every rank the same number of elements. The number
matters only where the rows are not empty. -/
def FullCond (decl : ArrayDecl k d n) (i : Fin k) (t : Fin d) (sub : ℤ) (S : ℕ) (rest : ℤ) : Prop :=
  S ≤ 1 ∨
    match (decl.dist t).2 with
    | .block => decl.chunkWidth t ∣ decl.alignOffset i t sub ∧
        (rest = 0 ∨ decl.chunkWidth t ∣ decl.dimSize i)
    | _ =>
      let P : ℤ := decl.nodesSize (decl.dist t).1
      P ∣ decl.alignOffset i t sub ∧
        decl.dimSize i = (decl.chunkWidth t - 1) * P +
          min (S : ℤ) (max 0 ((decl.upper i).tmod P + 1)) ∧
        (rest = 0 ∨ decl.dimSize i < P ∨ P ∣ decl.dimSize i)

namespace FullLine

variable {decl : ArrayDecl k d n} {b a : decl.Coord → XmpArray k d n} {shadow : Fin k → Shadow}
  {c : decl.Coord} {i : Fin k} {t : Fin d} {sub : ℤ}

theorem fullReflected_iff (h : FullLine decl b a shadow c i t sub)
    {stored : Fin (decl.shadowComm a c (decl.dist t).1).length → LocalTriplet}
    (hparts : LineParts (fun x => a (decl.commCoord a c (decl.dist t).1 x)) i (decl.dimSize i)
      (fun x p => decl.Owns (decl.commCoord a c (decl.dist t).1 x) i (decl.lower i + p)) stored)
    {width : Fin (decl.shadowComm a c (decl.dist t).1).length → ℤ}
    (hwidth : ∀ x, (packTriplet (a (decl.commCoord a c (decl.dist t).1 x)) i).width = width x) :
    FullReflected decl a c i (decl.dist t).1 ↔ (rowSize (a c) i = 0 ∨ ∀ x r, width r = width x) ∧
      TripletsRight (fun x p => decl.Owns (decl.commCoord a c (decl.dist t).1 x) i
        (decl.lower i + p)) stored := by
  have hrest : ∀ x, rowSize (a (decl.commCoord a c (decl.dist t).1 x)) i = rowSize (a c) i := by
    intro x
    exact h.rowSize_eq (ArrayDecl.onLine_coordAlong c _ _) (commCoord_isAllocated x)
  have hcounts := bcastCount_same_iff hwidth hrest
  constructor
  · intro href
    refine ⟨hcounts.mp href.counts, ?_⟩
    intro x r hr p
    obtain ⟨tr, htr, hmem⟩ := href.triplets x r hr
    rw [hparts.unpack x r] at htr
    obtain rfl := Option.some.inj htr
    exact hmem p
  · rintro ⟨hw, htriplets⟩
    refine ⟨hcounts.mpr hw, ?_, ?_⟩
    · intro x r hr
      exact ⟨stored x, hparts.unpack x r, htriplets x r hr⟩
    · intro ρ g mems hmems
      exact hparts.replicated (hcounts.mpr hw) htriplets hmems

end FullLine

/-- A template of `u + 1` elements in blocks on two nodes, with an array of the same shape. -/
def pairDecl (u : ℤ) (hu : 0 ≤ u ∧ u < 8) : ArrayDecl 1 1 1 :=
  .line 2 (.fixed 0 u (by unfold InInt; omega)) .block 0 u 0 two_nodes_lt trivial
    DistFormat.block_width_pos hu.1

def pairArray (u : ℤ) (hu : 0 ≤ u ∧ u < 8) (c : (pairDecl u hu).Coord) : XmpArray 1 1 1 :=
  (pairDecl u hu).builtLine c

/-- The descriptor with a full shadow. -/
def pairFull (u : ℤ) (hu : 0 ≤ u ∧ u < 8) (c : (pairDecl u hu).Coord) : XmpArray 1 1 1 :=
  match initShadow (pairArray u hu c) (fun _ => .full) with
  | .ok a => a
  | .error _ => pairArray u hu c

def pairCoord (u : ℤ) (hu : 0 ≤ u ∧ u < 8) (r : Fin 2) : (pairDecl u hu).Coord := fun _ => r

theorem eq_pairCoord {u : ℤ} {hu : 0 ≤ u ∧ u < 8} (c : (pairDecl u hu).Coord) :
    c = pairCoord u hu 0 ∨ c = pairCoord u hu 1 := by
  have hc : c = pairCoord u hu (c 0) := by
    funext j
    rw [Subsingleton.elim j 0]
    rfl
  have hcases : ∀ r : Fin 2, r = 0 ∨ r = 1 := by decide
  obtain h0 | h1 := hcases (c 0)
  · left
    rw [hc, h0]
  · right
    rw [hc, h1]

theorem fullLine_pair {u : ℤ} {hu : 0 ≤ u ∧ u < 8}
    (hbuild : ∀ r, (pairDecl u hu).build (pairCoord u hu r) =
      .ok (pairArray u hu (pairCoord u hu r)))
    (hshadow : ∀ r, initShadow (pairArray u hu (pairCoord u hu r)) (fun _ => .full) =
      .ok (pairFull u hu (pairCoord u hu r)))
    (halloc : (pairFull u hu (pairCoord u hu 0)).isAllocated = true) :
    FullLine (pairDecl u hu) (pairArray u hu) (pairFull u hu) (fun _ => .full) (pairCoord u hu 0)
      0 0 0 where
  built c := by
    obtain rfl | rfl := eq_pairCoord c
    · exact ArrayDecl.built_of_build (hbuild 0)
    · exact ArrayDecl.built_of_build (hbuild 1)
  shadowed c := by
    obtain rfl | rfl := eq_pairCoord c
    · exact hshadow 0
    · exact hshadow 1
  full := rfl
  target := rfl
  fmt := Or.inl rfl
  allocated := halloc
  gblocks := by
    intro i t sub m _ hfmt
    cases hfmt

theorem fullLine_four : FullLine (pairDecl 3 (by decide)) (pairArray 3 (by decide))
    (pairFull 3 (by decide)) (fun _ => .full) (pairCoord 3 (by decide) 0) 0 0 0 := by
  apply fullLine_pair
  · intro r
    fin_cases r <;> rfl
  · intro r
    fin_cases r <;> rfl
  · decide

theorem fullLine_five : FullLine (pairDecl 4 (by decide)) (pairArray 4 (by decide))
    (pairFull 4 (by decide)) (fun _ => .full) (pairCoord 4 (by decide) 0) 0 0 0 := by
  apply fullLine_pair
  · intro r
    fin_cases r <;> rfl
  · intro r
    fin_cases r <;> rfl
  · decide

end OmniCompiler.Xmp
