import OmniCompiler.Arithmetic.SmallFin
import OmniCompiler.Xmp.ArrayLayout

/-!
# The inquiry function for owners (`xmp_lib.c`)

`xmp_array_owner` divides the index and the offset of the alignment by one block width and adds
the quotients. It reads the width in the template dimension that has the number of the array
dimension, and the index and the node dimension that have the number of the template axis.
-/
namespace OmniCompiler.Xmp

open MachineInt BlockCyclic SmallFin

variable {k d n : ℕ}

/-- The dimension of another descriptor with a given number; `none` is a place behind its end. -/
def axis (m i : ℕ) : Option (Fin m) := if h : i < m then some ⟨i, h⟩ else none

def xmpDistBlocksize (t : Template d n) (dim : Fin d) : ℤ :=
  let chunk := t.chunk dim
  match chunk.distManner with
  | .block => toInt chunk.parChunkWidth
  | .cyclic | .blockCyclic => toInt chunk.parWidth
  | .duplication | .gblock => toInt chunk.parChunkWidth

/-- `dim` counts from zero here. -/
def xmpArrayOwner (a : XmpArray k d n) (index : Fin k → ℤ) (dim : Fin k) : Option ℤ := do
  let t := a.alignTemplate
  let tDim ← axis d dim
  let tDistSize := xmpDistBlocksize t tDim
  let quotient ← cdiv (a.info dim).alignSubscript tDistSize
  let idistnum := toInt quotient
  match (a.info dim).alignManner with
  | .block =>
    let idim ← (a.info dim).alignTemplateIndex
    let i ← axis k idim
    let quotient ← cdiv (index i) tDistSize
    let block ← cint quotient
    let sum ← cint (block + idistnum)
    cint (sum + 1)
  | .cyclic | .blockCyclic =>
    let idim ← (a.info dim).alignTemplateIndex
    let i ← axis k idim
    let j ← axis n idim
    let quotient ← cdiv (index i) tDistSize
    let block ← cint quotient
    let sum ← cint (block + idistnum)
    some (sum.tmod (t.ontoNodes.info j).size + 1)
  | .notAligned | .duplication | .gblock => some (-1)

/-! ## Numbers of blocks -/

theorem ediv_add_sub {W : ℤ} (hW : 0 < W) (x y z : ℤ) :
    (x + y - z) / W = x.tdiv W + y.tdiv W + (x.tmod W + y.tmod W - z) / W := by
  have hx := Int.tmod_add_mul_tdiv x W
  have hy := Int.tmod_add_mul_tdiv y W
  rw [show x + y - z = x.tmod W + y.tmod W - z + W * (x.tdiv W + y.tdiv W) by linarith,
    Int.add_mul_ediv_left _ _ hW.ne']
  ring

theorem tdiv_step_of_pos {w : ℤ} (hw : 0 < w) (y : ℤ) :
    y.tdiv w ≤ (y + 1).tdiv w ∧ (y + 1).tdiv w ≤ y.tdiv w + 1 := by
  refine ⟨Int.tdiv_le_tdiv hw (by omega), ?_⟩
  have hround : ∀ x : ℤ, (x + w) / w = x / w + 1 := fun x => by
    rw [Int.add_ediv_of_dvd_right dvd_rfl, Int.ediv_self hw.ne']
  rcases le_or_gt 0 y with hy | hy
  · rw [Int.tdiv_eq_ediv_of_nonneg hy, Int.tdiv_eq_ediv_of_nonneg (by omega), ← hround]
    exact Int.ediv_le_ediv hw (by omega)
  · have h1 : y.tdiv w = -(-y / w) := by
      rw [← Int.tdiv_eq_ediv_of_nonneg (by omega), Int.neg_tdiv, neg_neg]
    have h2 : (y + 1).tdiv w = -((-y - 1) / w) := by
      rw [← Int.tdiv_eq_ediv_of_nonneg (by omega), ← Int.neg_tdiv]
      congr 1
      ring
    have h3 := Int.ediv_le_ediv hw (show -y ≤ -y - 1 + w by omega)
    rw [hround] at h3
    omega

/-- A sequence that steps by at most one and keeps its residue modulo a number other than one is
constant. -/
theorem eq_of_dvd_step {f : ℤ → ℤ} {P a b : ℤ} (hstep : ∀ y, |f (y + 1) - f y| ≤ 1) (hP : P ≠ 1)
    (hnn : 0 ≤ P) (hab : a ≤ b) (h : ∀ y, a ≤ y → y < b → P ∣ f (y + 1) - f y) : f a = f b := by
  induction b, hab using Int.leInduction with
  | base => rfl
  | succ b hab ih =>
    rw [ih fun y h0 h1 => h y h0 (by omega)]
    have hdvd := h b hab (by omega)
    have hle := abs_le.mp (hstep b)
    by_contra hne
    have hone : P ∣ 1 := by
      rcases (show f (b + 1) - f b = 1 ∨ f (b + 1) - f b = -1 by omega) with he | he
      · rwa [he] at hdvd
      · rwa [he, dvd_neg] at hdvd
    exact hP (Int.eq_one_of_dvd_one hnn hone)

/-- Two sequences with independent arguments have the same residues when each of them is constant,
up to its modulus, and the first values agree. -/
theorem forall_tmod_eq_emod_iff (f g : ℤ → ℤ) {P Q a b a' b' : ℤ} (hab : a ≤ b) (hab' : a' ≤ b')
    (hP : 0 ≤ P) (hQ : 0 ≤ Q) (hf : ∀ y, |f (y + 1) - f y| ≤ 1) (hg : ∀ x, |g (x + 1) - g x| ≤ 1)
    (hfconst : f a = f b → ∀ y, a ≤ y → y ≤ b → f y = f a)
    (hgconst : g a' = g b' → ∀ x, a' ≤ x → x ≤ b' → g x = g a') :
    (∀ y x, a ≤ y → y ≤ b → a' ≤ x → x ≤ b' → (f y).tmod Q = g x % P) ↔
      (g a' = g b' ∨ P = 1) ∧ (f a = f b ∨ Q = 1) ∧ (f a).tmod Q = g a' % P := by
  constructor
  · intro h
    refine ⟨?_, ?_, h a a' le_rfl hab le_rfl hab'⟩
    · by_cases h1 : P = 1
      · exact Or.inr h1
      · refine Or.inl (eq_of_dvd_step hg h1 hP hab' fun x h2 h3 => ?_)
        have h4 := h a x le_rfl hab h2 h3.le
        have h5 := h a (x + 1) le_rfl hab (by omega) (by omega)
        exact Int.ModEq.dvd (h4.symm.trans h5)
    · by_cases h1 : Q = 1
      · exact Or.inr h1
      · refine Or.inl (eq_of_dvd_step hf h1 hQ hab fun y h2 h3 => ?_)
        have h4 := h y a' h2 h3.le le_rfl hab'
        have h5 := h (y + 1) a' (by omega) (by omega) le_rfl hab'
        have h6 := dvd_sub (dvd_sub_tmod (f (y + 1)) Q) (dvd_sub_tmod (f y) Q)
        rwa [h4, h5, sub_sub_sub_cancel_right] at h6
  · rintro ⟨hgc, hfc, hfirst⟩ y x h0 h1 h2 h3
    have hy : (f y).tmod Q = (f a).tmod Q := by
      rcases hfc with hc | rfl
      · rw [hfconst hc y h0 h1]
      · rw [Int.tmod_one, Int.tmod_one]
    have hx : g x % P = g a' % P := by
      rcases hgc with hc | rfl
      · rw [hgconst hc x h2 h3]
      · rw [Int.emod_one, Int.emod_one]
    rw [hy, hx, hfirst]

/-- The remainder of a block number less `e` is that of the block number. -/
theorem sub_tmod_eq_iff {P B e : ℤ} (hP : 0 < P) :
    (B - e).tmod P = B % P ↔ P ∣ e ∧ (e ≤ B ∨ P ∣ B) := by
  have hnn := Int.emod_nonneg B hP.ne'
  rcases le_or_gt e B with h | h
  · rw [Int.tmod_eq_emod_of_nonneg (by omega), and_iff_left (Or.inl h)]
    constructor
    · intro he
      have := Int.ModEq.dvd (show B - e ≡ B [ZMOD P] from he)
      rwa [sub_sub_cancel] at this
    · intro he
      exact (Int.modEq_iff_dvd.mpr (by rwa [sub_sub_cancel]) : B - e ≡ B [ZMOD P])
  · have hneg := tmod_nonpos P (show B - e ≤ 0 by omega)
    rw [or_iff_right (by omega)]
    constructor
    · intro he
      have h0 : B % P = 0 := by omega
      have h1 : P ∣ B := Int.dvd_of_emod_eq_zero h0
      have h2 : P ∣ B - e := tmod_eq_zero_iff.mp (he.trans h0)
      exact ⟨by have := dvd_sub h1 h2; rwa [sub_sub_cancel] at this, h1⟩
    · rintro ⟨h1, h2⟩
      rw [tmod_eq_zero_iff.mpr (dvd_sub h2 h1), Int.emod_eq_zero_of_dvd h2]

/-! ## Where the inquiry is right -/

namespace ArrayDecl

def ownerWidth (decl : ArrayDecl k d n) (t : Fin d) : ℤ :=
  match (decl.dist t).2 with
  | .block => ceilDiv (decl.template t).serSize (decl.nodesSize (decl.dist t).1)
  | .blockCyclic w => w
  | .cyclic | .duplication | .gblock _ => 1

/-- The block of the template dimension that an index of the array dimension lies in. -/
def blockOf (decl : ArrayDecl k d n) (t : Fin d) (sub x : ℤ) : ℤ :=
  (x + sub - (decl.template t).serLower) / decl.ownerWidth t

/-- The whole blocks in what index and offset leave over, less the lower bound of the template. -/
def carry (decl : ArrayDecl k d n) (t : Fin d) (sub x : ℤ) : ℤ :=
  (x.tmod (decl.ownerWidth t) + sub.tmod (decl.ownerWidth t) - (decl.template t).serLower) /
    decl.ownerWidth t

/-- For `BLOCK`. With one number for both axes nothing may be carried from the remainders into the
blocks. Otherwise another index is divided: all elements must lie in one block, and all indices of
the other dimension in the block of width `w` with the same number. -/
def BlockFits (decl : ArrayDecl k d n) (w : ℤ) (i dim : Fin k) (t : Fin d) (sub : ℤ) : Prop :=
  if i = dim then ∀ x, decl.lower dim ≤ x → x ≤ decl.upper dim → decl.carry t sub x = 0
  else decl.blockOf t sub (decl.lower dim) = decl.blockOf t sub (decl.upper dim) ∧
    (decl.lower i).tdiv w = (decl.upper i).tdiv w ∧
    (decl.lower i).tdiv w + sub.tdiv w = decl.blockOf t sub (decl.lower dim)

/-- For `CYCLIC` and `BLOCK_CYCLIC` the same up to the number of nodes. It is read from the node
dimension `j`: where this has another size, the block number less the carry must have the same
remainder for both sizes. -/
def CyclicFits (decl : ArrayDecl k d n) (w : ℤ) (i dim : Fin k) (t : Fin d) (j : Fin n) (sub : ℤ) :
    Prop :=
  let P : ℤ := decl.nodesSize (decl.dist t).1
  let P' : ℤ := decl.nodesSize j
  if i = dim then ∀ x, decl.lower dim ≤ x → x ≤ decl.upper dim →
    if P' = P then P ∣ decl.carry t sub x ∧
      (decl.carry t sub x ≤ decl.blockOf t sub x ∨ P ∣ decl.blockOf t sub x)
    else (decl.blockOf t sub x - decl.carry t sub x).tmod P' = decl.blockOf t sub x % P
  else (decl.blockOf t sub (decl.lower dim) = decl.blockOf t sub (decl.upper dim) ∨ P = 1) ∧
    ((decl.lower i).tdiv w = (decl.upper i).tdiv w ∨ P' = 1) ∧
    ((decl.lower i).tdiv w + sub.tdiv w).tmod P' = decl.blockOf t sub (decl.lower dim) % P

/-- The declarations for which the inquiry is right. The block width is read in the template
dimension with the number of the array dimension, the index and the node size under the number of
the template axis. -/
def OwnerFits (decl : ArrayDecl k d n) (a : XmpArray k d n) (dim : Fin k) (t : Fin d) (sub : ℤ) :
    Prop :=
  ∃ (hd : dim < d) (hk : t < k),
    let w := xmpDistBlocksize a.alignTemplate ⟨dim, hd⟩
    w ≠ 0 ∧
      match (decl.dist t).2 with
      | .block => decl.BlockFits w ⟨t, hk⟩ dim t sub
      | _ => ∃ hn : t < n, decl.CyclicFits w ⟨t, hk⟩ dim t ⟨t, hn⟩ sub

theorem ownerFits_of_ne_block {decl : ArrayDecl k d n} {a : XmpArray k d n} {dim : Fin k}
    {t : Fin d} {sub : ℤ} (hfmt : (decl.dist t).2 ≠ .block) :
    decl.OwnerFits a dim t sub ↔ ∃ (hd : dim < d) (hk : t < k),
      xmpDistBlocksize a.alignTemplate ⟨dim, hd⟩ ≠ 0 ∧ ∃ hn : t < n,
        decl.CyclicFits (xmpDistBlocksize a.alignTemplate ⟨dim, hd⟩) ⟨t, hk⟩ dim t ⟨t, hn⟩ sub := by
  unfold OwnerFits
  refine exists₂_congr fun hd hk => and_congr_right fun _ => ?_
  split
  · next hb => exact absurd hb hfmt
  · rfl

/-- The quotients that are read and their sum are in the range of `int`. -/
structure OwnerInInt (decl : ArrayDecl k d n) (a : XmpArray k d n) (dim : Fin k) (t : Fin d)
    (sub : ℤ) : Prop where
  offset : ∀ hd : dim < d, InInt (sub.tdiv (xmpDistBlocksize a.alignTemplate ⟨dim, hd⟩))
  sum : ∀ (hd : dim < d) (hk : t < k) (y : ℤ), decl.lower ⟨t, hk⟩ ≤ y → y ≤ decl.upper ⟨t, hk⟩ →
    let w := xmpDistBlocksize a.alignTemplate ⟨dim, hd⟩
    InInt (y.tdiv w) ∧ InInt (y.tdiv w + sub.tdiv w) ∧
      ((decl.dist t).2 = .block → InInt (y.tdiv w + sub.tdiv w + 1))

end ArrayDecl

section

variable {a : XmpArray k d n} {index : Fin k → ℤ} {dim : Fin k} {t : Fin d}

/-- Where one of the numbers is past the end of a descriptor, or the width is zero, there is no
answer. -/
theorem xmpArrayOwner_eq_none (hidx : (a.info dim).alignTemplateIndex = some t)
    (hman : (a.info dim).alignManner = .block ∨ (a.info dim).alignManner = .cyclic ∨
      (a.info dim).alignManner = .blockCyclic)
    (h : ∀ hd : dim < d, (t : ℕ) < k → xmpDistBlocksize a.alignTemplate ⟨dim, hd⟩ = 0) :
    xmpArrayOwner a index dim = none := by
  by_cases hd : (dim : ℕ) < d
  · by_cases hk : (t : ℕ) < k
    · simp [xmpArrayOwner, axis, hd, cdiv, h hd hk]
    · rcases hman with hman | hman | hman <;>
        simp [xmpArrayOwner, axis, hd, hk, hman, hidx]
  · simp [xmpArrayOwner, axis, hd]

theorem xmpArrayOwner_block (hidx : (a.info dim).alignTemplateIndex = some t)
    (hman : (a.info dim).alignManner = .block) {hd : dim < d} {hk : t < k} {w y s : ℤ}
    (hw : xmpDistBlocksize a.alignTemplate ⟨dim, hd⟩ = w) (hw0 : w ≠ 0)
    (hy : index ⟨t, hk⟩ = y) (hs : (a.info dim).alignSubscript = s) (hsub : InInt (s.tdiv w))
    (hblock : InInt (y.tdiv w)) (hsum : InInt (y.tdiv w + s.tdiv w))
    (hsucc : InInt (y.tdiv w + s.tdiv w + 1)) :
    xmpArrayOwner a index dim = some (y.tdiv w + s.tdiv w + 1) := by
  simp [xmpArrayOwner, axis, hd, hk, hman, hidx, hw, hy, hs, cdiv, hw0, toInt_of_inInt hsub,
    cint_of_inInt hblock, cint_of_inInt hsum, cint_of_inInt hsucc]

theorem xmpArrayOwner_cyclic (hidx : (a.info dim).alignTemplateIndex = some t)
    (hman : (a.info dim).alignManner = .cyclic ∨ (a.info dim).alignManner = .blockCyclic)
    {hd : dim < d} {hk : t < k} {w y s : ℤ}
    (hw : xmpDistBlocksize a.alignTemplate ⟨dim, hd⟩ = w) (hw0 : w ≠ 0)
    (hy : index ⟨t, hk⟩ = y) (hs : (a.info dim).alignSubscript = s) (hsub : InInt (s.tdiv w))
    (hblock : InInt (y.tdiv w)) (hsum : InInt (y.tdiv w + s.tdiv w)) :
    xmpArrayOwner a index dim = if hn : t < n then
      some ((y.tdiv w + s.tdiv w).tmod (a.alignTemplate.ontoNodes.info ⟨t, hn⟩).size + 1)
    else none := by
  rcases hman with hman | hman <;> split_ifs with hn <;>
    simp [xmpArrayOwner, axis, hd, hk, hn, hman, hidx, hw, hy, hs, cdiv, hw0, toInt_of_inInt hsub,
      cint_of_inInt hblock, cint_of_inInt hsum]

end

namespace ArrayDecl.Built

variable {decl : ArrayDecl k d n} {c : decl.Coord} {a : XmpArray k d n} {i : Fin k} {t : Fin d}
  {sub : ℤ}

theorem nodesSize_pos (c : decl.Coord) (j : Fin n) : (0 : ℤ) < decl.nodesSize j := by
  exact_mod_cast (c j).pos

theorem ownerScalar_block (h : decl.Built c a) (htar : decl.target i = some (t, sub))
    (hfmt : (decl.dist t).2 = .block) {g : ℤ} (h0 : (decl.template t).serLower ≤ g)
    (h1 : g ≤ (decl.template t).serUpper) :
    calcTemplateOwnerScalar a.alignTemplate t g =
      .ok ((g - (decl.template t).serLower) / decl.ownerWidth t) := by
  obtain ⟨-, -, -, hinfo, -, -, hrep⟩ := (h.described i).aligned t sub htar
  rw [hfmt] at hrep
  obtain ⟨hman, -, hwidth⟩ := hrep
  have hlim := (decl.template t).serSize_lt
  have hsize := (decl.template t).serUpper_eq
  have hW : 0 < ceilDiv (decl.template t).serSize (decl.nodesSize (decl.dist t).1) :=
    ceilDiv_pos (decl.template t).serSize_pos (nodesSize_pos c _)
  have hnn : 0 ≤ g - (decl.template t).serLower := by omega
  have hq0 := Int.ediv_nonneg hnn hW.le
  have hq1 := Int.ediv_le_self
    (ceilDiv (decl.template t).serSize (decl.nodesSize (decl.dist t).1)) hnn
  simp only [calcTemplateOwnerScalar, chunkOwnerScalar, hman, hinfo, hwidth, ownerWidth, hfmt,
    hW.ne', if_false]
  rw [toULL_of_nonneg hnn (by omega), Int.tdiv_eq_ediv_of_nonneg hnn,
    toInt_of_inInt ⟨by omega, by omega⟩]

theorem ownerScalar_cyclic (h : decl.Built c a) (htar : decl.target i = some (t, sub))
    (hreg : (decl.dist t).2.Regular) (hfmt : (decl.dist t).2 ≠ .block) {g : ℤ}
    (h0 : (decl.template t).serLower ≤ g) :
    ((a.info i).alignManner = .cyclic ∨ (a.info i).alignManner = .blockCyclic) ∧
      calcTemplateOwnerScalar a.alignTemplate t g =
        .ok ((g - (decl.template t).serLower) / decl.ownerWidth t %
          decl.nodesSize (decl.dist t).1) := by
  obtain ⟨halign, -, -, hinfo, -, -, hrep⟩ := (h.described i).aligned t sub htar
  have hs := decl.stride_inInt t
  have hpos : 0 ≤ g - (decl.template t).serLower := by omega
  have hP : (0 : ℤ) < decl.nodesSize (decl.dist t).1 := nodesSize_pos c _
  have hcoord : ∀ x : ℤ, InInt (x % decl.nodesSize (decl.dist t).1) := fun x =>
    (decl.nodesInfo c t).coord_inInt (Int.emod_nonneg x hP.ne') (Int.emod_lt_of_pos x hP)
  have key : ∀ w : ℤ, 0 < w → InInt (decl.nodesSize (decl.dist t).1 * w) →
      CyclicReplicated (decl.nodesSize (decl.dist t).1) (decl.dist t).1 w
        (a.alignTemplate.chunk t) → decl.ownerWidth t = w →
      ((a.info i).alignManner = .cyclic ∨ (a.info i).alignManner = .blockCyclic) ∧
        calcTemplateOwnerScalar a.alignTemplate t g =
          .ok ((g - (decl.template t).serLower) / decl.ownerWidth t %
            decl.nodesSize (decl.dist t).1) := by
    rintro w hw hround ⟨hman, -, hwidth, hstride⟩ hW
    rw [toInt_of_inInt hround] at hstride
    have hwint := (decl.nodesInfo c t).width_inInt hw hround
    rw [halign, hman, hW]
    by_cases hw1 : w = 1
    · subst hw1
      rw [if_pos rfl] at hman
      refine ⟨Or.inl rfl, ?_⟩
      simp only [calcTemplateOwnerScalar, chunkOwnerScalar, hman, hinfo, hstride, mul_one,
        Int.ediv_one, hP.ne', if_false]
      rw [Int.tmod_eq_emod_of_nonneg hpos, toInt_of_inInt (hcoord _)]
    · rw [if_neg hw1] at hman
      rw [if_neg hw1]
      refine ⟨Or.inr rfl, ?_⟩
      simp only [calcTemplateOwnerScalar, chunkOwnerScalar, hman, hinfo, hwidth, hstride,
        toInt_of_inInt hwint, Int.mul_tdiv_cancel _ hw.ne', hw.ne', hP.ne', or_self, if_false]
      rw [Int.tdiv_eq_ediv_of_nonneg hpos,
        Int.tmod_eq_emod_of_nonneg (Int.ediv_nonneg hpos hw.le), toInt_of_inInt (hcoord _)]
  cases hd : (decl.dist t).2 with
  | block => exact absurd hd hfmt
  | duplication => simp [hd, DistFormat.Regular] at hreg
  | gblock m => simp [hd, DistFormat.Regular] at hreg
  | cyclic =>
    rw [hd] at hrep
    exact key 1 one_pos (decl.nodesInfo c t).stride_one hrep (by simp [ownerWidth, hd])
  | blockCyclic w =>
    rw [hd] at hrep hs
    exact key w (decl.width_pos t w hd) hs hrep (by simp [ownerWidth, hd])

theorem ownerWidth_pos (c : decl.Coord) (t : Fin d) : 0 < decl.ownerWidth t := by
  unfold ownerWidth
  split
  · exact ceilDiv_pos (decl.template t).serSize_pos (nodesSize_pos c _)
  · next w hw => exact decl.width_pos t w hw
  all_goals exact one_pos

end ArrayDecl.Built

namespace ArrayDecl

/-- An index vector of the array. -/
def InBounds (decl : ArrayDecl k d n) (index : Fin k → ℤ) : Prop :=
  ∀ i, decl.lower i ≤ index i ∧ index i ≤ decl.upper i

variable {decl : ArrayDecl k d n}

theorem inBounds_update {index : Fin k → ℤ} (h : decl.InBounds index) {i : Fin k} {x : ℤ}
    (h0 : decl.lower i ≤ x) (h1 : x ≤ decl.upper i) :
    decl.InBounds (Function.update index i x) := by
  intro i'
  by_cases hi : i' = i
  · rw [hi, Function.update_self]
    exact ⟨h0, h1⟩
  · rw [Function.update_of_ne hi]
    exact h i'

theorem inBounds_lower : decl.InBounds decl.lower := fun i => ⟨le_rfl, decl.lower_le_upper i⟩

theorem forall_inBounds_iff {Q : ℤ → Prop} (dim : Fin k) :
    (∀ index, decl.InBounds index → Q (index dim)) ↔
      ∀ x, decl.lower dim ≤ x → x ≤ decl.upper dim → Q x := by
  constructor
  · intro h x h0 h1
    have := h _ (inBounds_update inBounds_lower h0 h1)
    rwa [Function.update_self] at this
  · exact fun h index hindex => h _ (hindex dim).1 (hindex dim).2

theorem forall_inBounds_iff_two {i dim : Fin k} (hne : i ≠ dim) {Q : ℤ → ℤ → Prop} :
    (∀ index, decl.InBounds index → Q (index i) (index dim)) ↔
      ∀ y x, decl.lower i ≤ y → y ≤ decl.upper i → decl.lower dim ≤ x → x ≤ decl.upper dim →
        Q y x := by
  constructor
  · intro h y x h0 h1 h2 h3
    have := h _ (inBounds_update (inBounds_update inBounds_lower h2 h3) h0 h1)
    rwa [Function.update_self, Function.update_of_ne hne.symm, Function.update_self] at this
  · exact fun h index hindex =>
      h _ _ (hindex i).1 (hindex i).2 (hindex dim).1 (hindex dim).2

end ArrayDecl

/-- The inquiry gives the number of the owner, counted from one. -/
def OwnerRight (a : XmpArray k d n) (index : Fin k → ℤ) (dim : Fin k) (t : Fin d) (sub : ℤ) :
    Prop :=
  ∃ rank, calcTemplateOwnerScalar a.alignTemplate t (index dim + sub) = .ok rank ∧
    xmpArrayOwner a index dim = some (1 + rank)

namespace ArrayDecl.Built

variable {decl : ArrayDecl k d n} {c : decl.Coord} {a : XmpArray k d n} {dim : Fin k} {t : Fin d}
  {sub : ℤ} {index : Fin k → ℤ}

theorem nodesSize_eq (h : decl.Built c a) (j : Fin n) :
    (a.alignTemplate.ontoNodes.info j).size = decl.nodesSize j := by
  obtain ⟨t₀, fresh, t', -, -, hdist, halign⟩ := h
  have hnodup : (decl.calls.map DistCall.templateIndex).Nodup := by
    simpa [ArrayDecl.calls, Function.comp_def] using List.nodup_finRange d
  rw [(alignArray_dims halign).1, distTemplates_ontoNodes hnodup hdist]
  rfl

/-- The inquiry for the block size gives the width of a regular dimension. -/
theorem blocksize_eq (h : decl.Built c a) (htar : decl.target dim = some (t, sub))
    (hreg : (decl.dist t).2.Regular) : xmpDistBlocksize a.alignTemplate t = decl.ownerWidth t := by
  obtain ⟨-, -, -, -, -, -, hrep⟩ := (h.described dim).aligned t sub htar
  have hs := decl.stride_inInt t
  cases hd : (decl.dist t).2 with
  | duplication => simp [hd, DistFormat.Regular] at hreg
  | gblock m => simp [hd, DistFormat.Regular] at hreg
  | block =>
    rw [hd] at hrep
    obtain ⟨hman, -, hwidth⟩ := hrep
    simp only [xmpDistBlocksize, hman, hwidth, ownerWidth, hd]
    exact toInt_of_inInt ((decl.template t).chunkWidth_inInt (decl.nodesInfo c t))
  | cyclic =>
    rw [hd] at hrep
    obtain ⟨hman, -, hwidth, -⟩ := hrep
    rw [if_pos rfl] at hman
    simp only [xmpDistBlocksize, hman, hwidth, ownerWidth, hd]
    decide
  | blockCyclic w =>
    rw [hd] at hrep hs
    obtain ⟨hman, -, hwidth, -⟩ := hrep
    have hw := (decl.nodesInfo c t).width_inInt (decl.width_pos t w hd) hs
    simp only [xmpDistBlocksize, ownerWidth, hd, hwidth, toInt_of_inInt hw]
    split_ifs at hman <;> simp [hman]

theorem ownerRight_block (h : decl.Built c a) (htar : decl.target dim = some (t, sub))
    (hfmt : (decl.dist t).2 = .block) (hint : decl.OwnerInInt a dim t sub)
    (hindex : decl.InBounds index) {hd : dim < d} (hk : t < k)
    (hw : xmpDistBlocksize a.alignTemplate ⟨dim, hd⟩ ≠ 0) :
    OwnerRight a index dim t sub ↔
      (index ⟨t, hk⟩).tdiv (xmpDistBlocksize a.alignTemplate ⟨dim, hd⟩) +
        sub.tdiv (xmpDistBlocksize a.alignTemplate ⟨dim, hd⟩) =
          decl.blockOf t sub (index dim) := by
  obtain ⟨hman, hsub, hidx, -, hlo, hhi, hrep⟩ := (h.described dim).aligned t sub htar
  obtain ⟨hx0, hx1⟩ := hindex dim
  obtain ⟨hblock, hsum, hsucc⟩ := hint.sum hd hk _ (hindex ⟨t, hk⟩).1 (hindex ⟨t, hk⟩).2
  have hown := h.ownerScalar_block htar hfmt (g := index dim + sub) (by omega) (by omega)
  rw [hfmt] at hrep
  have hmanner : (a.info dim).alignManner = .block := by
    rw [hman, hrep.1]
    rfl
  rw [OwnerRight, hown, xmpArrayOwner_block hidx hmanner rfl hw rfl hsub (hint.offset hd) hblock
    hsum (hsucc hfmt)]
  simp only [Except.ok.injEq, exists_eq_left', Option.some.injEq, blockOf]
  constructor <;> intro he <;> linarith

theorem ownerRight_cyclic (h : decl.Built c a) (htar : decl.target dim = some (t, sub))
    (hreg : (decl.dist t).2.Regular) (hfmt : (decl.dist t).2 ≠ .block)
    (hint : decl.OwnerInInt a dim t sub) (hindex : decl.InBounds index) {hd : dim < d} (hk : t < k)
    (hw : xmpDistBlocksize a.alignTemplate ⟨dim, hd⟩ ≠ 0) :
    OwnerRight a index dim t sub ↔ ∃ hn : t < n,
      ((index ⟨t, hk⟩).tdiv (xmpDistBlocksize a.alignTemplate ⟨dim, hd⟩) +
        sub.tdiv (xmpDistBlocksize a.alignTemplate ⟨dim, hd⟩)).tmod (decl.nodesSize ⟨t, hn⟩) =
          decl.blockOf t sub (index dim) % decl.nodesSize (decl.dist t).1 := by
  obtain ⟨-, hsub, hidx, -, hlo, hhi, -⟩ := (h.described dim).aligned t sub htar
  obtain ⟨hx0, hx1⟩ := hindex dim
  obtain ⟨hblock, hsum, -⟩ := hint.sum hd hk _ (hindex ⟨t, hk⟩).1 (hindex ⟨t, hk⟩).2
  obtain ⟨hmanner, hown⟩ := h.ownerScalar_cyclic htar hreg hfmt (g := index dim + sub) (by omega)
  rw [OwnerRight, hown, xmpArrayOwner_cyclic hidx hmanner rfl hw rfl hsub (hint.offset hd) hblock
    hsum]
  simp only [Except.ok.injEq, exists_eq_left', h.nodesSize_eq, blockOf]
  by_cases hn : (t : ℕ) < n
  · simp only [hn, dif_pos, Option.some.injEq, exists_true_left]
    constructor <;> intro he <;> linarith
  · simp [hn]

theorem not_ownerRight (h : decl.Built c a) (htar : decl.target dim = some (t, sub))
    (hreg : (decl.dist t).2.Regular)
    (hw : ∀ hd : dim < d, (t : ℕ) < k → xmpDistBlocksize a.alignTemplate ⟨dim, hd⟩ = 0) :
    ¬ OwnerRight a index dim t sub := by
  obtain ⟨hman, -, hidx, -, hlo, -, hrep⟩ := (h.described dim).aligned t sub htar
  have hmanner : (a.info dim).alignManner = .block ∨ (a.info dim).alignManner = .cyclic ∨
      (a.info dim).alignManner = .blockCyclic := by
    by_cases hfmt : (decl.dist t).2 = .block
    · rw [hfmt] at hrep
      exact Or.inl (by rw [hman, hrep.1]; rfl)
    · have hl := decl.lower_le_upper dim
      exact Or.inr (h.ownerScalar_cyclic htar hreg hfmt
        (g := (decl.template t).serLower) le_rfl).1
  rintro ⟨rank, -, hright⟩
  rw [xmpArrayOwner_eq_none hidx hmanner hw] at hright
  cases hright

/-- With one number for both axes, the blocks that the inquiry counts are those of the position,
less the carry. -/
theorem quotients_eq (c : decl.Coord) (t : Fin d) (sub x : ℤ) :
    x.tdiv (decl.ownerWidth t) + sub.tdiv (decl.ownerWidth t) =
      decl.blockOf t sub x - decl.carry t sub x := by
  rw [blockOf, carry, ediv_add_sub (ownerWidth_pos c t)]
  ring

theorem blockOf_step (c : decl.Coord) (t : Fin d) (sub x : ℤ) :
    |decl.blockOf t sub (x + 1) - decl.blockOf t sub x| ≤ 1 := by
  have hW := ownerWidth_pos c t
  have h0 := Int.ediv_le_ediv hW (show x + sub - (decl.template t).serLower ≤
    x + 1 + sub - (decl.template t).serLower by omega)
  have h1 := Int.ediv_le_ediv hW (show x + 1 + sub - (decl.template t).serLower ≤
    x + sub - (decl.template t).serLower + 1 * decl.ownerWidth t by omega)
  rw [Int.add_mul_ediv_right _ _ hW.ne'] at h1
  unfold blockOf
  rw [abs_le]
  omega

theorem blockOf_const (c : decl.Coord) {x x' : ℤ}
    (h : decl.blockOf t sub x = decl.blockOf t sub x') (y : ℤ) (h0 : x ≤ y) (h1 : y ≤ x') :
    decl.blockOf t sub y = decl.blockOf t sub x := by
  have hW := ownerWidth_pos c t
  have h2 := Int.ediv_le_ediv hW (show x + sub - (decl.template t).serLower ≤
    y + sub - (decl.template t).serLower by omega)
  have h3 := Int.ediv_le_ediv hW (show y + sub - (decl.template t).serLower ≤
    x' + sub - (decl.template t).serLower by omega)
  unfold blockOf at h ⊢
  omega

end ArrayDecl.Built

theorem tdiv_step (w s y : ℤ) : |(y + 1).tdiv w + s - (y.tdiv w + s)| ≤ 1 := by
  rw [add_sub_add_right_eq_sub, abs_le]
  rcases lt_trichotomy w 0 with hw | rfl | hw
  · obtain ⟨h0, h1⟩ := tdiv_step_of_pos (show 0 < -w by omega) y
    rw [Int.tdiv_neg, Int.tdiv_neg] at h0 h1
    omega
  · simp
  · obtain ⟨h0, h1⟩ := tdiv_step_of_pos hw y
    omega

theorem tdiv_const {w s a b : ℤ} (h : a.tdiv w + s = b.tdiv w + s) (y : ℤ) (h0 : a ≤ y)
    (h1 : y ≤ b) : y.tdiv w + s = a.tdiv w + s := by
  rcases lt_trichotomy w 0 with hw | rfl | hw
  · have h2 := Int.tdiv_le_tdiv (show 0 < -w by omega) h0
    have h3 := Int.tdiv_le_tdiv (show 0 < -w by omega) h1
    rw [Int.tdiv_neg, Int.tdiv_neg] at h2 h3
    omega
  · simp
  · have h2 := Int.tdiv_le_tdiv hw h0
    have h3 := Int.tdiv_le_tdiv hw h1
    omega

namespace ArrayDecl.Built

variable {decl : ArrayDecl k d n} {c : decl.Coord} {a : XmpArray k d n} {dim i : Fin k} {t : Fin d}
  {j : Fin n} {sub w : ℤ}

theorem forall_block_iff (c : decl.Coord) (hw : i = dim → w = decl.ownerWidth t) :
    (∀ index, decl.InBounds index →
      (index i).tdiv w + sub.tdiv w = decl.blockOf t sub (index dim)) ↔
        decl.BlockFits w i dim t sub := by
  have hbound := decl.lower_le_upper
  unfold BlockFits
  split_ifs with heq
  · rw [hw heq, heq, forall_inBounds_iff dim (Q := fun x => x.tdiv (decl.ownerWidth t) +
      sub.tdiv (decl.ownerWidth t) = decl.blockOf t sub x)]
    refine forall₃_congr fun x _ _ => ?_
    rw [quotients_eq c]
    omega
  · rw [forall_inBounds_iff_two heq (Q := fun y x => y.tdiv w + sub.tdiv w = decl.blockOf t sub x)]
    -- the residues modulo zero are the numbers themselves
    have hagree := forall_tmod_eq_emod_iff (fun y => y.tdiv w + sub.tdiv w) (decl.blockOf t sub)
      (hbound i) (hbound dim) (le_refl 0) (le_refl 0) (tdiv_step w (sub.tdiv w))
      (blockOf_step c t sub) tdiv_const (blockOf_const c)
    simp only [Int.tmod_zero, Int.emod_zero, zero_ne_one, or_false, add_left_inj] at hagree
    exact hagree

theorem forall_cyclic_iff (c : decl.Coord) (hw : i = dim → w = decl.ownerWidth t) :
    (∀ index, decl.InBounds index → ((index i).tdiv w + sub.tdiv w).tmod (decl.nodesSize j) =
      decl.blockOf t sub (index dim) % decl.nodesSize (decl.dist t).1) ↔
        decl.CyclicFits w i dim t j sub := by
  have hbound := decl.lower_le_upper
  have hP := nodesSize_pos c (decl.dist t).1
  unfold CyclicFits
  dsimp only
  split_ifs with heq hsize
  · rw [hw heq, heq, forall_inBounds_iff dim (Q := fun x => (x.tdiv (decl.ownerWidth t) +
      sub.tdiv (decl.ownerWidth t)).tmod (decl.nodesSize j) =
        decl.blockOf t sub x % decl.nodesSize (decl.dist t).1)]
    refine forall₃_congr fun x _ _ => ?_
    rw [quotients_eq c, hsize, sub_tmod_eq_iff hP]
  · rw [hw heq, heq, forall_inBounds_iff dim (Q := fun x => (x.tdiv (decl.ownerWidth t) +
      sub.tdiv (decl.ownerWidth t)).tmod (decl.nodesSize j) =
        decl.blockOf t sub x % decl.nodesSize (decl.dist t).1)]
    refine forall₃_congr fun x _ _ => ?_
    rw [quotients_eq c]
  · rw [forall_inBounds_iff_two heq (Q := fun y x =>
      (y.tdiv w + sub.tdiv w).tmod (decl.nodesSize j) =
        decl.blockOf t sub x % decl.nodesSize (decl.dist t).1)]
    have hagree := forall_tmod_eq_emod_iff (fun y => y.tdiv w + sub.tdiv w) (decl.blockOf t sub)
      (hbound i) (hbound dim) (Int.natCast_nonneg (decl.nodesSize (decl.dist t).1))
      (Int.natCast_nonneg (decl.nodesSize j)) (tdiv_step w (sub.tdiv w)) (blockOf_step c t sub)
      tdiv_const (blockOf_const c)
    simp only [add_left_inj] at hagree
    exact hagree

end ArrayDecl.Built

/-- The inquiry is right for all indices of an array exactly for the declarations that
`ArrayDecl.OwnerFits` describes. -/
theorem xmpArrayOwner_iff (decl : ArrayDecl k d n) {c : decl.Coord} {a : XmpArray k d n}
    (h : decl.Built c a) {dim : Fin k} {t : Fin d} {sub : ℤ}
    (htar : decl.target dim = some (t, sub)) (hreg : (decl.dist t).2.Regular)
    (hint : decl.OwnerInInt a dim t sub) :
    (∀ index, decl.InBounds index → OwnerRight a index dim t sub) ↔
      decl.OwnerFits a dim t sub := by
  by_cases hex : ∃ (hd : dim < d) (_ : t < k), xmpDistBlocksize a.alignTemplate ⟨dim, hd⟩ ≠ 0
  · obtain ⟨hd, hk, hw⟩ := hex
    have hsame : (⟨t, hk⟩ : Fin k) = dim → xmpDistBlocksize a.alignTemplate ⟨dim, hd⟩ =
        decl.ownerWidth t := by
      rintro rfl
      exact h.blocksize_eq htar hreg
    by_cases hfmt : (decl.dist t).2 = .block
    · rw [forall₂_congr fun index hindex => h.ownerRight_block htar hfmt hint hindex hk hw,
        ArrayDecl.Built.forall_block_iff c hsame]
      simp only [ArrayDecl.OwnerFits, hfmt, hd, hk, exists_true_left, ne_eq, hw, not_false_eq_true,
        true_and]
    · rw [forall₂_congr fun index hindex =>
        h.ownerRight_cyclic htar hreg hfmt hint hindex hk hw,
        ArrayDecl.ownerFits_of_ne_block hfmt]
      simp only [hd, hk, exists_true_left, ne_eq, hw, not_false_eq_true, true_and]
      by_cases hn : (t : ℕ) < n
      · simp only [hn, exists_true_left]
        exact ArrayDecl.Built.forall_cyclic_iff c hsame
      · simp only [hn, IsEmpty.exists_iff, iff_false]
        exact fun hall => hall _ ArrayDecl.inBounds_lower
  · refine iff_of_false (fun hall => ?_) fun ⟨hd, hk, hw, _⟩ => hex ⟨hd, hk, hw⟩
    refine h.not_ownerRight htar hreg (fun hd hk => ?_) (hall _ ArrayDecl.inBounds_lower)
    by_contra hw
    exact hex ⟨hd, hk, hw⟩

theorem nine_inInt : (0 : ℤ) ≤ 9 ∧ InInt 0 ∧ InInt 9 ∧ InInt (9 - 0 + 1) := by decide

/-- The array `a(0:upper)`, aligned as `a(i)` with `t(i+2)`, where `t(0:9)` is dealt in two blocks
of five. -/
def offsetDecl (upper : ℤ) (h : 0 ≤ upper) : ArrayDecl 1 1 1 :=
  .line 2 (.fixed 0 9 nine_inInt) .block 0 upper 2 two_nodes_lt trivial
    DistFormat.block_width_pos h

def headDecl : ArrayDecl 1 1 1 := offsetDecl 2 (by norm_num)

def headArray : XmpArray 1 1 1 := headDecl.builtLine fun _ => (0 : Fin 2)

theorem headArray_built : headDecl.Built (fun _ => (0 : Fin 2)) headArray :=
  ArrayDecl.built_of_build rfl

theorem headArray_inInt : headDecl.OwnerInInt headArray 0 0 2 := by
  have hw : xmpDistBlocksize headArray.alignTemplate 0 = 5 := by decide
  refine ⟨fun _ => ?_, fun _ _ y h0 h1 => ?_⟩
  · change InInt (Int.tdiv 2 (xmpDistBlocksize headArray.alignTemplate 0))
    rw [hw]
    decide
  · change InInt (y.tdiv (xmpDistBlocksize headArray.alignTemplate 0)) ∧
      InInt (y.tdiv (xmpDistBlocksize headArray.alignTemplate 0) +
        Int.tdiv 2 (xmpDistBlocksize headArray.alignTemplate 0)) ∧
      (_ → InInt (y.tdiv (xmpDistBlocksize headArray.alignTemplate 0) +
        Int.tdiv 2 (xmpDistBlocksize headArray.alignTemplate 0) + 1))
    change 0 ≤ y at h0
    change y ≤ 2 at h1
    rw [hw]
    interval_cases y <;> exact ⟨by decide, by decide, fun _ => by decide⟩

/-- The elements `a(0:2)` lie in the first block, and their remainders and that of the offset do not
fill it. -/
theorem xmpArrayOwner_head : headDecl.Built (fun _ => (0 : Fin 2)) headArray ∧
    ∀ index, headDecl.InBounds index → OwnerRight headArray index 0 0 2 := by
  refine ⟨headArray_built, ?_⟩
  refine (@xmpArrayOwner_iff 1 1 1 headDecl _ headArray headArray_built 0 0 2 rfl trivial
    headArray_inInt).mpr ⟨one_pos, one_pos, ?_, fun x h0 h1 => ?_⟩
  · have hw : xmpDistBlocksize headArray.alignTemplate 0 = 5 := by decide
    change xmpDistBlocksize headArray.alignTemplate 0 ≠ 0
    rw [hw]
    decide
  · change 0 ≤ x at h0
    change x ≤ 2 at h1
    change (x.tmod 5 + Int.tmod 2 5 - 0) / 5 = 0
    interval_cases x <;> decide

def wholeDecl : ArrayDecl 1 1 1 := offsetDecl 5 (by norm_num)

def wholeArray : XmpArray 1 1 1 := wholeDecl.builtLine fun _ => (0 : Fin 2)

theorem wholeArray_built : wholeDecl.Built (fun _ => (0 : Fin 2)) wholeArray :=
  ArrayDecl.built_of_build rfl

/-- The offset carries `a(3)` into the second block, and the two quotients do not see it. -/
theorem xmpArrayOwner_three : wholeDecl.Built (fun _ => (0 : Fin 2)) wholeArray ∧
    wholeDecl.InBounds (fun _ => 3) ∧
    calcTemplateOwnerScalar wholeArray.alignTemplate 0 (3 + 2) = .ok 1 ∧
    xmpArrayOwner wholeArray (fun _ => 3) 0 = some 1 ∧
    ¬ OwnerRight wholeArray (fun _ => 3) 0 0 2 := by
  have howner : calcTemplateOwnerScalar wholeArray.alignTemplate 0 (3 + 2) = .ok 1 := by decide
  have hanswer : xmpArrayOwner wholeArray (fun _ => 3) 0 = some 1 := by decide
  refine ⟨wholeArray_built, fun _ => show (0 : ℤ) ≤ 3 ∧ (3 : ℤ) ≤ 5 by decide, howner, hanswer, ?_⟩
  rintro ⟨rank, h1, h2⟩
  rw [howner, Except.ok.injEq] at h1
  rw [hanswer, Option.some.injEq] at h2
  omega

end OmniCompiler.Xmp
