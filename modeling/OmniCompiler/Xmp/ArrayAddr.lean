import OmniCompiler.Arithmetic.RowMajor
import OmniCompiler.Xmp.AlignedBlockCyclic
import OmniCompiler.Xmp.ArrayCells
import OmniCompiler.Xmp.ArrayParts

/-!
# Addresses of array elements (`xmp_gmove.c`)

`_XMP_get_array_addr` computes the place of an element in the memory of its node anew, from the
alignment of each dimension. The source assumes that even a cyclic array is distributed equally.
-/
namespace OmniCompiler.Xmp

open MachineInt BlockCyclic OwnedCount Runs RowMajor SmallFin

variable {k d n : ℕ}

/-- The sizes of the dimensions that follow each one, and the number of elements, as
`_XMP_alloc_array` computes them. -/
def allocArray (array : XmpArray k d n) : (Fin k → ℤ) × ℤ :=
  (List.finRange k).reverse.foldl
    (fun st i => (Function.update st.1 i st.2, st.2 * (array.info i).allocSize)) (fun _ => 0, 1)

/-- `lidx` of one dimension. The offset and the lower bound of the template are copied to `int`,
and the divisor of a block-cyclic dimension is a product of `int`s. -/
def arrayAddrIdx (array : XmpArray k d n) (i : Fin k) (gidx : ℤ) : Except String ℤ :=
  let ai := array.info i
  match ai.alignManner, ai.alignTemplateIndex with
  | .notAligned, _ | .duplication, _ => .ok (gidx - ai.serLower)
  | .block, _ => .ok (gidx - ai.parLower + ai.shadowSizeLo)
  | .cyclic, some t =>
    let offset := toInt ai.alignSubscript
    let tLb := toInt (array.alignTemplate.info t).serLower
    let np := ai.parStride
    if np = 0 then .error "_XMP_get_array_addr: division by zero"
    else .ok ((gidx + offset - tLb).tdiv np)
  | .blockCyclic, some t =>
    let offset := toInt ai.alignSubscript
    let tLb := toInt (array.alignTemplate.info t).serLower
    let np := ai.parStride
    let w := (array.alignTemplate.chunk t).parStride
    let x := gidx + offset - tLb
    if toInt (np * w) = 0 ∨ w = 0 then .error "_XMP_get_array_addr: division by zero"
    else .ok (w * x.tdiv (toInt (np * w)) + x.tmod w)
  | _, _ => .error "_XMP_get_array_addr: unknown align_manner"

/-- `_XMP_get_array_addr`; `dimAcc` are the sizes that `_XMP_alloc_array` has stored. -/
def getArrayAddr (array : XmpArray k d n) (dimAcc : Fin k → ℤ) (arrayAddr typeSize : ℤ)
    (gidx : Fin k → ℤ) : Except String ℤ :=
  (List.finRange k).foldlM (fun ret i => do
    let lidx ← arrayAddrIdx array i (gidx i)
    .ok (ret + lidx * dimAcc i * typeSize)) arrayAddr

/-! ## Offsets -/

theorem allocArray_eq (array : XmpArray k d n) :
    allocArray array = (fun i => ∏ j ∈ Finset.Ioi i, (array.info j).allocSize,
      ∏ i, (array.info i).allocSize) := by
  have hrun : ∀ l : List (Fin k), l.Pairwise (· < ·) →
      let st := l.foldr (fun i st => (Function.update st.1 i st.2, st.2 * (array.info i).allocSize))
        ((fun _ => 0, 1) : (Fin k → ℤ) × ℤ)
      st.2 = (l.map fun x => (array.info x).allocSize).prod ∧
        ∀ j ∈ l, st.1 j = (l.map fun x => if j < x then (array.info x).allocSize else 1).prod := by
    intro l
    induction l with
    | nil => exact fun _ => ⟨rfl, by simp⟩
    | cons i l ih =>
      intro hl
      obtain ⟨hlt, hl⟩ := List.pairwise_cons.mp hl
      obtain ⟨htotal, hacc⟩ := ih hl
      refine ⟨?_, fun j hj => ?_⟩
      · rw [List.foldr_cons, List.map_cons, List.prod_cons, htotal, mul_comm]
      · rw [List.foldr_cons, List.map_cons, List.prod_cons]
        dsimp only
        rcases List.mem_cons.mp hj with rfl | hj
        · rw [Function.update_self, htotal, if_neg (lt_irrefl j), one_mul]
          congr 1
          exact List.map_congr_left fun x hx => (if_pos (hlt x hx)).symm
        · rw [Function.update_of_ne (hlt j hj).ne', hacc j hj, if_neg (hlt j hj).not_gt, one_mul]
  obtain ⟨htotal, hacc⟩ := hrun (List.finRange k) (List.pairwise_lt_finRange k)
  rw [allocArray, List.foldl_reverse]
  refine Prod.ext (funext fun i => ?_) ?_
  · rw [hacc i (List.mem_finRange i), ← Fin.prod_univ_def, ← Finset.prod_filter,
      Finset.filter_lt_eq_Ioi]
  · rw [htotal, ← Fin.prod_univ_def]

theorem getArrayAddr_eq {array : XmpArray k d n} {base typeSize : ℤ} {gidx v : Fin k → ℤ}
    (h : ∀ i, arrayAddrIdx array i (gidx i) = .ok (v i)) :
    getArrayAddr array (allocArray array).1 base typeSize gidx =
      .ok (base + rowMajor (fun i => (array.info i).allocSize) v * typeSize) := by
  have hrun : ∀ (l : List (Fin k)) (acc : Fin k → ℤ) (ret : ℤ),
      l.foldlM (fun ret i => do
        let lidx ← arrayAddrIdx array i (gidx i)
        .ok (ret + lidx * acc i * typeSize)) ret =
        (.ok (ret + (l.map fun i => v i * acc i).sum * typeSize) : Except String ℤ) := by
    intro l acc
    induction l with
    | nil => intro ret; simp [pure, Except.pure]
    | cons i l ih =>
      intro ret
      rw [List.foldlM_cons, h i]
      simp only [bind, Except.bind] at ih ⊢
      rw [ih, List.map_cons, List.sum_cons]
      congr 1
      ring
  rw [getArrayAddr, hrun, allocArray_eq, ← Fin.sum_univ_def]
  rfl

/-! ## One dimension -/

/-- What a dimension makes of the indices `S` that a node owns: their numbers `f`, which reach the
last place when they are apart, and whether they are apart and within the allocated size. -/
structure DimAddr (array : XmpArray k d n) (i : Fin k) (S : Set ℤ) (f : ℤ → ℤ) (fits : Prop) :
    Prop where
  pos : 0 < (array.info i).allocSize
  idx : ∀ g ∈ S, arrayAddrIdx array i g = .ok (f g)
  nonneg : ∀ g ∈ S, 0 ≤ f g
  room : Set.InjOn f S → ∃ g ∈ S, (array.info i).allocSize - 1 ≤ f g
  fits_iff : (Set.InjOn f S ∧ ∀ g ∈ S, f g < (array.info i).allocSize) ↔ fits

theorem dimAddr_contiguous {array : XmpArray k d n} {i : Fin k} {L U : ℤ} (hLU : L ≤ U)
    (hsize : (array.info i).allocSize = U - L + 1)
    (hidx : ∀ g, arrayAddrIdx array i g = .ok (g - L)) :
    DimAddr array i {g | L ≤ g ∧ g ≤ U} (fun g => g - L) True where
  pos := by omega
  idx := fun g _ => hidx g
  nonneg := fun g hg => by have := hg.1; omega
  room := fun _ => ⟨U, ⟨hLU, le_rfl⟩, by omega⟩
  fits_iff := iff_of_true ⟨fun x _ y _ h => by simp only at h; omega, fun g hg => by
    have := hg.2
    omega⟩ trivial

/-- A dimension described by the positions of its elements in the template. -/
theorem dimAddr_of_positions {array : XmpArray k d n} {i : Fin k} {s : ℤ} {T : Set ℤ} {F : ℤ → ℤ}
    {fits : Prop} (hpos : 0 < (array.info i).allocSize)
    (hidx : ∀ g, g + s ∈ T → arrayAddrIdx array i g = .ok (F (g + s)))
    (hnn : ∀ x ∈ T, 0 ≤ F x)
    (hroom : Set.InjOn F T → ∃ x ∈ T, (array.info i).allocSize - 1 ≤ F x)
    (hfits : (Set.InjOn F T ∧ ∀ x ∈ T, F x < (array.info i).allocSize) ↔ fits) :
    DimAddr array i {g | g + s ∈ T} (fun g => F (g + s)) fits := by
  have hinj : Set.InjOn (fun g => F (g + s)) {g | g + s ∈ T} ↔ Set.InjOn F T := by
    constructor
    · intro h x hx y hy hxy
      have hx' : x - s + s ∈ T := by rwa [sub_add_cancel]
      have hy' : y - s + s ∈ T := by rwa [sub_add_cancel]
      have heq := h hx' hy' (by simpa only [sub_add_cancel] using hxy)
      omega
    · intro h x hx y hy hxy
      have heq := h hx hy hxy
      omega
  refine ⟨hpos, hidx, fun g hg => hnn _ hg, fun h => ?_, ?_⟩
  · obtain ⟨x, hx, hle⟩ := hroom (hinj.mp h)
    refine ⟨x - s, ?_, ?_⟩ <;> simp only [Set.mem_ofPred_eq, sub_add_cancel]
    · exact hx
    · exact hle
  · rw [hinj, ← hfits]
    refine and_congr_right fun _ => ⟨fun h x hx => ?_, fun h g hg => h _ hg⟩
    have hx' := h (x - s)
    simp only [Set.mem_ofPred_eq, sub_add_cancel] at hx'
    exact hx' hx

/-! ### Dealt dimensions -/

section Dealt

variable {w P r l u : ℤ}

theorem firstStart_bounds (hw : 0 < w) (hP : 0 < P) :
    l < firstStart w P r l + w ∧ firstStart w P r l + w ≤ l + P * w := by
  have hm0 := Int.emod_nonneg (r - l / w) hP.ne'
  have hm1 := Int.emod_lt_of_pos (r - l / w) hP
  have hl0 := Int.emod_nonneg l hw.ne'
  have hl1 := Int.emod_lt_of_pos l hw
  have hl := Int.emod_add_mul_ediv l w
  have hmul := mul_le_mul_of_nonneg_right (show (r - l / w) % P + 1 ≤ P by omega) hw.le
  have hnn := mul_nonneg hm0 hw.le
  have hexp : firstStart w P r l = w * (l / w) + (r - l / w) % P * w := by
    rw [firstStart]
    ring
  rw [add_mul, one_mul] at hmul
  rw [hexp]
  omega

theorem owned_eq_runs (hw : 0 < w) (hP : 0 < P) (hr0 : 0 ≤ r) (hr1 : r < P) :
    {x | l ≤ x ∧ x ≤ u ∧ owner w P x = r} = runs w (P * w) (firstStart w P r l) l u := by
  have hplace : (l / w + (r - l / w) % P) % P = r := by
    rw [Int.add_emod_emod, add_sub_cancel, Int.emod_eq_of_lt hr0 hr1]
  ext x
  have hrun := owner_eq_iff_run hw hP (l / w + (r - l / w) % P) x
  rw [hplace] at hrun
  simp only [runs, firstStart, Set.mem_ofPred_eq, hrun]

/-- In a cyclic dimension the elements are numbered in turn, from the round of the first one on. -/
theorem cyclic_positions (hP : 0 < P) (hl : 0 ≤ l) {S : ℤ} (h1 : l < S + 1)
    (hSu : S ≤ u) :
    (Set.InjOn (· / P) (runs 1 P S l u) → ∃ x ∈ runs 1 P S l u, (u - S) / P ≤ x / P) ∧
      ((Set.InjOn (· / P) (runs 1 P S l u) ∧ ∀ x ∈ runs 1 P S l u, x / P < (u - S) / P + 1) ↔
        S < P) := by
  have hmem : ∀ x ∈ runs 1 P S l u, (x - S) % P = 0 := fun x hx => by
    have := hx.2.2
    have := Int.emod_nonneg (x - S) hP.ne'
    omega
  have hround : ∀ x ∈ runs 1 P S l u, x / P = S / P + (x - S) / P := by
    intro x hx
    have hx' : x = S + P * ((x - S) / P) := by
      have := Int.emod_add_mul_ediv (x - S) P
      rw [hmem x hx] at this
      omega
    conv_lhs => rw [hx']
    exact Int.add_mul_ediv_left _ _ hP.ne'
  have hinj : Set.InjOn (· / P) (runs 1 P S l u) := by
    intro x hx y hy hxy
    simp only [hround x hx, hround y hy] at hxy
    have hx' := Int.emod_add_mul_ediv (x - S) P
    have hy' := Int.emod_add_mul_ediv (y - S) P
    rw [hmem x hx] at hx'
    rw [hmem y hy, show (y - S) / P = (x - S) / P by omega] at hy'
    omega
  -- the last element
  have hdm := Int.emod_add_mul_ediv (u - S) P
  have he0 := Int.emod_nonneg (u - S) hP.ne'
  have hD := mul_nonneg hP.le (Int.ediv_nonneg (show 0 ≤ u - S by omega) hP.le)
  have htop : S + P * ((u - S) / P) ∈ runs 1 P S l u := by
    refine ⟨by omega, by omega, ?_⟩
    rw [add_sub_cancel_left, Int.mul_emod_right]
    exact one_pos
  have hlast : (S + P * ((u - S) / P)) / P = S / P + (u - S) / P := Int.add_mul_ediv_left _ _ hP.ne'
  have hS0 := Int.ediv_nonneg (show 0 ≤ S by omega) hP.le
  refine ⟨fun _ => ⟨_, htop, by omega⟩, ?_⟩
  constructor
  · rintro ⟨-, hin⟩
    have hlt := hin _ htop
    by_contra hge
    have := (Int.le_ediv_iff_mul_le hP).mpr (show 1 * P ≤ S by omega)
    omega
  · intro hS
    refine ⟨hinj, fun x hx => ?_⟩
    have hle := Int.ediv_le_ediv hP (show x - S ≤ u - S by have := hx.2.1; omega)
    rw [hround x hx, Int.ediv_eq_zero_of_lt (by omega) hS]
    omega

end Dealt

namespace ArrayDecl

/-- When `_XMP_get_array_addr` is right about a dimension: always if it is contiguous; if it is
cyclic, when the first element of the node lies in the first round of the template. -/
def AddrFits (decl : ArrayDecl k d n) (c : decl.Coord) (i : Fin k) : Prop :=
  match decl.target i with
  | none => True
  | some (t, sub) =>
    let l := decl.lower i + sub - (decl.template t).serLower
    let u := decl.upper i + sub - (decl.template t).serLower
    let P : ℤ := (decl.nodesInfo c t).size
    let r : ℤ := (decl.nodesInfo c t).rank
    match (decl.dist t).2 with
    | .cyclic => firstStart 1 P r l < P
    | .blockCyclic w =>
      if w = 1 then firstStart 1 P r l < P else CellsFit w P r (firstStart w P r l) l u
    | _ => True

/-- No `int` of `_XMP_get_array_addr` leaves its range in dimension `i`: the array has `int` bounds
and an `int` size, the offset fits, and so does the square of a round of blocks. -/
structure AddrInInt (decl : ArrayDecl k d n) (i : Fin k) : Prop where
  bounds : InInt (decl.lower i) ∧ InInt (decl.upper i)
  size : InInt (decl.upper i - decl.lower i + 1)
  offset : ∀ t sub, decl.target i = some (t, sub) → InInt sub
  square : ∀ t sub w, decl.target i = some (t, sub) → (decl.dist t).2 = .blockCyclic w → w ≠ 1 →
    InInt (decl.nodesSize (decl.dist t).1 * w * (decl.nodesSize (decl.dist t).1 * w))

namespace Built

variable {decl : ArrayDecl k d n} {c : decl.Coord} {a : XmpArray k d n} {i : Fin k} {t : Fin d}
  {sub : ℤ}

/-- What the descriptor of an allocated array says about a dealt dimension. -/
theorem dealt_members {w : ℤ} (h : decl.Built c a) (ha : a.isAllocated = true) (hw : 0 < w)
    (htar : decl.target i = some (t, sub)) (hdup : (decl.dist t).2 ≠ .duplication)
    (hrep : CyclicReplicated (decl.nodesInfo c t).size (decl.dist t).1 w
      (a.alignTemplate.chunk t)) (hround : InInt ((decl.nodesInfo c t).size * w)) {S : ℤ}
    (hS : S = firstStart w (decl.nodesInfo c t).size (decl.nodesInfo c t).rank
      (decl.lower i + sub - (decl.template t).serLower) - sub + (decl.template t).serLower)
    (hSu : S ≤ decl.upper i) :
    (a.info i).parStride = (decl.nodesInfo c t).size * w ∧
      (a.info i).allocSize = if w = 1 then (decl.upper i - S) / (decl.nodesInfo c t).size + 1
        else cellSize w ((decl.nodesInfo c t).size * w) S (decl.lower i) (decl.upper i) := by
  obtain ⟨-, -, -, hti, hlow, hup, -⟩ := (h.described i).aligned t sub htar
  obtain ⟨howner, b, b', hb, hl, hu, hok, hinfo⟩ := h.info_written i
  have hP := (decl.nodesInfo c t).size_pos
  have hni := h.nodesInfo_eq hdup
  have ho : b.alignTemplate.isOwner = true := hb ▸ howner ha
  obtain ⟨hmanner, -, hwidth, hstride⟩ := hrep
  rw [toInt_of_inInt hround] at hstride
  rw [← hb] at hti hni hmanner hwidth hstride
  rw [← hl, ← hti] at hlow
  rw [← hu, ← hti] at hup
  have hsize : (b.alignTemplate.chunk t).nodesSize = (decl.nodesInfo c t).size := by
    rw [TemplateChunk.nodesSize, hni]
    rfl
  have hrank : (b.alignTemplate.chunk t).nodesRank = (decl.nodesInfo c t).rank := by
    rw [TemplateChunk.nodesRank, hni]
    rfl
  rw [htar, alignInfo] at hok
  split_ifs at hok
  rw [hmanner] at hok
  by_cases hone : w = 1
  · subst hone
    rw [if_pos rfl] at hok ⊢
    rw [mul_one] at hstride ⊢
    rw [hinfo, alignArrayWith_members ho hok]
    obtain ⟨hpl, hst, hps, -⟩ := cyclicInfo_members (by omega) hstride hsize hrank hlow
    refine ⟨hst, hps.trans ?_⟩
    have hSeq :
      (cyclicInfo (b.alignTemplate.info t) (b.info i) (b.alignTemplate.chunk t) sub).parLower
        = S := by
      rw [hpl, hS, hl, hti, firstStart, Int.ediv_one]
      ring
    rw [hSeq, hu, Int.tdiv_eq_ediv_of_nonneg (by omega)]
  · rw [if_neg hone] at hok ⊢
    rw [hinfo, alignArrayWith_members ho hok]
    obtain ⟨-, -, hps⟩ := @blockCyclicInfo_members_of_le _ _ _ _ _ _ _ _ _ hw (by omega) hwidth
      hstride hround hsize hrank hlow hup S (by rw [hS, hl, hti, firstStart]) (by omega)
    refine ⟨hstride, hps.trans ?_⟩
    rw [hl, hu]
    rfl

theorem dealt_allocSize_pos (h : decl.Built c a) (ha : a.isAllocated = true)
    (htar : decl.target i = some (t, sub)) (hdup : (decl.dist t).2 ≠ .duplication)
    (hne : {g | decl.Owns c i g}.Nonempty) : 0 < (a.info i).allocSize := by
  obtain ⟨g, hg0, hg1, hg⟩ := hne
  rw [htar] at hg
  have hcount := h.count_le_allocSize ha htar hdup ⟨hg0, hg1⟩ hg
  have hlt := count_lt hg0 (Int.lt_add_one_iff.mpr hg1)
    (p := fun g => Owned (decl.template t) (decl.nodesInfo c t) (decl.dist t).2 (g + sub)) hg
  exact (count_nonneg _ _).trans_lt (hlt.trans_le hcount)

/-- The elements of a node, as positions in the template. -/
theorem owns_eq_runs {w : ℤ} (hw : 0 < w) (htar : decl.target i = some (t, sub))
    (hown : ∀ g, Owned (decl.template t) (decl.nodesInfo c t) (decl.dist t).2 g ↔
      owner w (decl.nodesInfo c t).size (g - (decl.template t).serLower) =
        (decl.nodesInfo c t).rank) :
    {g | decl.Owns c i g} = {g | g + (sub - (decl.template t).serLower) ∈
      runs w ((decl.nodesInfo c t).size * w)
        (firstStart w (decl.nodesInfo c t).size (decl.nodesInfo c t).rank
          (decl.lower i + sub - (decl.template t).serLower))
        (decl.lower i + sub - (decl.template t).serLower)
        (decl.upper i + sub - (decl.template t).serLower)} := by
  have hP := (decl.nodesInfo c t).size_pos
  have hr1 : ((decl.nodesInfo c t).rank : ℤ) < (decl.nodesInfo c t).size := by
    exact_mod_cast (decl.nodesInfo c t).rank.isLt
  ext g
  have hpos : g + (sub - (decl.template t).serLower) = g + sub - (decl.template t).serLower := by
    ring
  rw [← owned_eq_runs hw (by omega) (by omega) hr1]
  simp only [Owns, htar, TargetOwned, hown, hpos, Set.mem_ofPred_eq]
  constructor
  · rintro ⟨h0, h1, h2⟩
    exact ⟨by omega, by omega, h2⟩
  · rintro ⟨h0, h1, h2⟩
    exact ⟨by omega, by omega, h2⟩

theorem cellDim_firstStart {w P r l u : ℤ} (hw : 1 < w) (hr0 : 0 ≤ r) (hr1 : r < P) (hl : 0 ≤ l)
    (hlu : l ≤ u) (hSu : firstStart w P r l ≤ u) :
    CellDim w P r ((l / w + (r - l / w) % P) / P) (firstStart w P r l) l u := by
  obtain ⟨h1, h2⟩ := @firstStart_bounds w P r l (by omega) (by omega)
  obtain ⟨q, hq⟩ : ∃ q, q = l / w + (r - l / w) % P := ⟨_, rfl⟩
  rw [← hq]
  have hplace : q % P = r := by
    rw [hq, Int.add_emod_emod, add_sub_cancel, Int.emod_eq_of_lt hr0 hr1]
  have hq0 : 0 ≤ q := by
    have := Int.ediv_nonneg hl (show 0 ≤ w by omega)
    have := Int.emod_nonneg (r - l / w) (show P ≠ 0 by omega)
    omega
  have hstart : firstStart w P r l = q / P * (P * w) + r * w := by
    have hdm := Int.emod_add_mul_ediv q P
    rw [hplace] at hdm
    calc firstStart w P r l = q * w := by rw [firstStart, hq]
      _ = (r + P * (q / P)) * w := by rw [hdm]
      _ = _ := by ring
  exact ⟨by omega, by omega, hr0, hr1, Int.ediv_nonneg hq0 (by omega), hstart, h1, h2, hlu, hSu⟩

theorem dimAddr_dealt {w : ℤ} (h : decl.Built c a) (ha : a.isAllocated = true) (hw : 0 < w)
    (htar : decl.target i = some (t, sub)) (hdup : (decl.dist t).2 ≠ .duplication)
    (hrep : CyclicReplicated (decl.nodesInfo c t).size (decl.dist t).1 w
      (a.alignTemplate.chunk t))
    (hown : ∀ g, Owned (decl.template t) (decl.nodesInfo c t) (decl.dist t).2 g ↔
      owner w (decl.nodesInfo c t).size (g - (decl.template t).serLower) =
        (decl.nodesInfo c t).rank)
    (hround : InInt ((decl.nodesInfo c t).size * w))
    (hcycle : w ≠ 1 → InInt ((decl.nodesInfo c t).size * w * ((decl.nodesInfo c t).size * w)))
    (hoffset : InInt sub) (hne : {g | decl.Owns c i g}.Nonempty) :
    ∃ f, DimAddr a i {g | decl.Owns c i g} f
      (let S := firstStart w (decl.nodesInfo c t).size (decl.nodesInfo c t).rank
        (decl.lower i + sub - (decl.template t).serLower)
      if w = 1 then S < (decl.nodesInfo c t).size else
        CellsFit w (decl.nodesInfo c t).size (decl.nodesInfo c t).rank S
          (decl.lower i + sub - (decl.template t).serLower)
          (decl.upper i + sub - (decl.template t).serLower)) := by
  obtain ⟨-, -, -, hal⟩ := h.described i
  obtain ⟨hmanner, hsub, hidx, hti, hlow, hup, -⟩ := hal t sub htar
  have hP := (decl.nodesInfo c t).size_pos
  have hr1 : ((decl.nodesInfo c t).rank : ℤ) < (decl.nodesInfo c t).size := by
    exact_mod_cast (decl.nodesInfo c t).rank.isLt
  have hle := decl.lower_le_upper i
  have hroomy := h.dealt_allocSize_pos ha htar hdup hne
  have hset := owns_eq_runs hw htar hown
  obtain ⟨P, hPeq⟩ : ∃ P : ℤ, P = (decl.nodesInfo c t).size := ⟨_, rfl⟩
  obtain ⟨r, hreq⟩ : ∃ r : ℤ, r = (decl.nodesInfo c t).rank := ⟨_, rfl⟩
  obtain ⟨l, hl⟩ : ∃ l, l = decl.lower i + sub - (decl.template t).serLower := ⟨_, rfl⟩
  obtain ⟨u, hu⟩ : ∃ u, u = decl.upper i + sub - (decl.template t).serLower := ⟨_, rfl⟩
  obtain ⟨S, hS⟩ : ∃ S, S = firstStart w P r l := ⟨_, rfl⟩
  rw [← hPeq, ← hreq, ← hl, ← hu, ← hS] at hset
  obtain ⟨h1, h2⟩ := @firstStart_bounds w P r l hw (by omega)
  rw [← hS] at h1 h2
  have hwc : w ≤ P * w := le_mul_of_one_le_left hw.le (by omega)
  have hSu : S ≤ u := by
    obtain ⟨g, hg⟩ := hne
    rw [hset] at hg
    exact (start_le_of_mem_runs hw h2 hg).trans hg.2.1
  obtain ⟨hstride, hsize⟩ := h.dealt_members ha hw htar hdup hrep hround
    (S := S - sub + (decl.template t).serLower) (by rw [hS, hl, hPeq, hreq]) (by omega)
  rw [hset, ← hPeq, ← hreq, ← hl, ← hu, ← hS]
  rw [← hPeq] at hstride hsize
  have hpos : ∀ g, g + sub - (decl.template t).serLower =
      g + (sub - (decl.template t).serLower) := fun g => by ring
  have hxnn : ∀ x ∈ runs w (P * w) S l u, 0 ≤ x := fun x hx => by
    have := hx.1
    omega
  dsimp only
  by_cases hone : w = 1
  · subst hone
    rw [hrep.1, if_pos rfl] at hmanner
    rw [if_pos rfl] at hsize ⊢
    rw [mul_one] at *
    have hend : decl.upper i - (S - sub + (decl.template t).serLower) = u - S := by omega
    rw [hend] at hsize
    obtain ⟨hroom, hfits⟩ := cyclic_positions (P := P) (by omega) (by omega) h1 hSu
    refine ⟨_, dimAddr_of_positions (F := (· / P)) hroomy (fun g hg => ?_)
      (fun x hx => Int.ediv_nonneg (hxnn x hx) (by omega)) ?_ ?_⟩
    · have hx := hxnn _ hg
      simp only [arrayAddrIdx, hmanner, DistManner.alignManner, hidx, hsub, hti, hstride,
        toInt_of_inInt hoffset, toInt_of_inInt (decl.template t).lower_inInt, hpos]
      rw [if_neg (show P ≠ 0 by omega), Int.tdiv_eq_ediv_of_nonneg hx]
    · rw [hsize, add_sub_cancel_right]
      exact hroom
    · rw [hsize]
      exact hfits
  · rw [hrep.1, if_neg hone] at hmanner
    rw [if_neg hone] at hsize ⊢
    have hcells : cellSize w (P * w) (S - sub + (decl.template t).serLower) (decl.lower i)
        (decl.upper i) = cellSize w (P * w) S l u := by
      have hend : decl.upper i - (S - sub + (decl.template t).serLower) = u - S := by omega
      simp only [cellSize, hend]
      generalize (u - S) / (P * w) * (P * w) = D
      split_ifs <;> omega
    rw [hcells] at hsize
    have hdim := cellDim_firstStart (w := w) (P := P) (r := r) (l := l) (u := u) (by omega)
      (by omega) (by omega) (by omega) (by omega) (hS ▸ hSu)
    rw [← hS] at hdim
    obtain ⟨hroom, hfits⟩ := hdim.fits_iff
    have hW : 0 < P * w := by omega
    refine ⟨_, dimAddr_of_positions (F := cellIdx (P * w)) hroomy (fun g hg => ?_) (fun x hx => ?_)
      ?_ ?_⟩
    · have hx := hxnn _ hg
      have hchunk := hrep.2.2.2
      rw [toInt_of_inInt hround, ← hPeq] at hchunk
      have hsquare := hcycle hone
      rw [← hPeq] at hsquare
      simp only [arrayAddrIdx, hmanner, DistManner.alignManner, hidx, hsub, hti, hstride, hchunk,
        toInt_of_inInt hsquare, toInt_of_inInt hoffset,
        toInt_of_inInt (decl.template t).lower_inInt, hpos]
      rw [if_neg (not_or.mpr ⟨(mul_pos hW hW).ne', hW.ne'⟩), Int.tdiv_eq_ediv_of_nonneg hx,
        Int.tmod_eq_emod_of_nonneg hx, cellIdx]
    · have h0 := Int.emod_nonneg x hW.ne'
      have hq := Int.ediv_nonneg (hxnn x hx) (mul_pos hW hW).le
      have := mul_nonneg hW.le hq
      rw [cellIdx]
      omega
    · rw [hsize]
      exact hroom
    · rw [hsize]
      exact hfits

theorem dimAddr_contiguous (h : decl.Built c a) (ha : a.isAllocated = true)
    (hfmt : ∀ t sub, decl.target i = some (t, sub) → (decl.dist t).2 = .block) :
    ∃ f, DimAddr a i {g | decl.Owns c i g} f True := by
  cases htar : decl.target i with
  | none =>
    obtain ⟨-, b, b', -, hl, hu, hok, hinfo⟩ := h.info_written i
    obtain ⟨hmanner, -⟩ := (h.described i).unaligned htar
    have hset : {g | decl.Owns c i g} = {g | decl.lower i ≤ g ∧ g ≤ decl.upper i} := by
      ext g
      simp only [Owns, htar, TargetOwned, and_true]
    rw [htar] at hok
    cases hok
    refine ⟨_, hset ▸ Xmp.dimAddr_contiguous (decl.lower_le_upper i) ?_ fun g => ?_⟩
    · simp only [hinfo, alignArrayNotAligned, XmpArray.setInfo_info, Function.update_self,
        ArrayInfo.serSize, hl, hu]
    · simp only [arrayAddrIdx, hmanner, (h.described i).lower]
  | some target =>
    obtain ⟨t, sub⟩ := target
    have hblock := hfmt t sub htar
    have hpart := h.blockPart ha htar hblock
    obtain ⟨hmanner, -, -, -, -, -, hrep⟩ := (h.described i).aligned t sub htar
    rw [hblock] at hrep
    have hset : {g | decl.Owns c i g} =
        {g | (a.info i).parLower ≤ g ∧ g ≤ (a.info i).parUpper} := by
      ext g
      rw [hpart.parLower, hpart.parUpper]
      simp only [Owns, htar, TargetOwned, hblock, owned_block_iff, blockStart, Set.mem_ofPred_eq,
        max_le_iff, le_min_iff]
      constructor
      · rintro ⟨h0, h1, h2, h3⟩
        omega
      · rintro ⟨⟨h0, h1⟩, h2, h3⟩
        omega
    refine ⟨_, hset ▸ Xmp.dimAddr_contiguous hpart.le (hpart.allocSize.trans hpart.parSize)
      fun g => ?_⟩
    rw [hrep.1] at hmanner
    simp only [arrayAddrIdx, hmanner, DistManner.alignManner, h.shadowSizeLo i, add_zero]

theorem dimAddr (h : decl.Built c a) (ha : a.isAllocated = true)
    (hfmt : ∀ t sub, decl.target i = some (t, sub) → (decl.dist t).2.Regular)
    (hint : decl.AddrInInt i)
    (hne : {g | decl.Owns c i g}.Nonempty) :
    ∃ f, DimAddr a i {g | decl.Owns c i g} f (decl.AddrFits c i) := by
  cases htar : decl.target i with
  | none =>
    simp only [AddrFits, htar]
    exact h.dimAddr_contiguous ha fun t sub htar' => by simp [htar] at htar'
  | some target =>
    obtain ⟨t, sub⟩ := target
    have hreg := hfmt t sub htar
    obtain ⟨-, -, -, -, -, -, hrep⟩ := (h.described i).aligned t sub htar
    simp only [AddrFits, htar]
    cases hd : (decl.dist t).2 with
    | block =>
      refine h.dimAddr_contiguous ha fun t' sub' htar' => ?_
      rw [htar] at htar'
      cases htar'
      exact hd
    | cyclic =>
      rw [hd] at hrep
      have hdealt := h.dimAddr_dealt ha one_pos htar (by rw [hd]; exact fun hc => by cases hc) hrep
        (fun g => by rw [hd]; rfl) (mul_one (_ : ℤ) ▸ (decl.nodesInfo c t).size_inInt)
        (fun hone => absurd rfl hone) (hint.offset t sub htar) hne
      simpa using hdealt
    | blockCyclic w =>
      have hround := decl.stride_inInt t
      rw [hd] at hrep hreg hround
      have hdealt := h.dimAddr_dealt ha hreg htar (by rw [hd]; exact fun hc => by cases hc) hrep
        (fun g => by rw [hd]; rfl) hround (hint.square t sub w htar hd) (hint.offset t sub htar) hne
      refine hdealt.imp fun f hf => ?_
      dsimp only at hf ⊢
      split_ifs at hf ⊢ with hone
      · rwa [hone] at hf
      · exact hf
    | duplication => simp [hd, DistFormat.Regular] at hreg
    | gblock m => simp [hd, DistFormat.Regular] at hreg

end Built

end ArrayDecl

/-! ## All dimensions -/

/-- The address of every element of the node lies inside its memory, and no two share one. -/
structure AddrRight (decl : ArrayDecl k d n) (c : decl.Coord) (a : XmpArray k d n)
    (base typeSize : ℤ) : Prop where
  injOn : Set.InjOn (getArrayAddr a (allocArray a).1 base typeSize)
    {g | ∀ i, decl.Owns c i (g i)}
  inside : ∀ g : Fin k → ℤ, (∀ i, decl.Owns c i (g i)) → ∃ addr,
    getArrayAddr a (allocArray a).1 base typeSize g = .ok addr ∧ base ≤ addr ∧
      (addr - base) / typeSize < (allocArray a).2

/-- `_XMP_get_array_addr` agrees with the memory of a node exactly when it does so in each
dimension, or the node has no element. -/
theorem getArrayAddr_right_iff (decl : ArrayDecl k d n) (c : decl.Coord) (a : XmpArray k d n)
    (base typeSize : ℤ) (h : decl.Built c a) (ha : a.isAllocated = true) (hts : 0 < typeSize)
    (hfmt : ∀ i t sub, decl.target i = some (t, sub) → (decl.dist t).2.Regular)
    (hint : ∀ i, decl.AddrInInt i) :
    AddrRight decl c a base typeSize ↔
      (∃ i, ∀ g, ¬ decl.Owns c i g) ∨ ∀ i, decl.AddrFits c i := by
  by_cases hempty : ∃ i, ∀ g, ¬ decl.Owns c i g
  · obtain ⟨i, hi⟩ := id hempty
    refine iff_of_true ⟨fun g hg => absurd (hg i) (hi _), fun g hg => absurd (hg i) (hi _)⟩
      (Or.inl hempty)
  rw [or_iff_right hempty]
  push Not at hempty
  have hne : ∀ i, {g | decl.Owns c i g}.Nonempty := hempty
  choose f hf using fun i => h.dimAddr ha (hfmt i) (hint i) (hne i)
  have hsize : ∀ i, 0 < (a.info i).allocSize := fun i => (hf i).pos
  have haddr : ∀ g : Fin k → ℤ, (∀ i, decl.Owns c i (g i)) →
      getArrayAddr a (allocArray a).1 base typeSize g =
        .ok (base + rowMajor (fun i => (a.info i).allocSize) (fun i => f i (g i)) * typeSize) :=
    fun g hg => getArrayAddr_eq fun i => (hf i).idx _ (hg i)
  have hiff := layout_iff hsize hne (fun i => (hf i).nonneg) fun i => (hf i).room
  rw [← forall_congr' fun i => (hf i).fits_iff, ← hiff]
  have htotal : (allocArray a).2 = ∏ i, (a.info i).allocSize := by rw [allocArray_eq]
  constructor
  · rintro ⟨hinj, hin⟩
    refine ⟨fun g hg g' hg' heq => hinj hg hg' ?_, fun g hg => ?_⟩
    · rw [haddr g hg, haddr g' hg']
      simp only at heq
      rw [heq]
    · obtain ⟨addr, hok, -, hlt⟩ := hin g hg
      rw [haddr g hg] at hok
      cases hok
      rwa [add_sub_cancel_left, Int.mul_ediv_cancel _ hts.ne', htotal] at hlt
  · rintro ⟨hinj, hin⟩
    refine ⟨fun g hg g' hg' heq => hinj hg hg' ?_, fun g hg => ⟨_, haddr g hg, ?_, ?_⟩⟩
    · rw [haddr g hg, haddr g' hg', Except.ok.injEq] at heq
      exact mul_right_cancel₀ hts.ne' (add_left_cancel heq)
    · have hnn := rowMajor_nonneg (fun i => (hsize i).le) fun i => (hf i).nonneg _ (hg i)
      have := mul_nonneg hnn hts.le
      omega
    · rw [add_sub_cancel_left, Int.mul_ediv_cancel _ hts.ne', htotal]
      exact hin g hg

/-- The array `a(0:7)`, aligned with the template `t(0:7)` that is dealt in blocks of `w` onto two
nodes. -/
def evenDecl (w : ℤ) (hw : 0 < w ∧ w ≤ 8) : ArrayDecl 1 1 1 :=
  .line 2 (.fixed 0 7 (by decide)) (.blockCyclic w) 0 7 0 two_nodes_lt
    (by constructor <;> push_cast <;> omega) (by rintro w' ⟨⟩; exact hw.1) (by norm_num)

theorem evenDecl_addrInInt (w : ℤ) (hw : 0 < w ∧ w ≤ 8) (i : Fin 1) :
    (evenDecl w hw).AddrInInt i where
  bounds := (by decide : InInt 0 ∧ InInt 7)
  size := (by decide : InInt 8)
  offset := by
    rintro t sub htar
    cases htar
    exact (by decide : InInt 0)
  square := by
    rintro t sub w' - ⟨⟩ -
    have hsquare : InInt ((2 : ℕ) * w * ((2 : ℕ) * w)) := by
      constructor <;> push_cast <;> nlinarith [hw.1, hw.2]
    exact hsquare

/-- The second node. -/
def evenCoord (w : ℤ) (hw : 0 < w ∧ w ≤ 8) : (evenDecl w hw).Coord := fun _ => (1 : Fin 2)

def evenArray (w : ℤ) (hw : 0 < w ∧ w ≤ 8) : XmpArray 1 1 1 :=
  (evenDecl w hw).builtLine (evenCoord w hw)

/-- Single elements in turn. -/
theorem getArrayAddr_right_even :
    AddrRight (evenDecl 1 (by decide)) (evenCoord 1 (by decide)) (evenArray 1 (by decide)) 0 8 := by
  have hbuilt : (evenDecl 1 (by decide)).Built (evenCoord 1 (by decide))
    (evenArray 1 (by decide)) :=
    ArrayDecl.built_of_build rfl
  refine (getArrayAddr_right_iff (evenDecl 1 (by decide)) (evenCoord 1 (by decide))
    (evenArray 1 (by decide)) 0 8 hbuilt rfl (by decide) ?_ fun i => ?_).mpr (Or.inr fun i => ?_)
  · rintro i t sub -
    exact le_refl (1 : ℤ)
  · exact evenDecl_addrInInt 1 (by decide) i
  · simp only [ArrayDecl.AddrFits, evenDecl, ArrayDecl.line, if_true]
    decide

/-- Blocks of two: the elements 2 and 6 of the second node share an address. -/
theorem getArrayAddr_shared :
    (evenDecl 2 (by decide)).Built (evenCoord 2 (by decide)) (evenArray 2 (by decide)) ∧
    getArrayAddr (evenArray 2 (by decide)) (allocArray (evenArray 2 (by decide))).1 0 8
      (fun _ => 2) =
      getArrayAddr (evenArray 2 (by decide)) (allocArray (evenArray 2 (by decide))).1 0 8
        (fun _ => 6) ∧
    ¬ AddrRight (evenDecl 2 (by decide)) (evenCoord 2 (by decide))
      (evenArray 2 (by decide)) 0 8 := by
  have hshared : getArrayAddr (evenArray 2 (by decide)) (allocArray (evenArray 2 (by decide))).1 0 8
      (fun _ => 2) = getArrayAddr (evenArray 2 (by decide))
        (allocArray (evenArray 2 (by decide))).1 0 8 (fun _ => 6) := rfl
  refine ⟨ArrayDecl.built_of_build rfl, hshared, fun h => ?_⟩
  have hown : ∀ x : ℤ, x = 2 ∨ x = 6 →
      ∀ i, (evenDecl 2 (by decide)).Owns (evenCoord 2 (by decide)) i x := by
    rintro x (rfl | rfl) i <;> fin_cases i <;> decide
  have heq := h.injOn (hown 2 (Or.inl rfl)) (hown 6 (Or.inr rfl)) hshared
  exact absurd (congrFun heq 0) (by decide)

end OmniCompiler.Xmp
