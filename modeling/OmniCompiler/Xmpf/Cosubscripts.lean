import OmniCompiler.Arithmetic.FoldExcept
import OmniCompiler.Arithmetic.MachineInt
import OmniCompiler.Arithmetic.MixedRadix

/-!
# Cosubscripts and image indices (`xmpf_coarray_alloc.c`)

The cosubscripts of an image are the digits of its number less one, where the extents of the
codimensions are the sizes. The last extent is the number of images divided by the product of
the others, rounded up. Products and bounds are of type `int`.
-/
namespace OmniCompiler.Xmpf

open MachineInt MixedRadix FoldExcept

/-- The coshape of a coarray. -/
structure Coshape where
  corank : ℕ
  lcobound : ℕ → ℤ
  ucobound : ℕ → ℤ
  cosize : ℕ → ℤ

namespace Coshape

/-- `xmpf_coarray_set_corank_`. The entries of the new arrays are not known. -/
def setCorank (corank : ℕ) (arrays : Coshape) : Coshape := { arrays with corank := corank }

def store (c : Coshape) (dim : ℕ) (lb ub size : ℤ) : Coshape where
  corank := c.corank
  lcobound := Function.update c.lcobound dim lb
  ucobound := Function.update c.ucobound dim ub
  cosize := Function.update c.cosize dim size

/-- The loop `count *= cp->cosize[i]`. -/
def countLoop (c : Coshape) (k : ℕ) : Option ℤ :=
  (List.range k).foldlM (fun count i => cint (count * c.cosize i)) 1

def setCodim (nImages : ℤ) (c : Coshape) (dim : ℕ) (lb ub : ℤ) : Option Coshape :=
  if dim + 1 < c.corank then
    (cint (ub - lb)).bind fun d => (cint (d + 1)).bind fun size =>
      if size ≤ 0 then none else some (c.store dim lb ub size)
  else if dim + 1 = c.corank then
    (c.countLoop (c.corank - 1)).bind fun count =>
      if count = 0 then none
      else
        let size := (nImages - 1).tdiv count + 1
        (cint (lb + size)).bind fun x => (cint (x - 1)).map fun ub => c.store dim lb ub size
  else none

/-- The calls of `xmpf_coarray_set_codim_` from `dim` on. -/
def setCodims (nImages : ℤ) : List (ℤ × ℤ) → ℕ → Coshape → Option Coshape
  | [], _, c => some c
  | b :: bounds, dim, c =>
    (setCodim nImages c dim b.1 b.2).bind fun c => setCodims nImages bounds (dim + 1) c

def thisImageCoarray (c : Coshape) (imageCoarray : ℤ) (corank : ℕ) : Option (List ℤ) :=
  if imageCoarray = 0 then some (List.replicate corank 0)
  else ((List.range corank).foldlM (fun (t : ℤ × List ℤ) i =>
    let size := c.cosize i
    if size = 0 then none
    else (cint (t.1.tmod size + c.lcobound i)).map fun x => (t.1.tdiv size, t.2 ++ [x]))
      (imageCoarray - 1, [])).map Prod.snd

def thisImageCoarrayDim (c : Coshape) (imageCoarray : ℤ) (corank dim : ℕ) : Option ℤ :=
  if dim = 0 ∨ corank < dim then none
  else if imageCoarray = 0 then some 0
  else
    ((List.range (dim - 1)).foldlM (fun magic i =>
      if c.cosize i = 0 then none else some (magic.tdiv (c.cosize i))) (imageCoarray - 1)).bind
        fun magic =>
          if c.cosize (dim - 1) = 0 then none
          else cint (magic.tmod (c.cosize (dim - 1)) + c.lcobound (dim - 1))

/-- The loop of `xmpf_image_index_` and `xmpf_coarray_get_image_index_`, for the cosubscripts that
are not refused. -/
def imageLoop (c : Coshape) (refused : ℕ → ℤ → Bool) (coindexes : List ℤ) (k : ℕ) :
    Option (ℤ × ℤ) :=
  (List.range k).foldlM (fun (t : ℤ × ℤ) i =>
    let idx := coindexes.getD i 0
    if refused i idx then none
    else (cint (idx - c.lcobound i)).bind fun d => (cint (d * t.2)).bind fun x =>
      (cint (t.1 + x)).bind fun count => (cint (t.2 * c.cosize i)).map fun factor =>
        (count, factor))
    (0, 1)

def imageIndex (nImages : ℤ) (c : Coshape) (coindexes : List ℤ) : Option ℤ :=
  (c.imageLoop (fun i idx => decide (idx < c.lcobound i) ||
    decide (c.ucobound i < idx) && decide (i < c.corank - 1)) coindexes c.corank).bind fun t =>
      (cint (t.1 + 1)).map fun image => if nImages < image then 0 else image

def getImageIndex (c : Coshape) (coindexes : List ℤ) : Option ℤ :=
  if c.corank ≠ coindexes.length then none
  else (c.imageLoop (fun i idx => decide (idx < c.lcobound i) || decide (c.ucobound i < idx))
    coindexes coindexes.length).bind fun t => cint (t.1 + 1)

/-- The cosubscripts `v` lie within the cobounds. -/
def Within (c : Coshape) (v : List ℤ) : Prop :=
  v.length = c.corank ∧ ∀ i < c.corank, c.lcobound i ≤ v.getD i 0 ∧ v.getD i 0 ≤ c.ucobound i

structure Inverse (nImages : ℕ) (c : Coshape) : Prop where
  decode : ∀ p : ℕ, 1 ≤ p → p ≤ nImages → ∃ image, c.thisImageCoarray p c.corank = some image ∧
    c.Within image ∧ c.imageIndex nImages image = some (p : ℤ) ∧
    c.getImageIndex image = some (p : ℤ) ∧
    ∀ dim, 1 ≤ dim → dim ≤ c.corank →
      c.thisImageCoarrayDim p c.corank dim = some (image.getD (dim - 1) 0)
  encode : ∀ v w, c.Within v → c.Within w → v ≠ w → ∃ i j, c.imageIndex nImages v = some i ∧
    c.imageIndex nImages w = some j ∧ (i = j → i = 0)

end Coshape

/-- Product of the extents of the codimensions with given upper cobounds. -/
def extents (init : List (ℤ × ℤ)) : ℕ := (init.map fun b => (b.2 - b.1 + 1).toNat).prod

/-- The last extent, `DIV_CEILING(n_images, count)`. -/
def lastExtent (nImages : ℕ) (init : List (ℤ × ℤ)) : ℕ := (nImages - 1) / extents init + 1

/-- The last upper cobound and the product of all extents fit in `int`. -/
def CoshapeFits (nImages : ℕ) (init : List (ℤ × ℤ)) (lb : ℤ) : Prop :=
  lb + lastExtent nImages init < 2 ^ 31 ∧ extents init * lastExtent nImages init < 2 ^ 31

/-- The cobounds can be set, they are as declared, and cosubscripts and images correspond. -/
def CosubscriptsInverse (nImages : ℕ) (init : List (ℤ × ℤ)) (last : ℤ × ℤ) (arrays : Coshape) :
    Prop :=
  ∃ c, Coshape.setCodims nImages (init ++ [last]) 0 (Coshape.setCorank (init.length + 1) arrays) =
      some c ∧ c.corank = init.length + 1 ∧
    (∀ i b, init[i]? = some b → c.lcobound i = b.1 ∧ c.ucobound i = b.2) ∧
    c.lcobound init.length = last.1 ∧ c.Inverse nImages

namespace Coshape

variable {c : Coshape} {s : ℕ → ℕ}

/-- The extents are `s`, in agreement with the cobounds. -/
structure Shaped (c : Coshape) (s : ℕ → ℕ) : Prop where
  cosize : ∀ i < c.corank, c.cosize i = s i
  pos : ∀ i < c.corank, 0 < s i
  size_lt : ∀ i < c.corank, s i < 2 ^ 31
  ucobound : ∀ i < c.corank, c.ucobound i = c.lcobound i + s i - 1
  lower : ∀ i < c.corank, InInt (c.lcobound i)
  upper : ∀ i < c.corank, InInt (c.ucobound i)

theorem cint_natCast {x : ℕ} (h : x < 2 ^ 31) : cint (x : ℤ) = some (x : ℤ) :=
  cint_eq_some.mpr ⟨⟨by omega, by omega⟩, rfl⟩

theorem cint_natCast_none {x : ℕ} (h : ¬ x < 2 ^ 31) : cint (x : ℤ) = none :=
  if_neg fun hin => h (by have := hin.2; omega)

theorem countLoop_eq {k : ℕ} (hsize : ∀ i < k, c.cosize i = s i) (hpos : ∀ i < k, 0 < s i) :
    c.countLoop k = if placeValue s k < 2 ^ 31 then some (placeValue s k : ℤ) else none := by
  induction k with
  | zero => rfl
  | succ k ih =>
    have hloop : c.countLoop (k + 1) = (c.countLoop k).bind fun count =>
      cint (count * c.cosize k) :=
      foldlM_range_succ _ _
    rw [hloop, ih (fun i hi => hsize i (by omega)) (fun i hi => hpos i (by omega)),
      hsize k (by omega), placeValue_succ]
    have hle : placeValue s k ≤ placeValue s k * s k :=
      Nat.le_mul_of_pos_right _ (hpos k (by omega))
    by_cases hk : placeValue s k < 2 ^ 31
    · rw [if_pos hk, Option.bind_some, ← Nat.cast_mul]
      split_ifs with hk'
      · exact cint_natCast hk'
      · exact cint_natCast_none hk'
    · rw [if_neg hk, if_neg (by omega)]
      rfl

/-! ## Decoding -/

/-- Digit `i` of the number of an image, as a cosubscript. -/
def cosubscript (c : Coshape) (s : ℕ → ℕ) (x i : ℕ) : ℤ :=
  ((x / placeValue s i % s i : ℕ) : ℤ) + c.lcobound i

theorem Shaped.cosubscript_within (h : c.Shaped s) (x : ℕ) {i : ℕ} (hi : i < c.corank) :
    c.lcobound i ≤ c.cosubscript s x i ∧ c.cosubscript s x i ≤ c.ucobound i := by
  have hlt := Nat.mod_lt (x / placeValue s i) (h.pos i hi)
  rw [cosubscript, h.ucobound i hi]
  omega

theorem Shaped.cint_cosubscript (h : c.Shaped s) (x : ℕ) {i : ℕ} (hi : i < c.corank) :
    cint (((x / placeValue s i : ℕ) : ℤ).tmod (c.cosize i) + c.lcobound i) =
      some (c.cosubscript s x i) := by
  have hmod : ((x / placeValue s i : ℕ) : ℤ).tmod (c.cosize i) =
      ((x / placeValue s i % s i : ℕ) : ℤ) := by
    rw [h.cosize i hi, Int.tmod_eq_emod_of_nonneg (Int.natCast_nonneg _), Int.natCast_emod]
  obtain ⟨hlow, hhigh⟩ := h.cosubscript_within x hi
  rw [hmod]
  exact cint_eq_some.mpr ⟨⟨(h.lower i hi).1.trans hlow, hhigh.trans_lt (h.upper i hi).2⟩, rfl⟩

theorem Shaped.tdiv_cosize (h : c.Shaped s) (x : ℕ) {i : ℕ} (hi : i < c.corank) :
    ((x / placeValue s i : ℕ) : ℤ).tdiv (c.cosize i) = ((x / placeValue s (i + 1) : ℕ) : ℤ) := by
  rw [h.cosize i hi, Int.tdiv_eq_ediv_of_nonneg (Int.natCast_nonneg _), placeValue_succ,
    ← Nat.div_div_eq_div_mul, Int.natCast_ediv (x / placeValue s i)]

theorem Shaped.cosize_ne_zero (h : c.Shaped s) {i : ℕ} (hi : i < c.corank) : c.cosize i ≠ 0 := by
  have := h.pos i hi
  rw [h.cosize i hi]
  omega

theorem Shaped.thisImageCoarray (h : c.Shaped s) (x : ℕ) :
    c.thisImageCoarray (x + 1) c.corank = some ((List.range c.corank).map (c.cosubscript s x)) := by
  have hloop : ∀ k ≤ c.corank, (List.range k).foldlM (fun (t : ℤ × List ℤ) i =>
      let size := c.cosize i
      if size = 0 then none
      else (cint (t.1.tmod size + c.lcobound i)).map fun x => (t.1.tdiv size, t.2 ++ [x]))
        ((x : ℤ), []) =
      some (((x / placeValue s k : ℕ) : ℤ), (List.range k).map (c.cosubscript s x)) := by
    intro k hk
    induction k with
    | zero => simp
    | succ k ih =>
      rw [foldlM_range_succ, ih (by omega), Option.bind_some]
      dsimp only
      rw [if_neg (h.cosize_ne_zero hk), h.cint_cosubscript x hk, h.tdiv_cosize x hk]
      simp [List.range_succ]
  rw [Coshape.thisImageCoarray, if_neg (by omega), add_sub_cancel_right, hloop _ le_rfl]
  rfl

theorem Shaped.thisImageCoarrayDim (h : c.Shaped s) (x : ℕ) {dim : ℕ} (h1 : 1 ≤ dim)
    (hdim : dim ≤ c.corank) :
    c.thisImageCoarrayDim (x + 1) c.corank dim = some (c.cosubscript s x (dim - 1)) := by
  have hloop : ∀ k ≤ c.corank, (List.range k).foldlM (fun (magic : ℤ) i =>
      if c.cosize i = 0 then none else some (magic.tdiv (c.cosize i))) (x : ℤ) =
      some ((x / placeValue s k : ℕ) : ℤ) := by
    intro k hk
    induction k with
    | zero => simp
    | succ k ih =>
      rw [foldlM_range_succ, ih (by omega), Option.bind_some, if_neg (h.cosize_ne_zero hk),
        h.tdiv_cosize x hk]
  have hlt : dim - 1 < c.corank := by omega
  rw [Coshape.thisImageCoarrayDim, if_neg (by omega), if_neg (by omega), add_sub_cancel_right,
    hloop _ (by omega), Option.bind_some, if_neg (h.cosize_ne_zero hlt), h.cint_cosubscript x hlt]

/-! ## Encoding -/

def digit (c : Coshape) (v : List ℤ) (i : ℕ) : ℕ := (v.getD i 0 - c.lcobound i).toNat

theorem Shaped.digit_lt (h : c.Shaped s) {v : List ℤ} (hv : c.Within v) :
    ∀ i < c.corank, c.digit v i < s i := by
  intro i hi
  obtain ⟨hlow, hhigh⟩ := hv.2 i hi
  rw [h.ucobound i hi] at hhigh
  rw [digit]
  omega

theorem Shaped.imageLoop (h : c.Shaped s) {v : List ℤ} (hv : c.Within v)
    {refused : ℕ → ℤ → Bool} (hrefused : ∀ i < c.corank, refused i (v.getD i 0) = false) :
    ∀ k ≤ c.corank, c.imageLoop refused v k = if placeValue s k < 2 ^ 31 then
      some ((number s (c.digit v) k : ℤ), (placeValue s k : ℤ)) else none := by
  intro k hk
  induction k with
  | zero => rfl
  | succ k ih =>
    have hstep : c.imageLoop refused v (k + 1) = (c.imageLoop refused v k).bind fun t =>
        (cint (v.getD k 0 - c.lcobound k)).bind fun d => (cint (d * t.2)).bind fun x =>
          (cint (t.1 + x)).bind fun count =>
            (cint (t.2 * c.cosize k)).map fun factor => (count, factor) := by
      rw [Coshape.imageLoop, foldlM_range_succ]
      simp only [hrefused k (by omega), Bool.false_eq_true, if_false]
      rfl
    have hlt := h.digit_lt hv k (by omega)
    have hdigit : v.getD k 0 - c.lcobound k = (c.digit v k : ℤ) := by
      have := (hv.2 k (by omega)).1
      rw [digit]
      omega
    have hnumber := number_lt (k := k + 1) fun i hi => h.digit_lt hv i (by omega)
    have hsize := h.size_lt k (by omega)
    have hle : placeValue s k ≤ placeValue s (k + 1) := by
      rw [placeValue_succ]
      exact Nat.le_mul_of_pos_right _ (h.pos k (by omega))
    rw [hstep, ih (by omega), hdigit, h.cosize k (by omega)]
    by_cases hk1 : placeValue s (k + 1) < 2 ^ 31
    · rw [number_succ] at hnumber
      rw [if_pos (by omega), if_pos hk1, number_succ, Option.bind_some, cint_natCast (by omega),
        Option.bind_some]
      dsimp only
      rw [← Nat.cast_mul, cint_natCast (by omega), Option.bind_some, ← Nat.cast_add,
        cint_natCast (by omega), Option.bind_some, ← Nat.cast_mul, ← placeValue_succ,
        cint_natCast hk1]
      rfl
    · rw [if_neg hk1]
      by_cases hk0 : placeValue s k < 2 ^ 31
      · have hfactor : cint ((placeValue s k : ℤ) * (s k : ℤ)) = none := by
          rw [← Nat.cast_mul, ← placeValue_succ]
          exact cint_natCast_none hk1
        rw [if_pos hk0, Option.bind_some]
        simp only [hfactor, Option.map_none]
        cases cint ((c.digit v k : ℕ) : ℤ) with
        | none => rfl
        | some d =>
          rw [Option.bind_some]
          cases cint (d * (placeValue s k : ℤ)) with
          | none => rfl
          | some x =>
            rw [Option.bind_some]
            cases cint ((number s (c.digit v) k : ℤ) + x) <;> rfl
      · rw [if_neg hk0]
        rfl

def imageOf (c : Coshape) (s : ℕ → ℕ) (nImages : ℕ) (v : List ℤ) : ℕ :=
  if nImages < number s (c.digit v) c.corank + 1 then 0 else number s (c.digit v) c.corank + 1

theorem Shaped.imageIndex (h : c.Shaped s) {v : List ℤ} (hv : c.Within v) (nImages : ℕ) :
    c.imageIndex nImages v =
      if placeValue s c.corank < 2 ^ 31 then some (c.imageOf s nImages v : ℤ) else none := by
  have haccepted : ∀ i < c.corank, (decide (v.getD i 0 < c.lcobound i) ||
      decide (c.ucobound i < v.getD i 0) && decide (i < c.corank - 1)) = false := by
    intro i hi
    obtain ⟨hlow, hhigh⟩ := hv.2 i hi
    simp only [Bool.or_eq_false_iff, Bool.and_eq_false_iff, decide_eq_false_iff_not]
    exact ⟨by omega, Or.inl (by omega)⟩
  have hloop := @Shaped.imageLoop c s h v hv (fun i idx => decide (idx < c.lcobound i) ||
    decide (c.ucobound i < idx) && decide (i < c.corank - 1)) haccepted c.corank le_rfl
  rw [Coshape.imageIndex, hloop]
  split_ifs with htotal
  · have hlt := number_lt (h.digit_lt hv)
    rw [Option.bind_some]
    dsimp only
    rw [← Nat.cast_succ, cint_natCast (by omega), Option.map_some, imageOf]
    congr 1
    split_ifs with h1 h2
    · rfl
    · exact absurd (by exact_mod_cast h1) h2
    · exact absurd (by exact_mod_cast (by assumption)) h1
    · rfl
  · rfl

theorem Shaped.getImageIndex (h : c.Shaped s) {v : List ℤ} (hv : c.Within v)
    (htotal : placeValue s c.corank < 2 ^ 31) :
    c.getImageIndex v = some ((number s (c.digit v) c.corank + 1 : ℕ) : ℤ) := by
  have haccepted : ∀ i < c.corank, (decide (v.getD i 0 < c.lcobound i) ||
      decide (c.ucobound i < v.getD i 0)) = false := by
    intro i hi
    obtain ⟨hlow, hhigh⟩ := hv.2 i hi
    simp only [Bool.or_eq_false_iff, decide_eq_false_iff_not]
    exact ⟨by omega, by omega⟩
  have hloop := @Shaped.imageLoop c s h v hv (fun i idx => decide (idx < c.lcobound i) ||
    decide (c.ucobound i < idx)) haccepted c.corank le_rfl
  have hlt := number_lt (h.digit_lt hv)
  rw [Coshape.getImageIndex, if_neg (not_not.mpr hv.1.symm), hv.1, hloop, if_pos htotal,
    Option.bind_some]
  dsimp only
  rw [← Nat.cast_succ, cint_natCast (by omega)]

theorem getD_range_map (f : ℕ → ℤ) {n i : ℕ} (hi : i < n) :
    ((List.range n).map f).getD i 0 = f i := by
  rw [List.getD_eq_getElem?_getD, List.getElem?_map, List.getElem?_range hi]
  rfl

/-- Where the product of the extents fits in `int`, cosubscripts and images correspond. -/
theorem Shaped.inverse (h : c.Shaped s) {nImages : ℕ} (htotal : placeValue s c.corank < 2 ^ 31)
    (himages : nImages ≤ placeValue s c.corank) : c.Inverse nImages where
  decode p h1 hp := by
    obtain ⟨x, rfl⟩ := Nat.exists_eq_add_of_le' h1
    have hwithin : c.Within ((List.range c.corank).map (c.cosubscript s x)) := by
      refine ⟨by simp, fun i hi => ?_⟩
      rw [getD_range_map _ hi]
      exact h.cosubscript_within x hi
    have hnumber : number s (c.digit ((List.range c.corank).map (c.cosubscript s x)))
      c.corank = x := by
      have hmod := number_quotients s x c.corank
      rw [Nat.mod_eq_of_lt (by omega)] at hmod
      apply Eq.trans ?_ hmod
      apply Finset.sum_congr rfl
      intro i hi
      rw [digit, getD_range_map _ (Finset.mem_range.mp hi), cosubscript, add_sub_cancel_right,
        Int.toNat_natCast]
    refine ⟨_, h.thisImageCoarray x, hwithin, ?_, ?_, ?_⟩
    · rw [h.imageIndex hwithin, if_pos htotal, imageOf, hnumber, if_neg (by omega)]
    · rw [h.getImageIndex hwithin htotal, hnumber]
    · intro dim hdim1 hdim
      rw [getD_range_map _ (by omega)]
      exact h.thisImageCoarrayDim x hdim1 hdim
  encode v w hv hw hne := by
    refine ⟨_, _, (h.imageIndex hv nImages).trans (if_pos htotal),
      (h.imageIndex hw nImages).trans (if_pos htotal), ?_⟩
    intro heq
    by_contra hzero
    have hv0 : c.imageOf s nImages v ≠ 0 := by exact_mod_cast hzero
    have hsame : c.imageOf s nImages v = c.imageOf s nImages w := by exact_mod_cast heq
    unfold imageOf at hv0 hsame
    split_ifs at hv0 hsame
    · exact hv0 rfl
    · have hdigits := number_inj (h.digit_lt hv) (h.digit_lt hw) (by omega)
      apply hne
      apply List.ext_getElem (hv.1.trans hw.1.symm)
      intro i hi hi'
      have hrank : i < c.corank := hv.1 ▸ hi
      have hvi := (hv.2 i hrank).1
      have hwi := (hw.2 i hrank).1
      have hdigit := hdigits i hrank
      rw [digit, digit] at hdigit
      have hget : v.getD i 0 = w.getD i 0 := by omega
      rwa [List.getD_eq_getElem _ _ hi, List.getD_eq_getElem _ _ hi'] at hget

theorem Shaped.not_inverse (h : c.Shaped s) {nImages : ℕ} (hn : 0 < nImages)
    (htotal : ¬ placeValue s c.corank < 2 ^ 31) : ¬ c.Inverse nImages := by
  intro hinv
  obtain ⟨image, -, hwithin, hindex, -⟩ := hinv.decode 1 le_rfl hn
  rw [h.imageIndex hwithin, if_neg htotal] at hindex
  cases hindex

/-! ## Setting the cobounds -/

theorem setCodim_inner {nImages : ℤ} {dim : ℕ} {lb ub : ℤ} (hdim : dim + 1 < c.corank)
    (hle : lb ≤ ub) : c.setCodim nImages dim lb ub =
      if ub - lb + 1 < 2 ^ 31 then some (c.store dim lb ub (ub - lb + 1)) else none := by
  rw [setCodim, if_pos hdim]
  split_ifs with hfits
  · rw [cint_eq_some.mpr ⟨⟨by omega, by omega⟩, rfl⟩, Option.bind_some,
      cint_eq_some.mpr ⟨⟨by omega, hfits⟩, rfl⟩, Option.bind_some, if_neg (by omega)]
  · rw [Option.bind_eq_none_iff]
    intro d hd
    obtain ⟨-, rfl⟩ := cint_eq_some.mp hd
    have hnone : cint (ub - lb + 1) = none := if_neg fun hin => hfits hin.2
    rw [hnone, Option.bind_none]

theorem store_lcobound (c : Coshape) (dim : ℕ) (lb ub size : ℤ) :
    (c.store dim lb ub size).lcobound dim = lb := Function.update_self _ _ _

theorem store_ucobound (c : Coshape) (dim : ℕ) (lb ub size : ℤ) :
    (c.store dim lb ub size).ucobound dim = ub := Function.update_self _ _ _

theorem store_cosize (c : Coshape) (dim : ℕ) (lb ub size : ℤ) :
    (c.store dim lb ub size).cosize dim = size := Function.update_self _ _ _

/-- The entries of dimension `i` are those for the cobounds `b`. -/
structure Entry (c : Coshape) (i : ℕ) (b : ℤ × ℤ) : Prop where
  lcobound : c.lcobound i = b.1
  ucobound : c.ucobound i = b.2
  cosize : c.cosize i = b.2 - b.1 + 1

theorem entry_store (c : Coshape) (dim : ℕ) (b : ℤ × ℤ) :
    (c.store dim b.1 b.2 (b.2 - b.1 + 1)).Entry dim b :=
  ⟨store_lcobound _ _ _ _ _, store_ucobound _ _ _ _ _, store_cosize _ _ _ _ _⟩

theorem Entry.store {i dim : ℕ} {b : ℤ × ℤ} {lb ub size : ℤ} (h : c.Entry i b) (hne : i ≠ dim) :
    (c.store dim lb ub size).Entry i b :=
  ⟨(Function.update_of_ne hne _ _).trans h.lcobound,
    (Function.update_of_ne hne _ _).trans h.ucobound,
    (Function.update_of_ne hne _ _).trans h.cosize⟩

theorem setCodims_append (nImages : ℤ) (init : List (ℤ × ℤ)) (last : ℤ × ℤ) (dim : ℕ)
    (c : Coshape) : setCodims nImages (init ++ [last]) dim c =
      (setCodims nImages init dim c).bind fun c =>
        c.setCodim nImages (dim + init.length) last.1 last.2 := by
  induction init generalizing dim c with
  | nil => simp [setCodims]
  | cons b init ih =>
    rw [List.cons_append, setCodims, setCodims, Option.bind_assoc]
    congr 1
    funext c
    rw [ih, List.length_cons, add_right_comm, add_assoc]

/-- Setting the cobounds of all codimensions but the last fails only where an extent does not
fit. -/
theorem setCodims_init {nImages : ℤ} {init : List (ℤ × ℤ)} {dim : ℕ}
    (hdim : dim + init.length < c.corank) (hle : ∀ b ∈ init, b.1 ≤ b.2) :
    (∃ c', setCodims nImages init dim c = some c' ∧ c'.corank = c.corank ∧
      (∀ i < dim, ∀ b, c.Entry i b → c'.Entry i b) ∧
      (∀ j b, init[j]? = some b → c'.Entry (dim + j) b) ∧ ∀ b ∈ init, b.2 - b.1 + 1 < 2 ^ 31) ∨
    setCodims nImages init dim c = none ∧ ∃ b ∈ init, ¬ b.2 - b.1 + 1 < 2 ^ 31 := by
  induction init generalizing dim c with
  | nil =>
    left
    exact ⟨c, rfl, rfl, fun _ _ _ h => h, by simp, by simp⟩
  | cons b init ih =>
    rw [List.length_cons] at hdim
    rw [List.forall_mem_cons] at hle
    rw [setCodims, setCodim_inner (by omega) hle.1]
    by_cases hfits : b.2 - b.1 + 1 < 2 ^ 31
    · rw [if_pos hfits, Option.bind_some]
      have hdim' : dim + 1 + init.length < (c.store dim b.1 b.2 (b.2 - b.1 + 1)).corank := by
        change _ < c.corank
        omega
      obtain ⟨c', hc', hcorank, hbefore, hentry, hall⟩ | ⟨hnone, x, hx, hbad⟩ := ih hdim' hle.2
      · left
        refine ⟨c', hc', hcorank, ?_, ?_, List.forall_mem_cons.mpr ⟨hfits, hall⟩⟩
        · intro i hi x hx
          exact hbefore i (by omega) x (hx.store (by omega))
        · intro j x hx
          cases j with
          | zero =>
            obtain rfl : b = x := Option.some.inj hx
            exact hbefore dim (by omega) b (entry_store c dim b)
          | succ j =>
            rw [← add_assoc, add_right_comm]
            exact hentry j x (by simpa using hx)
      · right
        exact ⟨hnone, x, List.mem_cons_of_mem b hx, hbad⟩
    · right
      rw [if_neg hfits]
      exact ⟨rfl, b, List.mem_cons_self, hfits⟩

end Coshape

def coextents (nImages : ℕ) (init : List (ℤ × ℤ)) : List ℕ :=
  init.map (fun b => (b.2 - b.1 + 1).toNat) ++ [lastExtent nImages init]

section Declared

variable {nImages : ℕ} {init : List (ℤ × ℤ)} {last : ℤ × ℤ} {arrays : Coshape}

theorem coextents_inner {j : ℕ} {b : ℤ × ℤ} (hb : init[j]? = some b) :
    (coextents nImages init).getD j 1 = (b.2 - b.1 + 1).toNat := by
  obtain ⟨hj, -⟩ := List.getElem?_eq_some_iff.mp hb
  rw [coextents, List.getD_append _ _ _ _ (by rwa [List.length_map]), List.getD_eq_getElem?_getD,
    List.getElem?_map, hb]
  rfl

theorem coextents_last : (coextents nImages init).getD init.length 1 = lastExtent nImages init := by
  rw [coextents, List.getD_append_right _ _ _ _ (by rw [List.length_map]), List.length_map,
    Nat.sub_self]
  rfl

theorem placeValue_init :
    placeValue (fun i => (coextents nImages init).getD i 1) init.length = extents init := by
  have hlow : placeValue (fun i => (coextents nImages init).getD i 1) init.length =
      placeValue (fun i => (init.map fun b => (b.2 - b.1 + 1).toNat).getD i 1)
        (init.map fun b => (b.2 - b.1 + 1).toNat).length := by
    rw [List.length_map]
    exact placeValue_congr fun i hi => List.getD_append _ _ _ _ (by rwa [List.length_map])
  rw [hlow, placeValue_getD, extents]

theorem placeValue_all : placeValue (fun i => (coextents nImages init).getD i 1) (init.length + 1) =
    extents init * lastExtent nImages init := by
  rw [placeValue_succ, placeValue_init, coextents_last]

theorem extents_pos (hle : ∀ b ∈ init, b.1 ≤ b.2) : 0 < extents init := by
  apply List.prod_pos
  intro x hx
  obtain ⟨b, hb, rfl⟩ := List.mem_map.mp hx
  have := hle b hb
  omega

theorem le_extents (hle : ∀ b ∈ init, b.1 ≤ b.2) {b : ℤ × ℤ} (hb : b ∈ init) :
    b.2 - b.1 + 1 ≤ extents init := by
  have hdvd : (b.2 - b.1 + 1).toNat ∣ extents init := List.dvd_prod (List.mem_map_of_mem hb)
  have := Nat.le_of_dvd (extents_pos hle) hdvd
  omega

theorem lastExtent_pos : 0 < lastExtent nImages init := Nat.succ_pos _

theorem extents_le_all : extents init ≤ extents init * lastExtent nImages init :=
  Nat.le_mul_of_pos_right _ lastExtent_pos

theorem nImages_le (hle : ∀ b ∈ init, b.1 ≤ b.2) :
    nImages ≤ extents init * lastExtent nImages init := by
  have hlt := Nat.lt_mul_div_succ (nImages - 1) (extents_pos hle)
  rw [lastExtent]
  omega

theorem lastExtent_le (hn : 0 < nImages) : lastExtent nImages init ≤ nImages := by
  have := Nat.div_le_self (nImages - 1) (extents init)
  rw [lastExtent]
  omega

theorem setCodim_last {c : Coshape} (hcorank : c.corank = init.length + 1)
    (hle : ∀ b ∈ init, b.1 ≤ b.2) (hentry : ∀ j b, init[j]? = some b → c.Entry j b)
    (hn : 0 < nImages) (hlast : InInt last.1) : c.setCodim nImages init.length last.1 last.2 =
      if extents init < 2 ^ 31 ∧ last.1 + lastExtent nImages init < 2 ^ 31 then
        some (c.store init.length last.1 (last.1 + lastExtent nImages init - 1)
          (lastExtent nImages init))
      else none := by
  have hcosize : ∀ i < init.length, c.cosize i = ((coextents nImages init).getD i 1 : ℕ) := by
    intro i hi
    have hb := List.getElem?_eq_getElem hi
    have := hle _ (List.getElem_mem hi)
    rw [coextents_inner hb, (hentry i _ hb).cosize]
    omega
  have hpos : ∀ i < init.length, 0 < (coextents nImages init).getD i 1 := by
    intro i hi
    have := hle _ (List.getElem_mem hi)
    rw [coextents_inner (List.getElem?_eq_getElem hi)]
    omega
  have hquot : ((nImages : ℤ) - 1).tdiv (extents init : ℤ) + 1 = lastExtent nImages init := by
    have hcast : (nImages : ℤ) - 1 = ((nImages - 1 : ℕ) : ℤ) := by omega
    rw [hcast, Int.tdiv_eq_ediv_of_nonneg (Int.natCast_nonneg _), lastExtent]
    push_cast
    rfl
  have hext := extents_pos hle
  obtain ⟨hlow, hhigh⟩ := hlast
  have hlastpos : 0 < lastExtent nImages init := lastExtent_pos
  rw [Coshape.setCodim, if_neg (by omega), if_pos hcorank.symm, hcorank, Nat.add_sub_cancel,
    Coshape.countLoop_eq hcosize hpos, placeValue_init]
  by_cases hprod : extents init < 2 ^ 31
  · rw [if_pos hprod, Option.bind_some, if_neg (by omega), hquot]
    by_cases hub : last.1 + lastExtent nImages init < 2 ^ 31
    · rw [if_pos ⟨hprod, hub⟩]
      dsimp only
      rw [cint_eq_some.mpr ⟨⟨by omega, hub⟩, rfl⟩, Option.bind_some,
        cint_eq_some.mpr ⟨⟨by omega, by omega⟩, rfl⟩, Option.map_some]
    · have hnone : cint (last.1 + lastExtent nImages init) = none := if_neg fun hin => hub hin.2
      rw [if_neg fun h => hub h.2]
      dsimp only
      rw [hnone, Option.bind_none]
  · rw [if_neg hprod, if_neg fun h => hprod h.1, Option.bind_none]

/-- Setting all cobounds gives a coshape with the declared extents, or some value does not fit. -/
theorem setCodims_declared (hn : 0 < nImages) (hn' : nImages < 2 ^ 31)
    (hle : ∀ b ∈ init, b.1 ≤ b.2) (hint : ∀ b ∈ init, InInt b.1 ∧ InInt b.2)
    (hlast : InInt last.1) :
    (∃ c, Coshape.setCodims nImages (init ++ [last]) 0
        (Coshape.setCorank (init.length + 1) arrays) = some c ∧ c.corank = init.length + 1 ∧
      (∀ i b, init[i]? = some b → c.lcobound i = b.1 ∧ c.ucobound i = b.2) ∧
      c.lcobound init.length = last.1 ∧ last.1 + lastExtent nImages init < 2 ^ 31 ∧
      c.Shaped fun i => (coextents nImages init).getD i 1) ∨
    Coshape.setCodims nImages (init ++ [last]) 0 (Coshape.setCorank (init.length + 1) arrays) =
      none ∧ ¬ CoshapeFits nImages init last.1 := by
  have hdim : 0 + init.length < (Coshape.setCorank (init.length + 1) arrays).corank := by
    change _ < init.length + 1
    omega
  rw [Coshape.setCodims_append, zero_add]
  obtain ⟨c, hc, hcorank, -, hentry, hall⟩ | ⟨hnone, b, hb, hbad⟩ := Coshape.setCodims_init hdim hle
  · simp only [zero_add] at hentry
    rw [hc, Option.bind_some, setCodim_last hcorank hle hentry hn hlast]
    by_cases hfits : extents init < 2 ^ 31 ∧ last.1 + lastExtent nImages init < 2 ^ 31
    · left
      rw [if_pos hfits]
      have hentry' : ∀ j b, init[j]? = some b → (c.store init.length last.1
          (last.1 + lastExtent nImages init - 1) (lastExtent nImages init)).Entry j b :=
        fun j b hb => (hentry j b hb).store (List.getElem?_eq_some_iff.mp hb).1.ne
      -- an entry before the last one, or the last one
      have hsplit : ∀ i < c.corank, (∃ b, init[i]? = some b) ∨ i = init.length := by
        intro i hi
        rw [hcorank] at hi
        obtain hi | hi := Nat.lt_or_eq_of_le (Nat.le_of_lt_succ hi)
        · exact Or.inl ⟨_, List.getElem?_eq_getElem hi⟩
        · exact Or.inr hi
      have hpos : 0 < lastExtent nImages init := lastExtent_pos
      have hsize : lastExtent nImages init ≤ nImages := lastExtent_le hn
      refine ⟨_, rfl, hcorank, fun i b hb => ⟨(hentry' i b hb).lcobound, (hentry' i b hb).ucobound⟩,
        Coshape.store_lcobound _ _ _ _ _, hfits.2, ?_, ?_, ?_, ?_, ?_, ?_⟩
      all_goals
        intro i hi
        obtain ⟨b, hb⟩ | rfl := hsplit i hi
      · rw [(hentry' i b hb).cosize, coextents_inner hb]
        have := hle b (List.mem_of_getElem? hb)
        omega
      · rw [coextents_last, Coshape.store_cosize]
      · have := hle b (List.mem_of_getElem? hb)
        rw [coextents_inner hb]
        omega
      · rw [coextents_last]
        exact hpos
      · have := hall b (List.mem_of_getElem? hb)
        rw [coextents_inner hb]
        omega
      · rw [coextents_last]
        omega
      · have := hle b (List.mem_of_getElem? hb)
        rw [(hentry' i b hb).ucobound, (hentry' i b hb).lcobound, coextents_inner hb]
        omega
      · rw [coextents_last, Coshape.store_ucobound, Coshape.store_lcobound]
      · rw [(hentry' i b hb).lcobound]
        exact (hint b (List.mem_of_getElem? hb)).1
      · rw [Coshape.store_lcobound]
        exact hlast
      · rw [(hentry' i b hb).ucobound]
        exact (hint b (List.mem_of_getElem? hb)).2
      · rw [Coshape.store_ucobound]
        obtain ⟨hlow, -⟩ := hlast
        exact ⟨by omega, by omega⟩
    · right
      refine ⟨if_neg hfits, fun h => hfits ⟨?_, h.1⟩⟩
      have hall : extents init ≤ extents init * lastExtent nImages init := extents_le_all
      exact hall.trans_lt h.2
  · right
    rw [hnone]
    refine ⟨rfl, fun h => hbad ?_⟩
    have hextent := le_extents hle hb
    have hall : extents init ≤ extents init * lastExtent nImages init := extents_le_all
    have := h.2
    omega

end Declared

/-- Cosubscripts and image indices are inverse to each other if and only if the last upper cobound
and the product of the extents fit in `int`. -/
theorem cosubscripts_inverse_iff {nImages : ℕ} {init : List (ℤ × ℤ)} {last : ℤ × ℤ}
    (hn : 0 < nImages) (hn' : nImages < 2 ^ 31) (hle : ∀ b ∈ init, b.1 ≤ b.2)
    (hint : ∀ b ∈ init, InInt b.1 ∧ InInt b.2) (hlast : InInt last.1) (arrays : Coshape) :
    CosubscriptsInverse nImages init last arrays ↔ CoshapeFits nImages init last.1 := by
  unfold CosubscriptsInverse
  obtain ⟨c, hc, hcorank, hbounds, hlower, hupper, hshaped⟩ | ⟨hnone, hover⟩ :=
    @setCodims_declared nImages init last arrays hn hn' hle hint hlast
  · have htotal : placeValue (fun i => (coextents nImages init).getD i 1) c.corank =
        extents init * lastExtent nImages init := by rw [hcorank, placeValue_all]
    constructor
    · intro ⟨c', hc', _, _, _, hinverse⟩
      obtain rfl : c = c' := Option.some.inj (hc.symm.trans hc')
      refine ⟨hupper, ?_⟩
      by_contra hbig
      exact hshaped.not_inverse hn (htotal ▸ hbig) hinverse
    · intro hfits
      exact ⟨c, hc, hcorank, hbounds, hlower,
        hshaped.inverse (htotal ▸ hfits.2) (htotal ▸ nImages_le hle)⟩
  · constructor
    · intro ⟨c', hc', _⟩
      rw [hnone] at hc'
      cases hc'
    · intro hfits
      exact absurd hfits hover

/-- Six images as `[0:1,-1:*]`. -/
theorem cosubscripts_inverse_six :
    CosubscriptsInverse 6 [(0, 1)] (-1, 0) ⟨0, fun _ => 0, fun _ => 0, fun _ => 0⟩ :=
  (cosubscripts_inverse_iff (by decide) (by decide) (by decide) (by decide) (by decide) _).mpr
    ⟨by decide, by decide⟩

/-- With `[0:65535,0:65535,*]` the product of the first two extents does not fit. -/
theorem cosubscripts_two_planes : ¬ ∀ (nImages : ℕ) (init : List (ℤ × ℤ)) (last : ℤ × ℤ)
    (arrays : Coshape), 0 < nImages → nImages < 2 ^ 31 → (∀ b ∈ init, b.1 ≤ b.2) →
      (∀ b ∈ init, InInt b.1 ∧ InInt b.2) → InInt last.1 →
      CosubscriptsInverse nImages init last arrays := by
  intro hall
  obtain ⟨c, hc, -⟩ :=
    hall 4 [(0, 65535), (0, 65535)] (1, 1) ⟨0, fun _ => 0, fun _ => 0, fun _ => 0⟩
    (by decide) (by decide) (by decide) (by decide) (by decide)
  have hnone : (Coshape.setCodims (4 : ℕ) ([(0, 65535), (0, 65535)] ++ [(1, 1)]) 0
      (Coshape.setCorank 3 ⟨0, fun _ => 0, fun _ => 0, fun _ => 0⟩)).isNone = true := by
    decide +kernel
  rw [List.length_cons, List.length_cons, List.length_nil] at hc
  rw [hc] at hnone
  cases hnone

end OmniCompiler.Xmpf
