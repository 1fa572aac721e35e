import OmniCompiler.Arithmetic.Alignment
import OmniCompiler.Xmp.GmoveCommList

/-!
# Rows of a communication list

The dimensions of the two references are aligned: a scalar index stands alone, the other
dimensions are matched in order. In positions of the references both sides intersect the
same sets, so the rows for sending and for receiving hold the same positions.
-/
namespace OmniCompiler.Xmp

open MachineInt ForLoop Progression OmniCompiler.Alignment

/-! ## Counting classes -/

theorem ncard_image_eq_length {ι α β : Type*} {l : List ι} (hl : l.Nodup) {E : ι → Set α}
    (hne : ∀ a ∈ l, (E a).Nonempty) {f : α → β}
    (hf : ∀ a ∈ l, ∀ a' ∈ l, ∀ x ∈ E a, ∀ x' ∈ E a', f x = f x' ↔ a = a') :
    (f '' {x | ∃ a ∈ l, x ∈ E a}).ncard = l.length := by
  classical
  have hrep : ∀ a : {a // a ∈ l}, ∃ x, x ∈ E a.1 := fun a => hne a.1 a.2
  choose rep hmem using hrep
  have himage : f '' {x | ∃ a ∈ l, x ∈ E a} = Set.range fun a => f (rep a) := by
    ext y
    constructor
    · rintro ⟨x, ⟨a, ha, hx⟩, rfl⟩
      exact ⟨⟨a, ha⟩, (hf a ha a ha _ (hmem ⟨a, ha⟩) x hx).mpr rfl⟩
    · rintro ⟨a, rfl⟩
      exact ⟨rep a, ⟨a.1, a.2, hmem a⟩, rfl⟩
  have hinj : Function.Injective fun a => f (rep a) := by
    intro a a' heq
    exact Subtype.ext ((hf a.1 a.2 a'.1 a'.2 _ (hmem a) _ (hmem a')).mp heq)
  rw [himage, ← Set.image_univ, Set.ncard_image_of_injective _ hinj, Set.ncard_univ,
    Nat.card_eq_fintype_card, Fintype.card_of_subtype l.toFinset fun a => List.mem_toFinset,
    List.toFinset_card_of_nodup hl]

/-- The class of position `k` modulo the period of the owned blocks. -/
def positionClass (period st k : ℤ) : ℤ := k * st % period

noncomputable def classCount (period st : ℤ) (R : Set ℤ) : ℕ :=
  (positionClass period st '' R).ncard

noncomputable def classPairCount (period0 st0 period1 st1 : ℤ) (R0 R1 : Set ℤ) : ℕ :=
  ((fun k => (positionClass period0 st0 k, positionClass period1 st1 k)) '' (R0 ∩ R1)).ncard

theorem positionClass_eq_iff {period st k k' : ℤ} :
    positionClass period st k = positionClass period st k' ↔ period ∣ (k - k') * st := by
  rw [positionClass, positionClass, sub_mul, Int.emod_eq_emod_iff_emod_sub_eq_zero,
    Int.dvd_iff_emod_eq_zero]

section

variable {m m' L0 U0 L1 U1 period0 st0 period1 st1 : ℤ} {K0 K1 : Csd}

theorem ClassesApart.n_eq (h : ClassesApart period0 st0 K0) (hs : PositionShape m L0 U0 K0) :
    K0.n = classCount period0 st0 K0.elems := by
  have hlen : K0.n = K0.rsds.length := by simp [Csd.n, Csd.rsds]
  rw [hlen]
  refine (ncard_image_eq_length hs.nodup_rsds (fun r hr => ?_) ?_).symm
  · exact ⟨r.l, left_mem_strided (hs.wf.comp r hr).le⟩
  · intro r hr r' hr' k hk k' hk'
    exact positionClass_eq_iff.trans (h r hr r' hr' k hk k' hk')

theorem ClassesApart.meetCount_eq (h0 : ClassesApart period0 st0 K0)
    (h1 : ClassesApart period1 st1 K1) (hs0 : PositionShape m L0 U0 K0)
    (hs1 : PositionShape m' L1 U1 K1) :
    meetCount K0 K1 = classPairCount period0 st0 period1 st1 K0.elems K1.elems := by
  have hset : K0.elems ∩ K1.elems = {k | ∃ p ∈ (K0.rsds.product K1.rsds).filter
      (fun p => p.1.Meets p.2), k ∈ p.1.elems ∩ p.2.elems} := by
    ext k
    constructor
    · rintro ⟨⟨r, hr, hk⟩, r', hr', hk'⟩
      refine ⟨(r, r'), List.mem_filter.mpr ⟨List.pair_mem_product.mpr ⟨hr, hr'⟩, ?_⟩, hk, hk'⟩
      exact decide_eq_true ⟨k, hk, hk'⟩
    · rintro ⟨⟨r, r'⟩, hp, hk, hk'⟩
      obtain ⟨hr, hr'⟩ := List.pair_mem_product.mp (List.mem_of_mem_filter hp)
      exact ⟨⟨r, hr, hk⟩, r', hr', hk'⟩
  rw [meetCount, List.countP_eq_length_filter, classPairCount, hset]
  refine (ncard_image_eq_length ((hs0.nodup_rsds.product hs1.nodup_rsds).filter _)
    (fun p hp => ?_) ?_).symm
  · obtain ⟨k, hk, hk'⟩ := of_decide_eq_true (List.mem_filter.mp hp).2
    exact ⟨k, hk, hk'⟩
  · rintro ⟨r, r'⟩ hp ⟨q, q'⟩ hq k hk k' hk'
    obtain ⟨hr, hr'⟩ := List.pair_mem_product.mp (List.mem_of_mem_filter hp)
    obtain ⟨hqr, hqr'⟩ := List.pair_mem_product.mp (List.mem_of_mem_filter hq)
    rw [Prod.mk.injEq, Prod.mk.injEq, positionClass_eq_iff, positionClass_eq_iff,
      h0 r hr q hqr k hk.1 k' hk'.1, h1 r' hr' q' hqr' k hk.2 k' hk'.2]

end

/-! ## Positions of a reference -/

namespace Triplet

variable {t : Triplet}

/-- Position of the last element. -/
def last (t : Triplet) : ℤ := lastPosition t.rsd.l t.rsd.u t.rsd.s

/-- The index at position `k`. -/
def index (t : Triplet) (k : ℤ) : ℤ := t.rsd.l + k * t.rsd.s

def extent (t : Triplet) : ℕ := (t.last + 1).toNat

/-- The descriptor of the indices at the positions of `K`. -/
def scale (t : Triplet) (K : Csd) : Csd := K.scale t.rsd.l t.rsd.s

theorem rsd_scalar (h : t.st = 0) : t.rsd = ⟨t.lb, t.lb, 1⟩ := by
  rw [rsd, if_neg (not_not.mpr h)]

theorem rsd_of_ne (h : t.st ≠ 0) : t.rsd = ⟨t.lb, t.ub, t.st⟩ := if_pos h

theorem rsd_pos (h : 0 ≤ t.st) : 0 < t.rsd.s := by
  by_cases h0 : t.st = 0
  · rw [rsd_scalar h0]
    exact one_pos
  · rw [rsd_of_ne h0]
    exact lt_of_le_of_ne h (Ne.symm h0)

theorem last_scalar (h : t.st = 0) : t.last = 0 := by
  simp [last, rsd_scalar h, lastPosition]

theorem index_mem_elems_iff (h : 0 ≤ t.st) {k : ℤ} :
    t.index k ∈ t.rsd.elems ↔ 0 ≤ k ∧ k ≤ t.last :=
  mem_strided_position (rsd_pos h)

theorem exists_index_of_mem {x : ℤ} (hx : x ∈ t.rsd.elems) : ∃ k, x = t.index k :=
  exists_position hx.2.2

end Triplet

/-- The products of `rescaleCsd` stay inside `int`. -/
structure RescaleInInt (t0 t1 : Triplet) (K : Csd) : Prop where
  comps : ∀ p ∈ K.comps, InInt (p.1 * t0.st * t1.st) ∧ InInt (p.2 * t0.st * t1.st)
  stride : InInt (K.s * t0.st * t1.st)

theorem rescaleCsd_scale {t0 t1 : Triplet} (h0 : t0.st ≠ 0) (h1 : t1.st ≠ 0) {K : Csd}
    (hK : RescaleInInt t0 t1 K) : rescaleCsd t0 t1 (t0.scale K) = t1.scale K := by
  have hpos : ∀ k : ℤ, InInt (k * t0.st * t1.st) →
      (toInt ((t0.lb + k * t0.st - t0.lb) * t1.st)).tdiv t0.st + t1.lb = t1.lb + k * t1.st := by
    intro k hk
    rw [add_sub_cancel_left, toInt_of_inInt hk, mul_right_comm, Int.mul_tdiv_cancel _ h0, add_comm]
  have hs : (toInt (K.s * t0.st * t1.st)).tdiv t0.st = K.s * t1.st := by
    rw [toInt_of_inInt hK.stride, mul_right_comm, Int.mul_tdiv_cancel _ h0]
  simp only [rescaleCsd, Triplet.scale, Triplet.rsd_of_ne h0, Triplet.rsd_of_ne h1, Csd.scale,
    List.map_map, hs, Csd.mk.injEq, and_true]
  refine List.map_congr_left fun p hp => ?_
  exact Prod.ext (hpos p.1 (hK.comps p hp).1) (hpos p.2 (hK.comps p hp).2)

theorem Csd.Spans.rescaleInInt {t0 t1 : Triplet} {K : Csd} {width period : ℤ}
    (h : K.Spans width period t0.st) (hwf : K.WF) (hne : K.comps ≠ []) (h0 : 0 < t0.st)
    (h1 : 0 < t1.st) (hwidth : InInt (width * t1.st)) (hperiod : InInt (period * t0.st * t1.st)) :
    RescaleInInt t0 t1 K := by
  have hposition : ∀ k, 0 ≤ k → k * t0.st ≤ width → InInt (k * t0.st * t1.st) := by
    intro k hk hle
    have hlow : 0 ≤ k * t0.st * t1.st := mul_nonneg (mul_nonneg hk h0.le) h1.le
    have hup : k * t0.st * t1.st ≤ width * t1.st := mul_le_mul_of_nonneg_right hle h1.le
    exact ⟨by omega, hup.trans_lt hwidth.2⟩
  constructor
  · intro p hp
    have hr := Csd.mem_rsds hp
    have hl : 0 ≤ p.1 := h.start _ hr
    have hle : p.1 ≤ p.2 := (hwf.comp _ hr).le
    have hu : p.2 * t0.st ≤ width := h.width _ hr
    exact ⟨hposition _ hl ((mul_le_mul_of_nonneg_right hle h0.le).trans hu),
      hposition _ (hl.trans hle) hu⟩
  · obtain ⟨p, hp⟩ := List.exists_mem_of_ne_nil _ hne
    have hr := Csd.mem_rsds hp
    have hpos : 0 < K.s := (hwf.comp _ hr).pos
    have hle : K.s ≤ period := h.stride _ hr
    have hlow : 0 < K.s * t0.st * t1.st := mul_pos (mul_pos hpos h0) h1
    have hup : K.s * t0.st * t1.st ≤ period * t0.st * t1.st := by gcongr
    exact ⟨by omega, hup.trans_lt hperiod.2⟩

/-- The dimensions of a scalar index on the other side are passed over. -/
theorem commCsds_cons_scalar {flag : Bool} {t0 : Triplet} (h0 : t0.st = 0) (D : Option Csd)
    (dims0 dims1 : List (Triplet × Option Csd)) :
    commCsds flag ((t0, D) :: dims0) dims1 = commCsds flag dims0 dims1 := by
  induction dims1 with
  | nil => simp [commCsds]
  | cons dim1 dims1 ih =>
    obtain ⟨t1, D1⟩ := dim1
    rw [commCsds, commCsds, ih, List.dropWhile_cons_of_pos (by simpa using h0)]

theorem commCsds_flag {flag : Bool} (dims0 : List (Triplet × Option Csd))
    {dims1 : List (Triplet × Option Csd)} (h : ∀ dim1 ∈ dims1, dim1.1.st = 0) :
    commCsds flag dims0 dims1 = commCsds false dims0 dims1 := by
  induction dims1 with
  | nil => simp [commCsds]
  | cons dim1 dims1 ih =>
    obtain ⟨t1, D1⟩ := dim1
    have h1 : t1.st = 0 := h (t1, D1) List.mem_cons_self
    rw [commCsds, commCsds, if_pos h1, if_pos h1,
      ih fun dim1' hdim => h dim1' (List.mem_cons_of_mem _ hdim)]

def pointCsd : Csd := ⟨[(0, 0)], 1⟩

theorem commCsds_cons_right {t1 : Triplet} (h1 : t1.st = 0) (D : Option Csd)
    (dims0 dims1 : List (Triplet × Option Csd)) :
    commCsds false dims0 ((t1, D) :: dims1) = (do
      let c ← intersectionCsds (some (t1.scale pointCsd)) D
      let cs ← commCsds false dims0 dims1
      .ok (c :: cs)) := by
  have hpoint : t1.scale pointCsd = ⟨[(t1.lb, t1.lb)], 1⟩ := by
    simp [Triplet.scale, Csd.scale, pointCsd, Triplet.rsd_scalar h1]
  rw [commCsds, if_pos h1, hpoint]

theorem commCsds_cons_both {t0 t1 : Triplet} (h0 : t0.st ≠ 0) (h1 : t1.st ≠ 0) {K : Csd}
    (hK : RescaleInInt t0 t1 K) (D : Option Csd) (dims0 dims1 : List (Triplet × Option Csd)) :
    commCsds false ((t0, some (t0.scale K)) :: dims0) ((t1, D) :: dims1) = (do
      let c ← intersectionCsds (some (t1.scale K)) D
      let cs ← commCsds false dims0 dims1
      .ok (c :: cs)) := by
  rw [commCsds, if_neg h1, List.dropWhile_cons_of_neg (by simpa using h0)]
  simp only [Bool.false_eq_true, if_false, Option.map_some, rescaleCsd_scale h0 h1 hK]

/-! ## Aligned dimensions -/

theorem pointCsd_shape : PositionShape 0 0 0 pointCsd := by
  have hrsds : ∀ r ∈ pointCsd.rsds, r = ⟨0, 0, 1⟩ := by simp [pointCsd, Csd.rsds]
  refine ⟨⟨fun r hr => ?_, fun r hr r' hr' _ => ?_⟩, List.pairwise_singleton _ _,
    fun r hr => Or.inl ?_, le_rfl, Or.inl rfl⟩
  · rw [hrsds r hr]
    exact ⟨one_pos, le_rfl⟩
  · rw [hrsds r hr, hrsds r' hr']
  · rw [hrsds r hr]
    exact ⟨⟨one_pos, le_rfl⟩, by simp, le_rfl, by simp, le_rfl, by simp⟩

theorem mem_pointCsd {k : ℤ} : k ∈ pointCsd.elems ↔ k = 0 := by
  simp only [Csd.elems, Csd.rsds, pointCsd, List.map_singleton, List.mem_singleton,
    exists_eq_left, Rsd.elems, strided, Set.mem_ofPred_eq]
  constructor
  · rintro ⟨h0, h1, -⟩
    omega
  · rintro rfl
    simp

section Items

variable {I J : Type} (t0 : I → Triplet) (t1 : J → Triplet) (K0 : I → Csd) (K1 : J → Csd)

/-- The dimensions of one side as `get_comm_list` sees them. -/
def rowDims (t : I → Triplet) (K : I → Csd) (is : List I) : List (Triplet × Option Csd) :=
  is.map fun i => (t i, some ((t i).scale (K i)))

theorem rowDims_cons (t : I → Triplet) (K : I → Csd) (i : I) (is : List I) :
    rowDims t K (i :: is) = (t i, some ((t i).scale (K i))) :: rowDims t K is := rfl

/-- A scalar index stands alone; other dimensions are matched with equal extents. -/
def Conforms : Item I J → Prop :=
  Item.Matches (fun i => (t0 i).st ≠ 0) (fun j => (t1 j).st ≠ 0) (fun i => (t0 i).extent)
    fun j => (t1 j).extent

theorem Conforms.left {t0 : I → Triplet} {t1 : J → Triplet} {i : I}
    (h : Conforms t0 t1 (.left i)) : (t0 i).st = 0 := not_not.mp h

theorem Conforms.right {t0 : I → Triplet} {t1 : J → Triplet} {j : J}
    (h : Conforms t0 t1 (.right j)) : (t1 j).st = 0 := not_not.mp h

theorem Conforms.both {t0 : I → Triplet} {t1 : J → Triplet} {i : I} {j : J}
    (h : Conforms t0 t1 (.both i j)) :
    (t0 i).st ≠ 0 ∧ (t1 j).st ≠ 0 ∧ (t0 i).extent = (t1 j).extent := h

theorem Conforms.last_eq {t0 : I → Triplet} {t1 : J → Triplet} {i : I} {j : J}
    (h : Conforms t0 t1 (.both i j)) (h0 : 0 ≤ (t0 i).last) (h1 : 0 ≤ (t1 j).last) :
    (t0 i).last = (t1 j).last := by
  have hext := h.both.2.2
  unfold Triplet.extent at hext
  omega

structure PositionSide (t : I → Triplet) (K : I → Csd) : Prop where
  stride : ∀ i, 0 ≤ (t i).st
  last : ∀ i, 0 ≤ (t i).last
  shape : ∀ i, ∃ L U, PositionShape (t i).last L U (K i)
  point : ∀ i, (t i).st = 0 → ∀ k ∈ (K i).elems, k = 0

def allowedCsd : Item I J → Csd
  | .left i => K0 i
  | .right _ => pointCsd
  | .both i _ => K0 i

def itemPositions (R0 : I → Set ℤ) (R1 : J → Set ℤ) : Item I J → Set ℤ
  | .left i => R0 i
  | .right j => R1 j
  | .both i j => R0 i ∩ R1 j

/-- Every `int` that `get_comm_list` computes for an aligned dimension stays inside its range. -/
def ItemInInt : Item I J → Prop
  | .left _ => True
  | .right j => ((t1 j).scale pointCsd).FitsWith ((t1 j).scale (K1 j))
  | .both i j => RescaleInInt (t0 i) (t1 j) (K0 i) ∧
      ((t1 j).scale (K0 i)).FitsWith ((t1 j).scale (K1 j))

/-- The intersection stays inside the array allocated for it. -/
def Fits : Item I J → Prop
  | .both i j => meetCount (K0 i) (K1 j) ≤ max (K0 i).n (K1 j).n
  | .left _ | .right _ => True

def commCsdOf (item : Item I J) (j : J) : Csd :=
  meetCsd (t1 j).rsd.l (t1 j).rsd.s (allowedCsd K0 item) (K1 j)

def commRow (items : List (Item I J)) : List Csd :=
  items.filterMap fun item => item.right?.map (commCsdOf t1 K0 K1 item)

variable {t0 t1 K0 K1}

theorem intersectionCsds_item (h0 : PositionSide t0 K0) (h1 : PositionSide t1 K1) {item : Item I J}
    (hc : Conforms t0 t1 item) (hint : ItemInInt t0 t1 K0 K1 item) {j : J}
    (hj : item.right? = some j) :
    intersectionCsds (some ((t1 j).scale (allowedCsd K0 item))) (some ((t1 j).scale (K1 j))) =
      if meetCount (allowedCsd K0 item) (K1 j) ≤ max (allowedCsd K0 item).n (K1 j).n then
        .ok (some (commCsdOf t1 K0 K1 item j))
      else .error "component stored past the end of the array" := by
  obtain ⟨L1, U1, hshape1⟩ := h1.shape j
  have hst := Triplet.rsd_pos (h1.stride j)
  cases item with
  | left i => cases hj
  | right j' =>
    cases hj
    rw [Triplet.last_scalar hc.right] at hshape1
    exact intersectionCsds_scale hst pointCsd_shape hshape1 hint
  | both i j' =>
    cases hj
    obtain ⟨L0, U0, hshape0⟩ := h0.shape i
    rw [hc.last_eq (h0.last i) (h1.last j)] at hshape0
    exact intersectionCsds_scale hst hshape0 hshape1 hint.2

theorem meetCount_pointCsd_le (K : Csd) : meetCount pointCsd K ≤ max pointCsd.n K.n := by
  have hlen : (pointCsd.rsds.product K.rsds).length = K.n := by
    refine (List.length_product _ _).trans ?_
    simp [pointCsd, Csd.rsds, Csd.n]
  exact (List.countP_le_length.trans (le_of_eq hlen)).trans (le_max_right _ _)

theorem commRow_cons (item : Item I J) (items : List (Item I J)) :
    commRow t1 K0 K1 (item :: items) =
      (item.right?.map (commCsdOf t1 K0 K1 item)).toList ++ commRow t1 K0 K1 items := by
  cases h : item.right? <;> simp [commRow, h]

/-- The loop over the dimensions of the right side succeeds when everything fits. -/
theorem commCsds_of_fits (h0 : PositionSide t0 K0) (h1 : PositionSide t1 K1)
    {items : List (Item I J)} (hc : ∀ item ∈ items, Conforms t0 t1 item)
    (hint : ∀ item ∈ items, ItemInInt t0 t1 K0 K1 item)
    (hfit : ∀ item ∈ items, Fits K0 K1 item) :
    commCsds false (rowDims t0 K0 (lefts items)) (rowDims t1 K1 (rights items)) =
      .ok ((commRow t1 K0 K1 items).map some) := by
  induction items with
  | nil => rfl
  | cons item items ih =>
    have hrest := ih (fun item' hitem => hc item' (List.mem_cons_of_mem _ hitem))
      (fun item' hitem => hint item' (List.mem_cons_of_mem _ hitem))
      (fun item' hitem => hfit item' (List.mem_cons_of_mem _ hitem))
    have hci := hc item List.mem_cons_self
    have hini := hint item List.mem_cons_self
    have hfi := hfit item List.mem_cons_self
    rw [commRow_cons]
    cases item with
    | left i => exact (commCsds_cons_scalar hci.left _ _ _).trans hrest
    | right j =>
      have hrun := intersectionCsds_item h0 h1 hci hini rfl
      rw [allowedCsd, if_pos (meetCount_pointCsd_le (K1 j))] at hrun
      rw [lefts_cons_right, rights_cons_right, rowDims_cons, commCsds_cons_right hci.right, hrun,
        hrest]
      rfl
    | both i j =>
      have hrun := (intersectionCsds_item h0 h1 hci hini rfl).trans (if_pos hfi)
      rw [lefts_cons_both, rights_cons_both, rowDims_cons, rowDims_cons,
        commCsds_cons_both hci.both.1 hci.both.2.1 hini.1]
      rw [allowedCsd] at hrun
      rw [hrun, hrest]
      rfl

theorem commCsds_of_not_fits (h0 : PositionSide t0 K0) (h1 : PositionSide t1 K1)
    {items : List (Item I J)} (hc : ∀ item ∈ items, Conforms t0 t1 item)
    (hint : ∀ item ∈ items, ItemInInt t0 t1 K0 K1 item)
    (hfit : ¬ ∀ item ∈ items, Fits K0 K1 item) :
    ∃ e, commCsds false (rowDims t0 K0 (lefts items)) (rowDims t1 K1 (rights items)) =
      .error e := by
  induction items with
  | nil => simp at hfit
  | cons item items ih =>
    have hrest := ih (fun item' hitem => hc item' (List.mem_cons_of_mem _ hitem))
      fun item' hitem => hint item' (List.mem_cons_of_mem _ hitem)
    have hci := hc item List.mem_cons_self
    have hini := hint item List.mem_cons_self
    have hsplit : Fits K0 K1 item → ¬ ∀ item ∈ items, Fits K0 K1 item := fun hfi hall =>
      hfit (List.forall_mem_cons.mpr ⟨hfi, hall⟩)
    cases item with
    | left i =>
      obtain ⟨e, he⟩ := hrest (hsplit trivial)
      exact ⟨e, (commCsds_cons_scalar hci.left _ _ _).trans he⟩
    | right j =>
      obtain ⟨e, he⟩ := hrest (hsplit trivial)
      have hrun := intersectionCsds_item h0 h1 hci hini rfl
      rw [allowedCsd, if_pos (meetCount_pointCsd_le (K1 j))] at hrun
      rw [lefts_cons_right, rights_cons_right, rowDims_cons, commCsds_cons_right hci.right, hrun,
        he]
      exact ⟨e, rfl⟩
    | both i j =>
      rw [lefts_cons_both, rights_cons_both, rowDims_cons, rowDims_cons,
        commCsds_cons_both hci.both.1 hci.both.2.1 hini.1]
      have hrun := intersectionCsds_item h0 h1 hci hini rfl
      by_cases hfi : Fits K0 K1 (.both i j)
      · obtain ⟨e, he⟩ := hrest (hsplit hfi)
        have hok := hrun.trans (if_pos hfi)
        rw [allowedCsd] at hok
        rw [hok, he]
        exact ⟨e, rfl⟩
      · have herr := hrun.trans (if_neg hfi)
        rw [allowedCsd] at herr
        rw [herr]
        exact ⟨_, rfl⟩

theorem isCommSection_commCsdOf (h0 : PositionSide t0 K0) (h1 : PositionSide t1 K1)
    {item : Item I J} (hc : Conforms t0 t1 item) (hint : ItemInInt t0 t1 K0 K1 item) {j : J}
    (hj : item.right? = some j) :
    IsCommSection (t1 j).rsd.l (t1 j).rsd.s (t1 j).last
      (itemPositions (fun i => (K0 i).elems) (fun j => (K1 j).elems) item)
      (commCsdOf t1 K0 K1 item j) := by
  obtain ⟨L1, U1, hshape1⟩ := h1.shape j
  have hst := Triplet.rsd_pos (h1.stride j)
  cases item with
  | left i => cases hj
  | right j' =>
    cases hj
    have hset : itemPositions (fun i => (K0 i).elems) (fun j => (K1 j).elems) (.right j) =
        pointCsd.elems ∩ (K1 j).elems := by
      rw [itemPositions, Set.inter_eq_right.mpr]
      intro k hk
      exact mem_pointCsd.mpr (h1.point j hc.right k hk)
    rw [hset]
    rw [Triplet.last_scalar hc.right] at hshape1 ⊢
    exact isCommSection_meetCsd hst pointCsd_shape hshape1 hint
  | both i j' =>
    cases hj
    obtain ⟨L0, U0, hshape0⟩ := h0.shape i
    rw [hc.last_eq (h0.last i) (h1.last j)] at hshape0
    exact isCommSection_meetCsd hst hshape0 hshape1 hint.2

/-! ## The whole row -/

theorem reduceCsd_of_none_mem {csd : List (Option Csd)} (h : none ∈ csd) :
    (reduceCsd csd).map csd2commSet = List.replicate csd.length [] := by
  have hany : (csd.any fun c => c.elim true fun c => c.n = 0) = true :=
    List.any_eq_true.mpr ⟨none, h, rfl⟩
  rw [reduceCsd, if_pos hany, List.map_map]
  exact List.map_const'

theorem reduceCsd_map_some (cs : List Csd) :
    (reduceCsd (cs.map some)).map csd2commSet =
      if ∀ c ∈ cs, c.comps ≠ [] then cs.map fun c => csd2commSet (some c)
      else List.replicate cs.length [] := by
  have hany : ((cs.map some).any fun c => c.elim true fun c => c.n = 0) = true ↔
      ¬ ∀ c ∈ cs, c.comps ≠ [] := by
    simp [Csd.n]
  rw [reduceCsd]
  split_ifs with h1 h2 h2
  · exact absurd h2 (hany.mp h1)
  · rw [List.map_map, List.map_map]
    exact List.map_const'
  · rw [List.map_map]
    rfl
  · exact absurd (hany.mpr h2) h1

theorem scalar_of_all_left {items : List (Item I J)} (hc : ∀ item ∈ items, Conforms t0 t1 item)
    (h : ∀ i ∈ lefts items, (t0 i).st = 0) : ∀ j ∈ rights items, (t1 j).st = 0 := by
  intro j hj
  obtain ⟨item, hitem, hright⟩ := List.mem_filterMap.mp hj
  cases item with
  | left i => cases hright
  | right j' =>
    cases hright
    exact (hc _ hitem).right
  | both i j' =>
    have hleft : i ∈ lefts items := List.mem_filterMap.mpr ⟨_, hitem, rfl⟩
    exact absurd (h i hleft) (hc _ hitem).both.1

theorem getCommList_eq {items : List (Item I J)} (hc : ∀ item ∈ items, Conforms t0 t1 item)
    {D0 : I → Option Csd} {D1 : J → Option Csd}
    (hany : (∀ i ∈ lefts items, (t0 i).st = 0) → ∀ i ∈ lefts items, D0 i ≠ none) :
    getCommList ((lefts items).map fun i => (t0 i, D0 i))
        ((rights items).map fun j => (t1 j, D1 j)) = (do
      let commCsd ← commCsds false ((lefts items).map fun i => (t0 i, D0 i))
        ((rights items).map fun j => (t1 j, D1 j))
      .ok ((reduceCsd commCsd).map csd2commSet)) := by
  unfold getCommList
  by_cases hscalar : ∀ i ∈ lefts items, (t0 i).st = 0
  · have hright := scalar_of_all_left hc hscalar
    have hnone : ((lefts items).map fun i => (t0 i, D0 i)).any (fun dim0 => dim0.2.isNone) =
        false := by
      rw [List.any_map, List.any_eq_false]
      intro i hi
      simpa using hany hscalar i hi
    dsimp only
    rw [hnone, Bool.and_false, if_neg (by simp), commCsds_flag]
    intro dim1 hdim
    obtain ⟨j, hj, rfl⟩ := List.mem_map.mp hdim
    exact hright j hj
  · have hflag : ((lefts items).map fun i => (t0 i, D0 i)).all (fun dim0 => dim0.1.st = 0) =
        false := by
      rw [List.all_map, List.all_eq_false]
      push Not at hscalar
      obtain ⟨i, hi, hne⟩ := hscalar
      exact ⟨i, hi, by simpa using hne⟩
    dsimp only
    rw [hflag, Bool.false_and, if_neg (by simp)]

theorem getCommList_of_fits (h0 : PositionSide t0 K0) (h1 : PositionSide t1 K1)
    {items : List (Item I J)} (hc : ∀ item ∈ items, Conforms t0 t1 item)
    (hint : ∀ item ∈ items, ItemInInt t0 t1 K0 K1 item)
    (hfit : ∀ item ∈ items, Fits K0 K1 item) :
    getCommList (rowDims t0 K0 (lefts items)) (rowDims t1 K1 (rights items)) =
      .ok (if ∀ c ∈ commRow t1 K0 K1 items, c.comps ≠ [] then
        (commRow t1 K0 K1 items).map fun c => csd2commSet (some c)
      else List.replicate (commRow t1 K0 K1 items).length []) := by
  have hrun := commCsds_of_fits h0 h1 hc hint hfit
  unfold rowDims at hrun ⊢
  rw [getCommList_eq hc (by simp), hrun, ← reduceCsd_map_some]
  rfl

theorem getCommList_of_not_fits (h0 : PositionSide t0 K0) (h1 : PositionSide t1 K1)
    {items : List (Item I J)} (hc : ∀ item ∈ items, Conforms t0 t1 item)
    (hint : ∀ item ∈ items, ItemInInt t0 t1 K0 K1 item)
    (hfit : ¬ ∀ item ∈ items, Fits K0 K1 item) :
    ∃ e, getCommList (rowDims t0 K0 (lefts items)) (rowDims t1 K1 (rights items)) = .error e := by
  obtain ⟨e, he⟩ := commCsds_of_not_fits h0 h1 hc hint hfit
  unfold rowDims at he ⊢
  rw [getCommList_eq hc (by simp), he]
  exact ⟨e, rfl⟩

/-! ## Sides without elements -/

theorem intersectionCsds_pointCsd (t : Triplet) (D : Option Csd) :
    ∃ c, intersectionCsds (some (t.scale pointCsd)) D = .ok c := by
  cases D with
  | none => exact ⟨none, rfl⟩
  | some c =>
    refine ⟨_, (intersectionCsds_eq _ c).trans (if_pos ?_)⟩
    have hle := length_crossHits_le (t.scale pointCsd) c
    rw [show (t.scale pointCsd).n = 1 from rfl, one_mul] at hle
    exact hle.trans (le_max_right _ _)

theorem commCsds_none_both {t0 t1 : Triplet} (h0 : t0.st ≠ 0) (h1 : t1.st ≠ 0)
    {D0 D1 : Option Csd} (hD : D0 = none ∨ D1 = none) (dims0 dims1 : List (Triplet × Option Csd)) :
    commCsds false ((t0, D0) :: dims0) ((t1, D1) :: dims1) = (do
      let cs ← commCsds false dims0 dims1
      .ok (none :: cs)) := by
  have hnone : intersectionCsds (D0.map (rescaleCsd t0 t1)) D1 = .ok none := by
    rcases hD with rfl | rfl
    · rfl
    · cases D0 <;> rfl
  rw [commCsds, if_neg h1, List.dropWhile_cons_of_neg (by simpa using h0)]
  simp only [Bool.false_eq_true, if_false, hnone]
  rfl

theorem commCsds_of_none {D0 : I → Option Csd} {D1 : J → Option Csd} {items : List (Item I J)}
    (hD : (∀ i, D0 i = none) ∨ ∀ j, D1 j = none) (hc : ∀ item ∈ items, Conforms t0 t1 item) :
    ∃ cs, commCsds false ((lefts items).map fun i => (t0 i, D0 i))
        ((rights items).map fun j => (t1 j, D1 j)) = .ok cs ∧ cs.length = (rights items).length ∧
      ((∃ i j, .both i j ∈ items) → none ∈ cs) ∧
      ((∀ j, D1 j = none) → rights items ≠ [] → none ∈ cs) := by
  induction items with
  | nil => exact ⟨[], rfl, rfl, by simp, fun _ h => absurd rfl h⟩
  | cons item items ih =>
    obtain ⟨cs, hrun, hlen, hboth, hnone⟩ :=
      ih fun item' hitem => hc item' (List.mem_cons_of_mem _ hitem)
    have hci := hc item List.mem_cons_self
    cases item with
    | left i =>
      refine ⟨cs, (commCsds_cons_scalar hci.left _ _ _).trans hrun, hlen, ?_, hnone⟩
      rintro ⟨i', j, hmem⟩
      exact hboth ⟨i', j, by simpa using hmem⟩
    | right j =>
      obtain ⟨c, hcrun⟩ := intersectionCsds_pointCsd (t1 j) (D1 j)
      refine ⟨c :: cs, ?_, by simpa using hlen, ?_, fun hD1 _ => ?_⟩
      · rw [rights_cons_right, lefts_cons_right, List.map_cons, commCsds_cons_right hci.right,
          hcrun, hrun]
        rfl
      · rintro ⟨i, j', hmem⟩
        exact List.mem_cons_of_mem _ (hboth ⟨i, j', by simpa using hmem⟩)
      · rw [hD1 j] at hcrun
        cases hcrun
        exact List.mem_cons_self
    | both i j =>
      refine ⟨none :: cs, ?_, by simpa using hlen, fun _ => List.mem_cons_self,
        fun _ _ => List.mem_cons_self⟩
      rw [rights_cons_both, lefts_cons_both, List.map_cons, List.map_cons,
        commCsds_none_both hci.both.1 hci.both.2.1 (hD.imp (fun h => h i) fun h => h j), hrun]
      rfl

theorem getCommList_of_none {D0 : I → Option Csd} {D1 : J → Option Csd} {items : List (Item I J)}
    (hD : (∀ i, D0 i = none) ∨ (∀ i, D0 i ≠ none) ∧ ∀ j, D1 j = none)
    (hc : ∀ item ∈ items, Conforms t0 t1 item) (hleft : lefts items ≠ [])
    (hright : rights items ≠ []) :
    getCommList ((lefts items).map fun i => (t0 i, D0 i))
        ((rights items).map fun j => (t1 j, D1 j)) =
      .ok (List.replicate (rights items).length []) := by
  obtain ⟨cs, hrun, hlen, hboth, hnone⟩ := commCsds_of_none (hD.imp id And.right) hc
  by_cases hscalar : (∀ i, D0 i = none) ∧ ∀ i ∈ lefts items, (t0 i).st = 0
  · -- The test for scalar references finds the missing descriptor.
    unfold getCommList
    have hall : ((lefts items).map fun i => (t0 i, D0 i)).all (fun dim0 => dim0.1.st = 0) =
        true := by
      rw [List.all_map, List.all_eq_true]
      intro i hi
      simpa using hscalar.2 i hi
    have hany : ((lefts items).map fun i => (t0 i, D0 i)).any (fun dim0 => dim0.2.isNone) =
        true := by
      obtain ⟨i, hi⟩ := List.exists_mem_of_ne_nil _ hleft
      rw [List.any_map, List.any_eq_true]
      exact ⟨i, hi, by simp [hscalar.1 i]⟩
    dsimp only
    rw [hall, hany, Bool.and_self, if_pos rfl, List.map_map]
    exact congrArg Except.ok (List.map_const')
  · have hmem : none ∈ cs := by
      rcases hD with hD0 | ⟨-, hD1⟩
      · refine hboth ?_
        have hne : ¬ ∀ i ∈ lefts items, (t0 i).st = 0 := fun h => hscalar ⟨hD0, h⟩
        push Not at hne
        obtain ⟨i, hi, hst⟩ := hne
        obtain ⟨item, hitem, hl⟩ := List.mem_filterMap.mp hi
        cases item with
        | left i' =>
          cases hl
          exact absurd (hc _ hitem).left hst
        | right j => cases hl
        | both i' j => exact ⟨i', j, hitem⟩
      · exact hnone hD1 hright
    rw [getCommList_eq hc, hrun, ← hlen, ← reduceCsd_of_none_mem hmem]
    · rfl
    · intro hst i _ hi
      rcases hD with hD0 | ⟨hD0, -⟩
      · exact hscalar ⟨hD0, hst⟩
      · exact hD0 i hi

end Items

end OmniCompiler.Xmp
