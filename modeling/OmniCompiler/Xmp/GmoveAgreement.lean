import OmniCompiler.Xmp.GmovePack

/-!
# Agreement of sender and receiver

The sender's row for a receiver and the receiver's row for the sender are both lists of
common positions, seen as indices of their own references. They agree with each other and
with the ownership of the elements exactly when the positions that the runtime reaches are
the owned ones.
-/
namespace OmniCompiler.Xmp

open MachineInt ForLoop Progression OmniCompiler.Alignment

section Tuples

variable {I J : Type} {t0 : I → Triplet} {t1 : J → Triplet}

/-- Positions of the elements of the reference that satisfy `O`. -/
def positionsOf (t : I → Triplet) (O : I → ℤ → Prop) (i : I) : Set ℤ :=
  {k | 0 ≤ k ∧ k ≤ (t i).last ∧ O i ((t i).index k)}

def itemImage (t0 : I → Triplet) (t1 : J → Triplet) (items : List (Item I J)) (x : List ℤ) :
    List ℤ :=
  imageIndex ((lefts items).map t0) (((rights items).map t1).zip x)

section

variable {items : List (Item I J)}

theorem itemImage_cons_left {i : I} (h : (t0 i).st = 0) (x : List ℤ) :
    itemImage t0 t1 (.left i :: items) x = (t0 i).index 0 :: itemImage t0 t1 items x := by
  simp [itemImage, imageIndex, h, Triplet.index, Triplet.rsd_scalar h]

theorem itemImage_cons_right {j : J} (h : (t1 j).st = 0) (v : ℤ) (x : List ℤ) :
    itemImage t0 t1 (.right j :: items) (v :: x) = itemImage t0 t1 items x := by
  rw [itemImage, rights_cons_right, lefts_cons_right, List.map_cons, List.zip_cons_cons]
  exact imageIndex_cons_scalar h v _ _

theorem itemImage_cons_both {i : I} {j : J} (h0 : (t0 i).st ≠ 0) (h1 : (t1 j).st ≠ 0) (k : ℤ)
    (x : List ℤ) : itemImage t0 t1 (.both i j :: items) ((t1 j).index k :: x) =
      (t0 i).index k :: itemImage t0 t1 items x := by
  rw [itemImage, rights_cons_both, lefts_cons_both, List.map_cons, List.map_cons,
    List.zip_cons_cons]
  exact imageIndex_cons_both h0 h1 k _ _

end

theorem itemImage_rightsAt {items : List (Item I J)} (hc : ∀ item ∈ items, Conforms t0 t1 item)
    {ks : List ℤ}
    (hks : List.Forall₂ (fun (item : Item I J) k => item.right? = none → k = 0) items ks) :
    itemImage t0 t1 items (rightsAt (fun j => (t1 j).index) items ks) =
      leftsAt (fun i => (t0 i).index) items ks := by
  induction hks with
  | nil => rfl
  | @cons item k items ks hk _ ih =>
    have hrest := ih fun item' hitem => hc item' (List.mem_cons_of_mem _ hitem)
    have hci := hc item List.mem_cons_self
    rw [leftsAt] at hrest ⊢
    rw [List.map_cons, rightsAt_cons, rightsAt_cons, ← hrest]
    cases item with
    | left i =>
      obtain rfl := hk rfl
      exact itemImage_cons_left hci.left _
    | right j => exact itemImage_cons_right hci.right _ _
    | both i j => exact itemImage_cons_both hci.both.1 hci.both.2.1 k _

/-- Elements of the right reference with an owner on either side, in positions. -/
theorem owned_iff_positions {O0 : I → ℤ → Prop} {O1 : J → ℤ → Prop} (h1 : ∀ j, 0 ≤ (t1 j).st)
    {items : List (Item I J)}
    (hc : ∀ item ∈ items, Conforms t0 t1 item) {x : List ℤ} :
    (List.Forall₂ (fun j v => v ∈ (t1 j).rsd.elems) (rights items) x ∧
      List.Forall₂ O1 (rights items) x ∧
      List.Forall₂ O0 (lefts items) (itemImage t0 t1 items x)) ↔
    ∃ ks, List.Forall₂ (fun item k =>
        k ∈ itemPositions (positionsOf t0 O0) (positionsOf t1 O1) item) items ks ∧
      x = rightsAt (fun j => (t1 j).index) items ks := by
  induction items generalizing x with
  | nil =>
    constructor
    · rintro ⟨hx, -, -⟩
      cases hx
      exact ⟨[], List.Forall₂.nil, rfl⟩
    · rintro ⟨ks, hks, rfl⟩
      exact ⟨List.Forall₂.nil, List.Forall₂.nil, List.Forall₂.nil⟩
  | cons item items ih =>
    have hrest := @ih fun item' hitem => hc item' (List.mem_cons_of_mem _ hitem)
    have hci := hc item List.mem_cons_self
    simp only [List.forall₂_cons_left_iff (l := items)]
    cases item with
    | left i =>
      rw [itemImage_cons_left hci.left, lefts_cons_left, rights_cons_left, List.forall₂_cons]
      constructor
      · rintro ⟨hx, hO1, hO, hO0⟩
        obtain ⟨ks, hks, rfl⟩ := hrest.mp ⟨hx, hO1, hO0⟩
        have hlast := Triplet.last_scalar hci.left
        exact ⟨0 :: ks, ⟨0, ks, ⟨le_rfl, hlast.ge, hO⟩, hks, rfl⟩, by rw [rightsAt_cons]; rfl⟩
      · rintro ⟨_, ⟨k, ks, ⟨hk0, hk1, hO⟩, hks, rfl⟩, rfl⟩
        rw [Triplet.last_scalar hci.left] at hk1
        obtain rfl : k = 0 := by omega
        have := hrest.mpr ⟨ks, hks, rfl⟩
        rw [rightsAt_cons]
        exact ⟨this.1, this.2.1, hO, this.2.2⟩
    | right j =>
      rw [lefts_cons_right, rights_cons_right]
      constructor
      · rintro ⟨hx, hO1, hO0⟩
        obtain ⟨v, x', hv, hx', rfl⟩ := List.forall₂_cons_left_iff.mp hx
        obtain ⟨hOv, hO1'⟩ := List.forall₂_cons.mp hO1
        rw [itemImage_cons_right hci.right] at hO0
        obtain ⟨ks, hks, rfl⟩ := hrest.mp ⟨hx', hO1', hO0⟩
        obtain ⟨k, rfl⟩ := Triplet.exists_index_of_mem hv
        obtain ⟨hk0, hk1⟩ := (Triplet.index_mem_elems_iff (h1 j)).mp hv
        exact ⟨k :: ks, ⟨k, ks, ⟨hk0, hk1, hOv⟩, hks, rfl⟩, by rw [rightsAt_cons]; rfl⟩
      · rintro ⟨_, ⟨k, ks, ⟨hk0, hk1, hO⟩, hks, rfl⟩, rfl⟩
        obtain ⟨hx, hO1, hO0⟩ := hrest.mpr ⟨ks, hks, rfl⟩
        have hcons : rightsAt (fun j => (t1 j).index) (.right j :: items) (k :: ks) =
            (t1 j).index k :: rightsAt (fun j => (t1 j).index) items ks := rightsAt_cons _ _ _
        rw [hcons, itemImage_cons_right hci.right]
        exact ⟨List.Forall₂.cons ((Triplet.index_mem_elems_iff (h1 j)).mpr ⟨hk0, hk1⟩) hx,
          List.Forall₂.cons hO hO1, hO0⟩
    | both i j =>
      rw [lefts_cons_both, rights_cons_both]
      constructor
      · rintro ⟨hx, hO1, hO0⟩
        obtain ⟨v, x', hv, hx', rfl⟩ := List.forall₂_cons_left_iff.mp hx
        obtain ⟨hOv, hO1'⟩ := List.forall₂_cons.mp hO1
        obtain ⟨k, rfl⟩ := Triplet.exists_index_of_mem hv
        obtain ⟨hk0, hk1⟩ := (Triplet.index_mem_elems_iff (h1 j)).mp hv
        rw [itemImage_cons_both hci.both.1 hci.both.2.1] at hO0
        obtain ⟨hOi, hO0'⟩ := List.forall₂_cons.mp hO0
        obtain ⟨ks, hks, rfl⟩ := hrest.mp ⟨hx', hO1', hO0'⟩
        have hk1' : k ≤ (t0 i).last := by
          have hext := hci.both.2.2
          unfold Triplet.extent at hext
          omega
        exact ⟨k :: ks, ⟨k, ks, ⟨⟨hk0, hk1', hOi⟩, hk0, hk1, hOv⟩, hks, rfl⟩,
          by rw [rightsAt_cons]; rfl⟩
      · rintro ⟨_, ⟨k, ks, ⟨⟨hk0, -, hOi⟩, -, hk1, hO⟩, hks, rfl⟩, rfl⟩
        obtain ⟨hx, hO1, hO0⟩ := hrest.mpr ⟨ks, hks, rfl⟩
        have hcons : rightsAt (fun j => (t1 j).index) (.both i j :: items) (k :: ks) =
            (t1 j).index k :: rightsAt (fun j => (t1 j).index) items ks := rightsAt_cons _ _ _
        rw [hcons, itemImage_cons_both hci.both.1 hci.both.2.1]
        exact ⟨List.Forall₂.cons ((Triplet.index_mem_elems_iff (h1 j)).mpr ⟨hk0, hk1⟩) hx,
          List.Forall₂.cons hO hO1, List.Forall₂.cons hOi hO0⟩

theorem exists_positions (h1 : ∀ j, 0 ≤ (t1 j).st) {items : List (Item I J)}
    (hc : ∀ item ∈ items, Conforms t0 t1 item) {x : List ℤ}
    (hx : List.Forall₂ (fun j v => v ∈ (t1 j).rsd.elems) (rights items) x) :
    ∃ ks, List.Forall₂ (fun item k => k ∈ itemPositions (positionsOf t0 fun _ _ => True)
        (positionsOf t1 fun _ _ => True) item) items ks ∧
      x = rightsAt (fun j => (t1 j).index) items ks := by
  induction items generalizing x with
  | nil =>
    cases hx
    exact ⟨[], List.Forall₂.nil, rfl⟩
  | cons item items ih =>
    have hrest := @ih fun item' hitem => hc item' (List.mem_cons_of_mem _ hitem)
    have hci := hc item List.mem_cons_self
    cases item with
    | left i =>
      obtain ⟨ks, hks, rfl⟩ := hrest hx
      have hlast := Triplet.last_scalar hci.left
      refine ⟨0 :: ks, List.Forall₂.cons ⟨le_rfl, hlast.ge, trivial⟩ hks, ?_⟩
      rw [rightsAt_cons]
      rfl
    | right j =>
      obtain ⟨v, x', hv, hx', rfl⟩ := List.forall₂_cons_left_iff.mp hx
      obtain ⟨ks, hks, rfl⟩ := hrest hx'
      obtain ⟨k, rfl⟩ := Triplet.exists_index_of_mem hv
      obtain ⟨hk0, hk1⟩ := (Triplet.index_mem_elems_iff (h1 j)).mp hv
      refine ⟨k :: ks, List.Forall₂.cons ⟨hk0, hk1, trivial⟩ hks, ?_⟩
      rw [rightsAt_cons]
      rfl
    | both i j =>
      obtain ⟨v, x', hv, hx', rfl⟩ := List.forall₂_cons_left_iff.mp hx
      obtain ⟨ks, hks, rfl⟩ := hrest hx'
      obtain ⟨k, rfl⟩ := Triplet.exists_index_of_mem hv
      obtain ⟨hk0, hk1⟩ := (Triplet.index_mem_elems_iff (h1 j)).mp hv
      have hk1' : k ≤ (t0 i).last := by
        have hext := hci.both.2.2
        unfold Triplet.extent at hext
        omega
      refine ⟨k :: ks, List.Forall₂.cons ⟨⟨hk0, hk1', trivial⟩, hk0, hk1, trivial⟩ hks, ?_⟩
      rw [rightsAt_cons]
      rfl

end Tuples

/-! ## Rows that list positions -/

section Rows

variable {I J : Type} {t0 : I → Triplet} {t1 : J → Triplet} {K0 : I → Csd} {K1 : J → Csd}

/-- One dimension of a row lists the positions `P`. -/
structure Listed (t : Triplet) (P : Set ℤ) (dim : List (ℤ × ℤ)) : Prop where
  le : ∀ c ∈ dim, c.1 ≤ c.2
  ne_nil : commElems dim ≠ []
  eq : (∀ k ∈ P, 0 ≤ k ∧ k ≤ t.last) → commElems dim = (positionList t.last P).map t.index
  past : ∀ k ∈ P, t.last < k → t.index k ∈ commElems dim

/-- The row of the right side lists the positions of its aligned dimensions. -/
def ListsRow (t1 : J → Triplet) (P : Item I J → Set ℤ) (items : List (Item I J))
    (row : List (List (ℤ × ℤ))) : Prop :=
  ∃ dim : Item I J → J → List (ℤ × ℤ),
    row = items.filterMap (fun item => item.right?.map (dim item)) ∧
      ∀ item ∈ items, ∀ j, item.right? = some j → Listed (t1 j) (P item) (dim item j)

theorem listsRow_commRow (h0 : PositionSide t0 K0) (h1 : PositionSide t1 K1)
    {items : List (Item I J)} (hc : ∀ item ∈ items, Conforms t0 t1 item)
    (hint : ∀ item ∈ items, ItemInInt t0 t1 K0 K1 item)
    (hne : ∀ c ∈ commRow t1 K0 K1 items, c.comps ≠ []) :
    ListsRow t1 (itemPositions (fun i => (K0 i).elems) fun j => (K1 j).elems) items
      ((commRow t1 K0 K1 items).map fun c => csd2commSet (some c)) := by
  refine ⟨fun item j => csd2commSet (some (commCsdOf t1 K0 K1 item j)), ?_, ?_⟩
  · rw [commRow, List.map_filterMap]
    refine List.filterMap_congr fun item _ => ?_
    cases item.right? <;> rfl
  · intro item hitem j hj
    have hsec := isCommSection_commCsdOf h0 h1 (hc item hitem) (hint item hitem) hj
    have hmem : commCsdOf t1 K0 K1 item j ∈ commRow t1 K0 K1 items :=
      List.mem_filterMap.mpr ⟨item, hitem, by rw [hj]; rfl⟩
    exact ⟨le_of_mem_csd2commSet, hsec.commElems_ne_nil (hne _ hmem),
      hsec.commElems_eq (Triplet.rsd_pos (h1.stride j)), fun k => hsec.past_mem⟩

/-- What is known of the positions that the runtime reaches. -/
structure Reached (t : I → Triplet) (R : I → Set ℤ) : Prop where
  stride : ∀ i, 0 ≤ (t i).st
  nonneg : ∀ i, ∀ k ∈ R i, 0 ≤ k
  last : ∀ i, (R i).Nonempty → 0 ≤ (t i).last
  point : ∀ i, (t i).st = 0 → ∀ k ∈ R i, k = 0

/-- The elements at these positions keep within a distance `width` of the start of the
reference. -/
def KeepsWithin (t : I → Triplet) (width : I → ℤ) (R : I → Set ℤ) : Prop :=
  ∀ i, ∀ k ∈ R i, k * (t i).rsd.s ≤ width i

/-- `K` describes the positions `R` of the reference `t`. -/
structure RefDim (t : Triplet) (period : ℤ) (R : Set ℤ) (K : Csd) : Prop where
  shape : ∃ L U, PositionShape t.last L U K
  apart : ClassesApart period t.rsd.s K
  elems : K.elems = R
  stride : ∀ r ∈ K.rsds, r.s ≤ period

/-- The row of `owner_ref_csd` for a rank: no descriptors if a dimension has no positions. -/
inductive SideRow (t : I → Triplet) (period : I → ℤ) (R : I → Set ℤ) (is : List I)
    (row : List (Option Csd)) : Prop
  | vacant (hR : ∃ i, R i = ∅) (hrow : row = is.map fun _ => none)
  | occupied (K : I → Csd) (hR : ∀ i, (R i).Nonempty)
      (hK : ∀ i, RefDim (t i) (period i) (R i) (K i))
      (hrow : row = is.map fun i => some ((t i).scale (K i)))

variable {width0 period0 : I → ℤ} {width1 period1 : J → ℤ} {R0 : I → Set ℤ} {R1 : J → Set ℤ}

theorem Reached.positionSide (h : Reached t0 R0) (hR : ∀ i, (R0 i).Nonempty)
    (hK : ∀ i, RefDim (t0 i) (period0 i) (R0 i) (K0 i)) : PositionSide t0 K0 where
  stride := h.stride
  last i := h.last i (hR i)
  shape i := (hK i).shape
  point i hst k hk := h.point i hst k ((hK i).elems ▸ hk)

theorem Reached.spans (h : Reached t0 R0) (hw : KeepsWithin t0 width0 R0) {i : I} {K : Csd}
    (hK : RefDim (t0 i) (period0 i) (R0 i) K) :
    K.Spans (width0 i) (period0 i) (t0 i).rsd.s := by
  obtain ⟨L, U, hshape⟩ := hK.shape
  have hmem : ∀ r ∈ K.rsds, ∀ k ∈ r.elems, k ∈ R0 i := fun r hr k hk => hK.elems ▸ ⟨r, hr, hk⟩
  refine ⟨fun r hr => ?_, fun r hr => ?_, hK.stride⟩
  · exact h.nonneg i _ (hmem r hr _ (left_mem_strided (hshape.wf.comp r hr).le))
  · refine hw i _ (hmem r hr _ ?_)
    rcases hshape.comp r hr with hfull | ⟨-, hpoint⟩
    · exact Rsd.right_mem_elems hfull.wf hfull.normal
    · exact hpoint ▸ left_mem_strided (hshape.wf.comp r hr).le

/-- No `int` leaves its range when the sections of the reference `t0` are carried over to `t1`
and meet the sections there. -/
structure CarryInInt (t0 t1 : Triplet) (width0 period0 width1 period1 : ℤ) : Prop where
  distance : InInt (width0 * t1.st)
  stride : InInt (period0 * t0.st * t1.st)
  meet : MeetInInt t1.lb t1.st (width0 * t1.st) period0 width1 period1

instance (t0 t1 : Triplet) (width0 period0 width1 period1 : ℤ) :
    Decidable (CarryInInt t0 t1 width0 period0 width1 period1) :=
  decidable_of_iff (InInt (width0 * t1.st) ∧ InInt (period0 * t0.st * t1.st) ∧
    MeetInInt t1.lb t1.st (width0 * t1.st) period0 width1 period1)
    ⟨fun ⟨h1, h2, h3⟩ => ⟨h1, h2, h3⟩, fun ⟨h1, h2, h3⟩ => ⟨h1, h2, h3⟩⟩

/-- The range of `int` for an aligned dimension. -/
def ItemCarries (t0 : I → Triplet) (t1 : J → Triplet) (width0 period0 : I → ℤ)
    (width1 period1 : J → ℤ) : Item I J → Prop
  | .left _ => True
  | .right j => MeetInInt (t1 j).rsd.l (t1 j).rsd.s 0 1 (width1 j) (period1 j)
  | .both i j => CarryInInt (t0 i) (t1 j) (width0 i) (period0 i) (width1 j) (period1 j)

theorem pointCsd_spans (st : ℤ) : pointCsd.Spans 0 1 st := by
  have hrsds : ∀ r ∈ pointCsd.rsds, r = ⟨0, 0, 1⟩ := by simp [pointCsd, Csd.rsds]
  refine ⟨fun r hr => ?_, fun r hr => ?_, fun r hr => ?_⟩ <;> rw [hrsds r hr]
  rw [zero_mul]

/-- Sections keep their positions when they are carried over to another stride. -/
theorem Csd.Spans.carry {K : Csd} {width period st0 st1 : ℤ} (h : K.Spans width period st0)
    (hwf : K.WF) (h0 : 0 < st0) (h1 : 0 < st1) : K.Spans (width * st1) period st1 := by
  refine ⟨h.start, fun r hr => ?_, h.stride⟩
  have hu : 0 ≤ r.u := (h.start r hr).trans (hwf.comp r hr).le
  calc r.u * st1 ≤ r.u * st0 * st1 :=
        mul_le_mul_of_nonneg_right (le_mul_of_one_le_right hu h0) h1.le
    _ ≤ width * st1 := mul_le_mul_of_nonneg_right (h.width r hr) h1.le

theorem itemInInt_of_carries (hr0 : Reached t0 R0) (hr1 : Reached t1 R1)
    (hw0 : KeepsWithin t0 width0 R0) (hw1 : KeepsWithin t1 width1 R1) (hR0 : ∀ i, (R0 i).Nonempty)
    (h0 : ∀ i, RefDim (t0 i) (period0 i) (R0 i) (K0 i))
    (h1 : ∀ j, RefDim (t1 j) (period1 j) (R1 j) (K1 j)) {item : Item I J}
    (hc : Conforms t0 t1 item) (h : ItemCarries t0 t1 width0 period0 width1 period1 item) :
    ItemInInt t0 t1 K0 K1 item := by
  cases item with
  | left i => trivial
  | right j =>
    obtain ⟨L1, U1, hs1⟩ := (h1 j).shape
    exact MeetInInt.fitsWith (Triplet.rsd_pos (hr1.stride j)) h pointCsd_shape.wf hs1.wf
      (pointCsd_spans _) (hr1.spans hw1 (h1 j))
  | both i j =>
    obtain ⟨hne0, hne1, -⟩ := hc.both
    obtain ⟨L0, U0, hs0⟩ := (h0 i).shape
    obtain ⟨L1, U1, hs1⟩ := (h1 j).shape
    have hst0 : 0 < (t0 i).st := lt_of_le_of_ne (hr0.stride i) (Ne.symm hne0)
    have hst1 : 0 < (t1 j).st := lt_of_le_of_ne (hr1.stride j) (Ne.symm hne1)
    have hspan0 := hr0.spans hw0 (h0 i)
    have hspan1 := hr1.spans hw1 (h1 j)
    rw [Triplet.rsd_of_ne hne0] at hspan0
    rw [Triplet.rsd_of_ne hne1] at hspan1
    have hcomps : (K0 i).comps ≠ [] := by
      intro hnil
      obtain ⟨k, hk⟩ := hR0 i
      rw [← (h0 i).elems] at hk
      simp [Csd.elems, Csd.rsds, hnil] at hk
    refine ⟨hspan0.rescaleInInt hs0.wf hcomps hst0 hst1 h.distance h.stride, ?_⟩
    rw [Triplet.scale, Triplet.scale, Triplet.rsd_of_ne hne1]
    exact h.meet.fitsWith hst1 hs0.wf hs1.wf (hspan0.carry hs0.wf hst0 hst1) hspan1

/-- The number of pairs of classes with a common position is at most the larger number of
classes. -/
def ItemFits (t0 : I → Triplet) (t1 : J → Triplet) (period0 : I → ℤ) (period1 : J → ℤ)
    (R0 : I → Set ℤ) (R1 : J → Set ℤ) : Item I J → Prop
  | .both i j => classPairCount (period0 i) (t0 i).rsd.s (period1 j) (t1 j).rsd.s (R0 i) (R1 j) ≤
      max (classCount (period0 i) (t0 i).rsd.s (R0 i)) (classCount (period1 j) (t1 j).rsd.s (R1 j))
  | .left _ | .right _ => True

theorem fits_iff (h0 : ∀ i, RefDim (t0 i) (period0 i) (R0 i) (K0 i))
    (h1 : ∀ j, RefDim (t1 j) (period1 j) (R1 j) (K1 j)) (item : Item I J) :
    Fits K0 K1 item ↔ ItemFits t0 t1 period0 period1 R0 R1 item := by
  cases item with
  | left i => exact Iff.rfl
  | right j => exact Iff.rfl
  | both i j =>
    obtain ⟨L0, U0, hs0⟩ := (h0 i).shape
    obtain ⟨L1, U1, hs1⟩ := (h1 j).shape
    rw [Fits, ItemFits, (h0 i).apart.meetCount_eq (h1 j).apart hs0 hs1, (h0 i).apart.n_eq hs0,
      (h1 j).apart.n_eq hs1, (h0 i).elems, (h1 j).elems]

def Vacant (R0 : I → Set ℤ) (R1 : J → Set ℤ) : Prop := (∃ i, R0 i = ∅) ∨ ∃ j, R1 j = ∅

/-- What `get_comm_list` returns, in terms of the positions. -/
structure CommOutcome (t0 : I → Triplet) (t1 : J → Triplet) (period0 : I → ℤ) (period1 : J → ℤ)
    (R0 : I → Set ℤ) (R1 : J → Set ℤ) (items : List (Item I J))
    (out : Except String (List (List (ℤ × ℤ)))) : Prop where
  vacant : Vacant R0 R1 → out = .ok (List.replicate (rights items).length [])
  overflow : ¬ Vacant R0 R1 →
    (¬ ∀ item ∈ items, ItemFits t0 t1 period0 period1 R0 R1 item) → ∃ e, out = .error e
  apart : ¬ Vacant R0 R1 → (∀ item ∈ items, ItemFits t0 t1 period0 period1 R0 R1 item) →
    (¬ ∀ item ∈ items, (itemPositions R0 R1 item).Nonempty) →
      out = .ok (List.replicate (rights items).length [])
  live : ¬ Vacant R0 R1 → (∀ item ∈ items, ItemFits t0 t1 period0 period1 R0 R1 item) →
    (∀ item ∈ items, (itemPositions R0 R1 item).Nonempty) →
      ∃ row, out = .ok row ∧ ListsRow t1 (itemPositions R0 R1) items row

theorem length_commRow (items : List (Item I J)) :
    (commRow t1 K0 K1 items).length = (rights items).length := by
  induction items with
  | nil => rfl
  | cons item items ih =>
    rw [commRow_cons, List.length_append, ih]
    cases item <;> simp [Item.right?, add_comm]

theorem Vacant.of_side {is : List I} {row : List (Option Csd)} (hv : ∃ i, R0 i = ∅)
    (h : SideRow t0 period0 R0 is row) : row = is.map fun _ => none := by
  cases h with
  | vacant _ hrow => exact hrow
  | occupied K hR _ _ =>
    obtain ⟨i, hi⟩ := hv
    exact absurd hi (hR i).ne_empty

theorem commOutcome_of_vacant {items : List (Item I J)} (hc : ∀ item ∈ items, Conforms t0 t1 item)
    (hl : lefts items ≠ []) (hr : rights items ≠ []) {row0 row1 : List (Option Csd)}
    (h0 : SideRow t0 period0 R0 (lefts items) row0) (h1 : SideRow t1 period1 R1 (rights items) row1)
    (hv : Vacant R0 R1) :
    getCommList (((lefts items).map t0).zip row0) (((rights items).map t1).zip row1) =
      .ok (List.replicate (rights items).length []) := by
  cases h0 with
  | vacant _ hrow0 =>
    rw [hrow0, List.zip_map']
    cases h1 with
    | vacant _ hrow1 =>
      rw [hrow1, List.zip_map']
      exact getCommList_of_none (Or.inl fun _ => rfl) hc hl hr
    | occupied K1 _ _ hrow1 =>
      rw [hrow1, List.zip_map']
      exact getCommList_of_none (Or.inl fun _ => rfl) hc hl hr
  | occupied K0 hR0 _ hrow0 =>
    have hv1 : ∃ j, R1 j = ∅ := hv.resolve_left fun ⟨i, hi⟩ => (hR0 i).ne_empty hi
    rw [hrow0, Vacant.of_side hv1 h1, List.zip_map', List.zip_map']
    exact getCommList_of_none (Or.inr ⟨fun _ => Option.some_ne_none _, fun _ => rfl⟩) hc hl hr

theorem commOutcome_getCommList (hr0 : Reached t0 R0) (hr1 : Reached t1 R1)
    (hw0 : KeepsWithin t0 width0 R0) (hw1 : KeepsWithin t1 width1 R1)
    {items : List (Item I J)} (hc : ∀ item ∈ items, Conforms t0 t1 item)
    (hrange : ∀ item ∈ items, ItemCarries t0 t1 width0 period0 width1 period1 item)
    (hl : lefts items ≠ [])
    (hr : rights items ≠ []) {row0 row1 : List (Option Csd)}
    (h0 : SideRow t0 period0 R0 (lefts items) row0)
    (h1 : SideRow t1 period1 R1 (rights items) row1) :
    CommOutcome t0 t1 period0 period1 R0 R1 items
      (getCommList (((lefts items).map t0).zip row0) (((rights items).map t1).zip row1)) := by
  have hvac := commOutcome_of_vacant hc hl hr h0 h1
  by_cases hv : Vacant R0 R1
  · exact ⟨hvac, fun hn => absurd hv hn, fun hn => absurd hv hn, fun hn => absurd hv hn⟩
  · cases h0 with
    | vacant hR0 _ => exact absurd (Or.inl hR0) hv
    | occupied K0 hR0 hK0 hrow0 =>
      cases h1 with
      | vacant hR1 _ => exact absurd (Or.inr hR1) hv
      | occupied K1 hR1 hK1 hrow1 =>
        have hs0 := hr0.positionSide hR0 hK0
        have hs1 := hr1.positionSide hR1 hK1
        have hint : ∀ item ∈ items, ItemInInt t0 t1 K0 K1 item := fun item hitem =>
          itemInInt_of_carries hr0 hr1 hw0 hw1 hR0 hK0 hK1 (hc item hitem) (hrange item hitem)
        have helems : itemPositions (fun i => (K0 i).elems) (fun j => (K1 j).elems) =
            itemPositions R0 R1 := by
          rw [show (fun i => (K0 i).elems) = R0 from funext fun i => (hK0 i).elems,
            show (fun j => (K1 j).elems) = R1 from funext fun j => (hK1 j).elems]
        have hfits : (∀ item ∈ items, Fits K0 K1 item) ↔
            ∀ item ∈ items, ItemFits t0 t1 period0 period1 R0 R1 item :=
          forall₂_congr fun item _ => fits_iff hK0 hK1 item
        -- A dimension of the left side alone always has positions here.
        have hlive : (∀ c ∈ commRow t1 K0 K1 items, c.comps ≠ []) ↔
            ∀ item ∈ items, (itemPositions R0 R1 item).Nonempty := by
          constructor
          · intro hne item hitem
            cases hj : item.right? with
            | none =>
              cases item with
              | left i => exact hR0 i
              | right j => cases hj
              | both i j => cases hj
            | some j =>
              have hsec := isCommSection_commCsdOf hs0 hs1 (hc item hitem) (hint item hitem) hj
              rw [helems] at hsec
              have := hne _ (List.mem_filterMap.mpr ⟨item, hitem, by rw [hj]; rfl⟩)
              rw [ne_eq, hsec.nil_iff] at this
              push Not at this
              exact this
          · intro hne c hmem hnil
            obtain ⟨item, hitem, hmap⟩ := List.mem_filterMap.mp hmem
            obtain ⟨j, hj, rfl⟩ := Option.map_eq_some_iff.mp hmap
            have hsec := isCommSection_commCsdOf hs0 hs1 (hc item hitem) (hint item hitem) hj
            rw [helems] at hsec
            obtain ⟨k, hk⟩ := hne item hitem
            exact hsec.nil_iff.mp hnil k hk
        have hzip0 : ((lefts items).map t0).zip row0 = rowDims t0 K0 (lefts items) := by
          rw [hrow0, List.zip_map']
          rfl
        have hzip1 : ((rights items).map t1).zip row1 = rowDims t1 K1 (rights items) := by
          rw [hrow1, List.zip_map']
          rfl
        rw [hzip0, hzip1]
        refine ⟨fun h => absurd h hv, fun _ hnot => ?_, fun _ hfit hdead => ?_,
          fun _ hfit hne => ?_⟩
        · exact getCommList_of_not_fits hs0 hs1 hc hint fun h => hnot (hfits.mp h)
        · rw [getCommList_of_fits hs0 hs1 hc hint (hfits.mpr hfit),
            if_neg fun h => hdead (hlive.mp h), length_commRow]
        · refine ⟨_, getCommList_of_fits hs0 hs1 hc hint (hfits.mpr hfit), ?_⟩
          have hne' := hlive.mpr hne
          rw [if_pos hne', ← helems]
          exact listsRow_commRow hs0 hs1 hc hint hne'

end Rows

/-! ## Both directions -/

section Agreement

variable {I J : Type} {t0 : I → Triplet} {t1 : J → Triplet} {period0 : I → ℤ} {period1 : J → ℤ}
variable {R0 : I → Set ℤ} {R1 : J → Set ℤ} {O0 : I → ℤ → Prop} {O1 : J → ℤ → Prop}
variable {items : List (Item I J)}

theorem itemPositions_swap (item : Item I J) :
    itemPositions R1 R0 item.swap = itemPositions R0 R1 item := by
  cases item with
  | left i => rfl
  | right j => rfl
  | both i j => exact Set.inter_comm _ _

theorem conforms_swap {item : Item I J} (h : Conforms t0 t1 item) : Conforms t1 t0 item.swap := by
  cases item with
  | left i => exact h
  | right j => exact h
  | both i j => exact ⟨h.both.2.1, h.both.1, h.both.2.2.symm⟩

theorem classPairCount_comm (p0 s0 p1 s1 : ℤ) (P Q : Set ℤ) :
    classPairCount p0 s0 p1 s1 P Q = classPairCount p1 s1 p0 s0 Q P := by
  unfold classPairCount
  rw [← Set.ncard_image_of_injective _ Prod.swap_injective, Set.image_image, Set.inter_comm]
  rfl

theorem itemFits_swap (item : Item I J) : ItemFits t1 t0 period1 period0 R1 R0 item.swap ↔
    ItemFits t0 t1 period0 period1 R0 R1 item := by
  cases item with
  | left i => exact Iff.rfl
  | right j => exact Iff.rfl
  | both i j =>
    simp only [Item.swap, ItemFits]
    rw [classPairCount_comm, max_comm]

theorem vacant_comm : Vacant R1 R0 ↔ Vacant R0 R1 := or_comm

theorem forall_swap_iff {Q : Item J I → Prop} :
    (∀ item ∈ items.map Item.swap, Q item) ↔ ∀ item ∈ items, Q item.swap := by
  simp

/-- The rows of a sender for a receiver and of the receiver for the sender match: equal
counts, the same elements in the same order, and exactly the elements to be moved. -/
structure Agrees (t0 : I → Triplet) (t1 : J → Triplet) (O0 : I → ℤ → Prop) (O1 : J → ℤ → Prop)
    (items : List (Item I J)) (send recv : List (List (ℤ × ℤ))) : Prop where
  count : commbufCount send = commbufCount recv
  order : packCommSet recv = (packCommSet send).map (itemImage t0 t1 items)
  orderF : packCommSetF recv = (packCommSetF send).map (itemImage t0 t1 items)
  mem_iff : ∀ x, x ∈ packCommSet send ↔
    List.Forall₂ (fun j v => v ∈ (t1 j).rsd.elems) (rights items) x ∧
      List.Forall₂ O1 (rights items) x ∧ List.Forall₂ O0 (lefts items) (itemImage t0 t1 items x)

theorem nonempty_of_forall₂ {P : Item I J → Set ℤ} {ks : List ℤ}
    (h : List.Forall₂ (fun item k => k ∈ P item) items ks) {item : Item I J}
    (hitem : item ∈ items) :
    (P item).Nonempty := by
  induction h with
  | nil => cases hitem
  | @cons item' k items ks hk _ ih =>
    rcases List.mem_cons.mp hitem with rfl | hitem
    · exact ⟨k, hk⟩
    · exact ih hitem

theorem agrees_replicate (hr1 : ∀ j, 0 ≤ (t1 j).st) (hc : ∀ item ∈ items, Conforms t0 t1 item)
    (hl : lefts items ≠ []) (hr : rights items ≠ [])
    (hno : ∃ item ∈ items, itemPositions (positionsOf t0 O0) (positionsOf t1 O1) item = ∅) :
    Agrees t0 t1 O0 O1 items (List.replicate (rights items).length [])
      (List.replicate (lefts items).length []) := by
  obtain ⟨hs, hsF⟩ := packCommSet_replicate (List.length_eq_zero_iff.not.mpr hr)
  obtain ⟨hv, hvF⟩ := packCommSet_replicate (List.length_eq_zero_iff.not.mpr hl)
  refine ⟨?_, by rw [hv, hs]; rfl, by rw [hvF, hsF]; rfl, fun x => ?_⟩
  · rw [commbufCount_eq (by simp), commbufCount_eq (by simp), hs, hv]
  · rw [hs, owned_iff_positions hr1 hc]
    constructor
    · intro hx
      cases hx
    · rintro ⟨ks, hks, -⟩
      obtain ⟨item, hitem, hempty⟩ := hno
      obtain ⟨k, hk⟩ := nonempty_of_forall₂ hks hitem
      rw [hempty] at hk
      exact hk.elim

noncomputable def itemChoices (t0 : I → Triplet) (t1 : J → Triplet) (P : Item I J → Set ℤ) :
    Item I J → List ℤ
  | .left i => positionList (t0 i).last (P (.left i))
  | .right j => positionList (t1 j).last (P (.right j))
  | .both i j => positionList (t1 j).last (P (.both i j))

theorem ListsRow.map_commElems {P : Item I J → Set ℤ} {row : List (List (ℤ × ℤ))}
    (h : ListsRow t1 P items row)
    (hP : ∀ item ∈ items, ∀ j, item.right? = some j → ∀ k ∈ P item, 0 ≤ k ∧ k ≤ (t1 j).last) :
    row.map commElems = rightRows (fun j => (t1 j).index) (itemChoices t0 t1 P) items := by
  obtain ⟨dim, rfl, hdim⟩ := h
  rw [List.map_filterMap, rightRows]
  refine List.filterMap_congr fun item hitem => ?_
  cases hj : item.right? with
  | none => rfl
  | some j =>
    have heq := (hdim item hitem j hj).eq (hP item hitem j hj)
    simp only [Option.map_some, heq]
    cases item with
    | left i => cases hj
    | right j' =>
      cases hj
      rfl
    | both i j' =>
      cases hj
      rfl

theorem ListsRow.forall_of_packCommSet {P : Item I J → Set ℤ} {row : List (List (ℤ × ℤ))}
    {dim : Item I J → J → List (ℤ × ℤ)}
    (hrow : row = items.filterMap (fun item => item.right?.map (dim item)))
    (hdim : ∀ item ∈ items, ∀ j, item.right? = some j → Listed (t1 j) (P item) (dim item j))
    {Q : J → ℤ → Prop} (h : ∀ x ∈ packCommSet row, List.Forall₂ Q (rights items) x) :
    ∀ item ∈ items, ∀ j, item.right? = some j → ∀ v ∈ commElems (dim item j), Q j v := by
  have hmap : row.map commElems =
      items.filterMap fun item => item.right?.map fun j => commElems (dim item j) := by
    rw [hrow, List.map_filterMap]
    refine List.filterMap_congr fun item _ => ?_
    cases item.right? <;> rfl
  rw [packCommSet, hmap] at h
  have hlen : (rights items).length =
      (items.filterMap fun item => item.right?.map fun j => commElems (dim item j)).length := by
    exact ((@forall₂_rights_iff _ _ _ _ (fun _ _ => True) _).mpr fun _ _ _ _ => trivial).length_eq
  refine forall₂_rights_iff.mp (forall₂_of_lastFastest hlen ?_ h)
  intro l hl
  obtain ⟨item, hitem, hmap⟩ := List.mem_filterMap.mp hl
  obtain ⟨j, hj, rfl⟩ := Option.map_eq_some_iff.mp hmap
  exact (hdim item hitem j hj).ne_nil

theorem forall₂_congr_of_mem {α β : Type} {Q Q' : α → β → Prop} {l : List α} {m : List β}
    (h : ∀ a ∈ l, ∀ b, Q a b ↔ Q' a b) : List.Forall₂ Q l m ↔ List.Forall₂ Q' l m := by
  have hmem : ∀ {S : α → β → Prop}, List.Forall₂ S l m ↔
      List.Forall₂ (fun a b => a ∈ l ∧ S a b) l m := fun {S} => by
    rw [List.forall₂_and_left]
    exact (and_iff_right fun _ ha => ha).symm
  rw [@hmem Q, @hmem Q']
  constructor
  · exact List.Forall₂.imp fun a b hab => ⟨hab.1, (h a hab.1 b).mp hab.2⟩
  · exact List.Forall₂.imp fun a b hab => ⟨hab.1, (h a hab.1 b).mpr hab.2⟩

theorem positionList_zero {P : Set ℤ} (h : (0 : ℤ) ∈ P) : positionList 0 P = [0] := by
  rw [positionList, loopValues_singleton]
  simp [h]

theorem mem_choices_iff {choices : Item I J → List ℤ} {ks : List ℤ} :
    List.Forall₂ (fun k l => k ∈ l) ks (items.map choices) ↔
      List.Forall₂ (fun item k => k ∈ choices item) items ks := by
  rw [List.forall₂_map_right_iff]
  exact ⟨List.Forall₂.flip, List.Forall₂.flip⟩

structure LiveRows (t0 : I → Triplet) (t1 : J → Triplet) (R0 : I → Set ℤ) (R1 : J → Set ℤ)
    (items : List (Item I J)) (send recv : List (List (ℤ × ℤ))) : Prop where
  reached0 : Reached t0 R0
  reached1 : Reached t1 R1
  conforms : ∀ item ∈ items, Conforms t0 t1 item
  nonempty : ∀ item ∈ items, (itemPositions R0 R1 item).Nonempty
  send : ListsRow t1 (itemPositions R0 R1) items send
  recv : ListsRow t0 (itemPositions R1 R0) (items.map Item.swap) recv

namespace LiveRows

variable {send recv : List (List (ℤ × ℤ))}

theorem last_eq (h : LiveRows t0 t1 R0 R1 items send recv) {i : I} {j : J}
    (hitem : .both i j ∈ items) : (t0 i).last = (t1 j).last := by
  obtain ⟨k, hk0, hk1⟩ := h.nonempty _ hitem
  exact (h.conforms _ hitem).last_eq (h.reached0.last i ⟨k, hk0⟩) (h.reached1.last j ⟨k, hk1⟩)

theorem choices_swap (h : LiveRows t0 t1 R0 R1 items send recv) {item : Item I J}
    (hitem : item ∈ items) : itemChoices t1 t0 (itemPositions R1 R0) item.swap =
      itemChoices t0 t1 (itemPositions R0 R1) item := by
  cases item with
  | left i => rfl
  | right j => rfl
  | both i j =>
    simp only [Item.swap, itemChoices, itemPositions]
    rw [h.last_eq hitem, Set.inter_comm]

theorem choices_left (h : LiveRows t0 t1 R0 R1 items send recv) {item : Item I J}
    (hitem : item ∈ items) (hnone : item.right? = none) :
    itemChoices t0 t1 (itemPositions R0 R1) item = [0] := by
  cases item with
  | left i =>
    have hst := (h.conforms _ hitem).left
    obtain ⟨k, hk⟩ := h.nonempty _ hitem
    obtain rfl := h.reached0.point i hst k hk
    rw [itemChoices, Triplet.last_scalar hst]
    exact positionList_zero hk
  | right j => cases hnone
  | both i j => cases hnone

theorem swap (h : LiveRows t0 t1 R0 R1 items send recv) :
    LiveRows t1 t0 R1 R0 (items.map Item.swap) recv send where
  reached0 := h.reached1
  reached1 := h.reached0
  conforms := forall_swap_iff.mpr fun item hitem => conforms_swap (h.conforms item hitem)
  nonempty := forall_swap_iff.mpr fun item hitem => by
    rw [itemPositions_swap]
    exact h.nonempty item hitem
  send := h.recv
  recv := by
    have hswap : (items.map Item.swap).map Item.swap = items := by
      rw [List.map_map]
      refine (List.map_congr_left fun item _ => ?_).trans (List.map_id items)
      cases item <;> rfl
    rw [hswap]
    exact h.send

theorem packCommSet_send (h : LiveRows t0 t1 R0 R1 items send recv)
    (hP : ∀ item ∈ items, ∀ j, item.right? = some j →
      ∀ k ∈ itemPositions R0 R1 item, 0 ≤ k ∧ k ≤ (t1 j).last) :
    packCommSet send =
        (lastFastest (items.map (itemChoices t0 t1 (itemPositions R0 R1)))).map
          (rightsAt (fun j => (t1 j).index) items) ∧
      packCommSetF send =
        (firstFastest (items.map (itemChoices t0 t1 (itemPositions R0 R1)))).map
          (rightsAt (fun j => (t1 j).index) items) := by
  have hsingle : ∀ item ∈ items, item.right? = none →
      ∃ k, itemChoices t0 t1 (itemPositions R0 R1) item = [k] := fun item hitem hnone =>
    ⟨0, h.choices_left hitem hnone⟩
  have hrows := @ListsRow.map_commElems _ _ t0 _ _ _ _ h.send hP
  rw [packCommSet, packCommSetF, hrows]
  exact ⟨lastFastest_rightRows hsingle, firstFastest_rightRows hsingle⟩

theorem packCommSet_recv (h : LiveRows t0 t1 R0 R1 items send recv)
    (hP : ∀ item ∈ items, ∀ i, item.swap.right? = some i →
      ∀ k ∈ itemPositions R0 R1 item, 0 ≤ k ∧ k ≤ (t0 i).last) :
    packCommSet recv =
        (lastFastest (items.map (itemChoices t0 t1 (itemPositions R0 R1)))).map
          (leftsAt (fun i => (t0 i).index) items) ∧
      packCommSetF recv =
        (firstFastest (items.map (itemChoices t0 t1 (itemPositions R0 R1)))).map
          (leftsAt (fun i => (t0 i).index) items) := by
  have hchoices : (items.map Item.swap).map (itemChoices t1 t0 (itemPositions R1 R0)) =
      items.map (itemChoices t0 t1 (itemPositions R0 R1)) := by
    rw [List.map_map]
    exact List.map_congr_left fun item hitem => h.choices_swap hitem
  rw [← hchoices]
  refine h.swap.packCommSet_send (forall_swap_iff.mpr fun item hitem i hi => ?_)
  rw [itemPositions_swap]
  exact hP item hitem i hi

theorem lists_le {P : Item I J → Set ℤ} {row : List (List (ℤ × ℤ))} (h : ListsRow t1 P items row) :
    ∀ dim ∈ row, ∀ c ∈ dim, c.1 ≤ c.2 := by
  obtain ⟨dim, rfl, hdim⟩ := h
  intro d hd
  obtain ⟨item, hitem, hmap⟩ := List.mem_filterMap.mp hd
  obtain ⟨j, hj, rfl⟩ := Option.map_eq_some_iff.mp hmap
  exact (hdim item hitem j hj).le

theorem agrees_of_subset (h : LiveRows t0 t1 R0 R1 items send recv)
    (hT0 : ∀ i, positionsOf t0 O0 i ⊆ R0 i) (hT1 : ∀ j, positionsOf t1 O1 j ⊆ R1 j)
    (hsub : ∀ item ∈ items, itemPositions R0 R1 item ⊆
      itemPositions (positionsOf t0 O0) (positionsOf t1 O1) item) :
    Agrees t0 t1 O0 O1 items send recv := by
  have hbound1 : ∀ item ∈ items, ∀ j, item.right? = some j →
      ∀ k ∈ itemPositions R0 R1 item, 0 ≤ k ∧ k ≤ (t1 j).last := by
    intro item hitem j hj k hk
    have hT := hsub item hitem hk
    cases item with
    | left i => cases hj
    | right j' =>
      cases hj
      exact ⟨hT.1, hT.2.1⟩
    | both i j' =>
      cases hj
      exact ⟨hT.2.1, hT.2.2.1⟩
  have hbound0 : ∀ item ∈ items, ∀ i, item.swap.right? = some i →
      ∀ k ∈ itemPositions R0 R1 item, 0 ≤ k ∧ k ≤ (t0 i).last := by
    intro item hitem i hi k hk
    have hT := hsub item hitem hk
    cases item with
    | left i' =>
      cases hi
      exact ⟨hT.1, hT.2.1⟩
    | right j => cases hi
    | both i' j =>
      cases hi
      exact ⟨hT.1.1, hT.1.2.1⟩
  obtain ⟨hsend, hsendF⟩ := h.packCommSet_send hbound1
  obtain ⟨hrecv, hrecvF⟩ := h.packCommSet_recv hbound0
  -- Positions chosen for the aligned dimensions are the owned ones.
  have hchoices : ∀ item ∈ items, ∀ k, k ∈ itemChoices t0 t1 (itemPositions R0 R1) item ↔
      k ∈ itemPositions (positionsOf t0 O0) (positionsOf t1 O1) item := by
    intro item hitem k
    cases item with
    | left i =>
      rw [itemChoices, mem_positionList (hbound0 _ hitem i rfl)]
      exact ⟨fun hk => hsub _ hitem hk, fun hk => hT0 i hk⟩
    | right j =>
      rw [itemChoices, mem_positionList (hbound1 _ hitem j rfl)]
      exact ⟨fun hk => hsub _ hitem hk, fun hk => hT1 j hk⟩
    | both i j =>
      rw [itemChoices, mem_positionList (hbound1 _ hitem j rfl)]
      exact ⟨fun hk => hsub _ hitem hk, fun hk => ⟨hT0 i hk.1, hT1 j hk.2⟩⟩
  have himage : ∀ ks, List.Forall₂ (fun k l => k ∈ l) ks
      (items.map (itemChoices t0 t1 (itemPositions R0 R1))) →
      itemImage t0 t1 items (rightsAt (fun j => (t1 j).index) items ks) =
        leftsAt (fun i => (t0 i).index) items ks := by
    intro ks hks
    refine itemImage_rightsAt h.conforms ?_
    have hmem := (List.forall₂_and_left items ks).mpr
      ⟨fun item (hitem : item ∈ items) => hitem, mem_choices_iff.mp hks⟩
    refine hmem.imp fun item k hk hnone => ?_
    rw [h.choices_left hk.1 hnone] at hk
    exact List.mem_singleton.mp hk.2
  have horder : packCommSet recv = (packCommSet send).map (itemImage t0 t1 items) := by
    rw [hsend, hrecv, List.map_map]
    exact List.map_congr_left fun ks hks => (himage ks (mem_lastFastest.mp hks)).symm
  refine ⟨?_, horder, ?_, fun x => ?_⟩
  · rw [commbufCount_eq (lists_le h.send), commbufCount_eq (lists_le h.recv), horder,
      List.length_map]
  · rw [hsendF, hrecvF, List.map_map]
    exact List.map_congr_left fun ks hks => (himage ks (mem_firstFastest.mp hks)).symm
  · rw [owned_iff_positions h.reached1.stride h.conforms, hsend, List.mem_map]
    simp only [mem_lastFastest, mem_choices_iff, forall₂_congr_of_mem hchoices]
    exact exists_congr fun ks => and_congr_right fun _ => eq_comm

theorem subset_of_agrees (h : LiveRows t0 t1 R0 R1 items send recv)
    (ha : Agrees t0 t1 O0 O1 items send recv) : ∀ item ∈ items, itemPositions R0 R1 item ⊆
      itemPositions (positionsOf t0 O0) (positionsOf t1 O1) item := by
  obtain ⟨dim1, hrow1, hdim1⟩ := h.send
  obtain ⟨dim0, hrow0, hdim0⟩ := h.recv
  have hright := ListsRow.forall_of_packCommSet hrow1 hdim1
    (fun x hx => ((ha.mem_iff x).mp hx).1)
  have hown1 := ListsRow.forall_of_packCommSet hrow1 hdim1
    (fun x hx => ((ha.mem_iff x).mp hx).2.1)
  have hown0 := @ListsRow.forall_of_packCommSet _ _ _ _ _ _ _ hrow0 hdim0 O0 (by
    intro y hy
    rw [ha.order] at hy
    obtain ⟨x, hx, rfl⟩ := List.mem_map.mp hy
    rw [rights_swap]
    exact ((ha.mem_iff x).mp hx).2.2)
  rw [forall_swap_iff] at hown0 hdim0
  -- Nothing lies past the end, so the rows list all positions.
  have hbound1 : ∀ item ∈ items, ∀ j, item.right? = some j →
      ∀ k ∈ itemPositions R0 R1 item, 0 ≤ k ∧ k ≤ (t1 j).last := by
    intro item hitem j hj k hk
    by_cases hpast : (t1 j).last < k
    · have hmem := hright item hitem j hj _ ((hdim1 item hitem j hj).past k hk hpast)
      exact (Triplet.index_mem_elems_iff (h.reached1.stride j)).mp hmem
    · refine ⟨?_, not_lt.mp hpast⟩
      cases item with
      | left i => exact h.reached0.nonneg i k hk
      | right j' => exact h.reached1.nonneg j' k hk
      | both i j' => exact h.reached0.nonneg i k hk.1
  have hO1 : ∀ item ∈ items, ∀ j, item.right? = some j →
      ∀ k ∈ itemPositions R0 R1 item, O1 j ((t1 j).index k) := by
    intro item hitem j hj k hk
    refine hown1 item hitem j hj _ ?_
    rw [(hdim1 item hitem j hj).eq (hbound1 item hitem j hj)]
    exact List.mem_map_of_mem ((mem_positionList (hbound1 item hitem j hj)).mpr hk)
  have hO0 : ∀ item ∈ items, ∀ i, item.swap.right? = some i →
      (∀ k ∈ itemPositions R0 R1 item, 0 ≤ k ∧ k ≤ (t0 i).last) →
      ∀ k ∈ itemPositions R0 R1 item, O0 i ((t0 i).index k) := by
    intro item hitem i hi hbound k hk
    rw [← itemPositions_swap] at hbound hk
    refine hown0 item hitem i hi _ ?_
    rw [(hdim0 item hitem i hi).eq hbound]
    exact List.mem_map_of_mem ((mem_positionList hbound).mpr hk)
  intro item hitem k hk
  cases item with
  | left i =>
    have hbound : ∀ k ∈ R0 i, 0 ≤ k ∧ k ≤ (t0 i).last := by
      intro k hk
      have hst := (h.conforms _ hitem).left
      obtain rfl := h.reached0.point i hst k hk
      exact ⟨le_rfl, (Triplet.last_scalar hst).ge⟩
    exact ⟨(hbound k hk).1, (hbound k hk).2, hO0 _ hitem i rfl hbound k hk⟩
  | right j =>
    obtain ⟨h0, h1⟩ := hbound1 _ hitem j rfl k hk
    exact ⟨h0, h1, hO1 _ hitem j rfl k hk⟩
  | both i j =>
    have hb1 := hbound1 _ hitem j rfl
    obtain ⟨h0, h1⟩ := hb1 k hk
    have hb0 : ∀ k ∈ itemPositions R0 R1 (.both i j), 0 ≤ k ∧ k ≤ (t0 i).last := by
      rw [h.last_eq hitem]
      exact hb1
    exact ⟨⟨h0, (hb0 k hk).2, hO0 _ hitem i rfl hb0 k hk⟩, h0, h1, hO1 _ hitem j rfl k hk⟩

end LiveRows

/-- No aligned dimension has positions that only one of the sides owns, unless there is
nothing to move. -/
def Sound (t0 : I → Triplet) (t1 : J → Triplet) (period0 : I → ℤ) (period1 : J → ℤ)
    (R0 : I → Set ℤ) (R1 : J → Set ℤ) (O0 : I → ℤ → Prop) (O1 : J → ℤ → Prop)
    (items : List (Item I J)) : Prop :=
  Vacant R0 R1 ∨ (∀ item ∈ items, ItemFits t0 t1 period0 period1 R0 R1 item) ∧
    ((∃ item ∈ items, itemPositions R0 R1 item = ∅) ∨ ∀ item ∈ items, itemPositions R0 R1 item ⊆
      itemPositions (positionsOf t0 O0) (positionsOf t1 O1) item)

theorem itemPositions_mono {P0 Q0 : I → Set ℤ} {P1 Q1 : J → Set ℤ} (h0 : ∀ i, P0 i ⊆ Q0 i)
    (h1 : ∀ j, P1 j ⊆ Q1 j) (item : Item I J) :
    itemPositions P0 P1 item ⊆ itemPositions Q0 Q1 item := by
  cases item with
  | left i => exact h0 i
  | right j => exact h1 j
  | both i j => exact Set.inter_subset_inter (h0 i) (h1 j)

theorem Vacant.exists_item (hl : ∀ i, i ∈ lefts items) (hr : ∀ j, j ∈ rights items)
    (h : Vacant R0 R1) : ∃ item ∈ items, itemPositions R0 R1 item = ∅ := by
  rcases h with ⟨i, hi⟩ | ⟨j, hj⟩
  · obtain ⟨item, hitem, hleft⟩ := List.mem_filterMap.mp (hl i)
    refine ⟨item, hitem, ?_⟩
    cases item with
    | left i' =>
      cases hleft
      exact hi
    | right j => cases hleft
    | both i' j =>
      cases hleft
      rw [itemPositions, hi, Set.empty_inter]
  · obtain ⟨item, hitem, hright⟩ := List.mem_filterMap.mp (hr j)
    refine ⟨item, hitem, ?_⟩
    cases item with
    | left i => cases hright
    | right j' =>
      cases hright
      exact hj
    | both i j' =>
      cases hright
      rw [itemPositions, hj, Set.inter_empty]

theorem exists_preimage (h0 : ∀ i, 0 ≤ (t0 i).st) (h1 : ∀ j, 0 ≤ (t1 j).st)
    (hc : ∀ item ∈ items, Conforms t0 t1 item) {y : List ℤ}
    (hy : List.Forall₂ (fun i v => v ∈ (t0 i).rsd.elems) (lefts items) y) :
    ∃ x, List.Forall₂ (fun j v => v ∈ (t1 j).rsd.elems) (rights items) x ∧
      itemImage t0 t1 items x = y := by
  rw [← rights_swap] at hy
  obtain ⟨ks, hks, rfl⟩ := exists_positions h0
    (forall_swap_iff.mpr fun item hitem => conforms_swap (hc item hitem)) hy
  rw [List.forall₂_map_left_iff] at hks
  simp only [itemPositions_swap] at hks
  refine ⟨rightsAt (fun j => (t1 j).index) items ks,
    ((owned_iff_positions h1 hc).mpr ⟨ks, hks, rfl⟩).1, itemImage_rightsAt hc ?_⟩
  have hmem := (List.forall₂_and_left items ks).mpr ⟨hc, hks⟩
  refine hmem.imp fun item k hk hnone => ?_
  cases item with
  | left i =>
    obtain ⟨hci, hk0, hk1, -⟩ := hk
    rw [Triplet.last_scalar hci.left] at hk1
    omega
  | right j => cases hnone
  | both i j => cases hnone

theorem agrees_iff_sound (hr0 : Reached t0 R0) (hr1 : Reached t1 R1)
    (hT0 : ∀ i, positionsOf t0 O0 i ⊆ R0 i) (hT1 : ∀ j, positionsOf t1 O1 j ⊆ R1 j)
    (hc : ∀ item ∈ items, Conforms t0 t1 item) (hl : lefts items ≠ []) (hr : rights items ≠ [])
    (hl' : ∀ i, i ∈ lefts items) (hr' : ∀ j, j ∈ rights items)
    {outS outR : Except String (List (List (ℤ × ℤ)))}
    (hS : CommOutcome t0 t1 period0 period1 R0 R1 items outS)
    (hR : CommOutcome t1 t0 period1 period0 R1 R0 (items.map Item.swap) outR) :
    (∃ send recv, outS = .ok send ∧ outR = .ok recv ∧ Agrees t0 t1 O0 O1 items send recv) ↔
      Sound t0 t1 period0 period1 R0 R1 O0 O1 items := by
  have hfits : (∀ item ∈ items.map Item.swap, ItemFits t1 t0 period1 period0 R1 R0 item) ↔
      ∀ item ∈ items, ItemFits t0 t1 period0 period1 R0 R1 item :=
    forall_swap_iff.trans (forall₂_congr fun item _ => itemFits_swap item)
  have hne : (∀ item ∈ items.map Item.swap, (itemPositions R1 R0 item).Nonempty) ↔
      ∀ item ∈ items, (itemPositions R0 R1 item).Nonempty :=
    forall_swap_iff.trans (forall₂_congr fun item _ => by rw [itemPositions_swap])
  have hempty : (∃ item ∈ items, itemPositions R0 R1 item = ∅) →
      Agrees t0 t1 O0 O1 items (List.replicate (rights items).length [])
        (List.replicate (lefts items).length []) := by
    rintro ⟨item, hitem, hnil⟩
    refine agrees_replicate hr1.stride hc hl hr ⟨item, hitem, ?_⟩
    exact Set.subset_eq_empty (itemPositions_mono hT0 hT1 item) hnil
  unfold Sound
  by_cases hv : Vacant R0 R1
  · simp only [hv, true_or, iff_true]
    have houtR := hR.vacant (vacant_comm.mpr hv)
    rw [rights_swap] at houtR
    exact ⟨_, _, hS.vacant hv, houtR, hempty (hv.exists_item hl' hr')⟩
  · by_cases hfit : ∀ item ∈ items, ItemFits t0 t1 period0 period1 R0 R1 item
    · have hv' : ¬ Vacant R1 R0 := fun h => hv (vacant_comm.mp h)
      by_cases hlive : ∀ item ∈ items, (itemPositions R0 R1 item).Nonempty
      · obtain ⟨send, hsend, hlists⟩ := hS.live hv hfit hlive
        obtain ⟨recv, hrecv, hlists'⟩ := hR.live hv' (hfits.mpr hfit) (hne.mpr hlive)
        have hrows : LiveRows t0 t1 R0 R1 items send recv :=
          ⟨hr0, hr1, hc, hlive, hlists, hlists'⟩
        constructor
        · rintro ⟨send', recv', hs, hv, ha⟩
          rw [hsend] at hs
          rw [hrecv] at hv
          cases hs
          cases hv
          exact Or.inr ⟨hfit, Or.inr (hrows.subset_of_agrees ha)⟩
        · rintro (h | ⟨-, ⟨item, hitem, hnil⟩ | hsub⟩)
          · exact absurd h hv
          · exact absurd hnil (hlive item hitem).ne_empty
          · exact ⟨send, recv, hsend, hrecv, hrows.agrees_of_subset hT0 hT1 hsub⟩
      · have hnil : ∃ item ∈ items, itemPositions R0 R1 item = ∅ := by
          push Not at hlive
          exact hlive
        have houtR := hR.apart hv' (hfits.mpr hfit) fun h => hlive (hne.mp h)
        rw [rights_swap] at houtR
        constructor
        · intro _
          exact Or.inr ⟨hfit, Or.inl hnil⟩
        · intro _
          exact ⟨_, _, hS.apart hv hfit hlive, houtR, hempty hnil⟩
    · obtain ⟨e, he⟩ := hS.overflow hv hfit
      constructor
      · rintro ⟨send, recv, hs, -, -⟩
        rw [he] at hs
        cases hs
      · rintro (h | ⟨h, -⟩)
        · exact absurd h hv
        · exact absurd h hfit

end Agreement

end OmniCompiler.Xmp
