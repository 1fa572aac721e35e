import OmniCompiler.Xmp.GmoveRanks

/-!
# The exchange of a gmove (`_XMP_gmove_1to1`)

All ranks compute what they send and what they receive on their own. The all-to-all
exchange is right when for every pair of ranks both sides list the same elements in the same
order, and these are the elements that the sender owns and the receiver needs. Three things
can go wrong, and nothing else: the array for the common classes of two block-cyclic
dimensions is too small, a class outside the reference is found by both sides, and the end
of a block below zero is misread.
-/
namespace OmniCompiler.Xmp

open MachineInt ForLoop Progression OmniCompiler.Alignment MixedRadix SmallFin

variable {k d n kl dl nl kr dr nr : ℕ}

/-! ## The exchange -/

def InSection (ref : Fin k → Triplet) (x : List ℤ) : Prop :=
  List.Forall₂ (fun i v => v ∈ (ref i).rsd.elems) (List.finRange k) x

/-- Rank `r` owns the element. -/
def ArrayDecl.RankOwns (decl : ArrayDecl k d n) (nodes : NodesDesc) (r : ℕ) (x : List ℤ) : Prop :=
  ∃ c, decl.IsCoord nodes r c ∧ List.Forall₂ (decl.Owns c) (List.finRange k) x

/-- The element of the left reference that the element `x` of the right one is assigned to. -/
def assignedIndex (lref : Fin kl → Triplet) (rref : Fin kr → Triplet) (x : List ℤ) : List ℤ :=
  imageIndex ((List.finRange kl).map lref) (((List.finRange kr).map rref).zip x)

def Conformable (lref : Fin kl → Triplet) (rref : Fin kr → Triplet) : Prop :=
  ((List.finRange kl).filter fun i => (lref i).st ≠ 0).map (fun i => (lref i).extent) =
    ((List.finRange kr).filter fun j => (rref j).st ≠ 0).map fun j => (rref j).extent

instance (lref : Fin kl → Triplet) (rref : Fin kr → Triplet) : Decidable (Conformable lref rref) :=
  inferInstanceAs (Decidable (_ = _))

def matchedDims (lref : Fin kl → Triplet) (rref : Fin kr → Triplet) : List (Fin kl × Fin kr) :=
  ((List.finRange kl).filter fun i => (lref i).st ≠ 0).zip
    ((List.finRange kr).filter fun j => (rref j).st ≠ 0)

/-- Two arrays on the executing ranks, a reference to each, and the descriptors that the
ranks hold. -/
structure Gmove (kl dl nl kr dr nr : ℕ) where
  gmvNodes : NodesDesc
  lhsNodes : NodesDesc
  rhsNodes : NodesDesc
  lhs : ArrayDecl kl dl nl
  rhs : ArrayDecl kr dr nr
  lhsRef : Fin kl → Triplet
  rhsRef : Fin kr → Triplet
  lhsDesc : ℕ → GmvDesc kl dl nl
  rhsDesc : ℕ → GmvDesc kr dr nr

namespace Gmove

variable (g : Gmove kl dl nl kr dr nr)

/-- Every rank has built its descriptors, and the references are conformable sections of
arrays with at least one dimension. -/
structure WF : Prop where
  lhsDims : 0 < kl
  rhsDims : 0 < kr
  lhs : DescribesRef g.gmvNodes g.lhsNodes g.lhs g.lhsRef g.lhsDesc
  rhs : DescribesRef g.gmvNodes g.rhsNodes g.rhs g.rhsRef g.rhsDesc
  lhsRefers : g.lhs.Refers g.lhsRef
  rhsRefers : g.rhs.Refers g.rhsRef
  conformable : Conformable g.lhsRef g.rhsRef

/-- No `int` of the exchange leaves its range: neither the owned parts of the references nor
what is carried over between matched dimensions, in either direction. -/
structure FitsInInt : Prop where
  lhs : g.lhs.RefersInInt g.lhsRef
  rhs : g.rhs.RefersInInt g.rhsRef
  send : ∀ ij ∈ matchedDims g.lhsRef g.rhsRef, CarryInInt (g.lhsRef ij.1) (g.rhsRef ij.2)
    (g.lhs.refWidth g.lhsRef ij.1) (g.lhs.period ij.1) (g.rhs.refWidth g.rhsRef ij.2)
    (g.rhs.period ij.2)
  recv : ∀ ij ∈ matchedDims g.lhsRef g.rhsRef, CarryInInt (g.rhsRef ij.2) (g.lhsRef ij.1)
    (g.rhs.refWidth g.rhsRef ij.2) (g.rhs.period ij.2) (g.lhs.refWidth g.lhsRef ij.1)
    (g.lhs.period ij.1)

/-- What rank `p` sends to rank `q` is what rank `q` receives from rank `p`, in the same
order, and it is what `p` owns and `q` needs. -/
def Exchanges (p q : ℕ) : Prop :=
  ∃ send recv, sendCommSet g.gmvNodes (g.lhsDesc p) (g.rhsDesc p) p q = .ok send ∧
    recvCommSet g.gmvNodes (g.lhsDesc q) (g.rhsDesc q) q p = .ok recv ∧
    commbufCount send = commbufCount recv ∧
    packCommSet recv = (packCommSet send).map (assignedIndex g.lhsRef g.rhsRef) ∧
    packCommSetF recv = (packCommSetF send).map (assignedIndex g.lhsRef g.rhsRef) ∧
    ∀ x, x ∈ packCommSet send ↔ InSection g.rhsRef x ∧ g.rhs.RankOwns g.rhsNodes p x ∧
      g.lhs.RankOwns g.lhsNodes q (assignedIndex g.lhsRef g.rhsRef x)

/-- Rank `q` receives every element of the left reference that it owns. -/
def ReceivesAll (q : ℕ) : Prop :=
  ∀ y, InSection g.lhsRef y → g.lhs.RankOwns g.lhsNodes q y → ∃ p < g.gmvNodes.commSize,
    ∃ recv, recvCommSet g.gmvNodes (g.lhsDesc q) (g.rhsDesc q) q p = .ok recv ∧
      y ∈ packCommSet recv

end Gmove

/-! ## What can go wrong -/

/-- The block of the node ends below zero in a template that reaches zero, and `g` lies past
that end. -/
def ArrayDecl.PastNegativeEnd (decl : ArrayDecl k d n) (c : decl.Coord) (i : Fin k)
    (g : ℤ) : Prop :=
  ∃ t sub, decl.target i = some (t, sub) ∧ (decl.dist t).2 = .block ∧
    0 ≤ (decl.template t).serUpper ∧
    (decl.template t).serLower + ceilDiv (decl.template t).serSize
      (decl.nodesSize (decl.dist t).1) * ((c (decl.dist t).1 : ℕ) + 1) - 1 < min 0 (g + sub)

/-- The class of the owned element at position `x` starts inside the reference but has no
element in it. -/
def ArrayDecl.StraysTo (decl : ArrayDecl k d n) (ref : Fin k → Triplet) (c : decl.Coord) (i : Fin k)
    (x : ℤ) : Prop :=
  Stray {g | decl.Claims c i g} (decl.period i) (ref i).rsd.l (ref i).rsd.u (ref i).rsd.s x

section Defects

variable (lhs : ArrayDecl kl dl nl) (rhs : ArrayDecl kr dr nr) (lref : Fin kl → Triplet)
variable (rref : Fin kr → Triplet) (cl : lhs.Coord) (cr : rhs.Coord)

/-- The common classes of a matched pair of dimensions fit into an array for the larger
number of classes. -/
def ClassesFit (ij : Fin kl × Fin kr) : Prop :=
  classPairCount (lhs.period ij.1) (lref ij.1).rsd.s (rhs.period ij.2) (rref ij.2).rsd.s
      (lhs.reached lref cl ij.1) (rhs.reached rref cr ij.2) ≤
    max (classCount (lhs.period ij.1) (lref ij.1).rsd.s (lhs.reached lref cl ij.1))
      (classCount (rhs.period ij.2) (rref ij.2).rsd.s (rhs.reached rref cr ij.2))

/-- No stray is common to a matched pair of dimensions, and no common position lies past
the end of a block below zero. -/
def PositionsExact (ij : Fin kl × Fin kr) : Prop :=
  (∀ x, ¬ (lhs.StraysTo lref cl ij.1 x ∧ rhs.StraysTo rref cr ij.2 x)) ∧
    ∀ x, 0 ≤ x → x ≤ (lref ij.1).last → lhs.Claims cl ij.1 ((lref ij.1).index x) →
      rhs.Claims cr ij.2 ((rref ij.2).index x) →
        ¬ lhs.PastNegativeEnd cl ij.1 ((lref ij.1).index x) ∧
          ¬ rhs.PastNegativeEnd cr ij.2 ((rref ij.2).index x)

/-- The receiver at coordinates `cl` and the sender at `cr` have nothing to exchange, or
none of the three defects touches what they exchange. -/
def ExchangeSound : Prop :=
  (∃ i, lhs.reached lref cl i = ∅) ∨ (∃ j, rhs.reached rref cr j = ∅) ∨
    (∀ ij ∈ matchedDims lref rref, ClassesFit lhs rhs lref rref cl cr ij) ∧
      ((∃ ij ∈ matchedDims lref rref,
          lhs.reached lref cl ij.1 ∩ rhs.reached rref cr ij.2 = ∅) ∨
        (∀ ij ∈ matchedDims lref rref, PositionsExact lhs rhs lref rref cl cr ij) ∧
          (∀ i, (lref i).st = 0 → ¬ lhs.PastNegativeEnd cl i (lref i).lb) ∧
          ∀ j, (rref j).st = 0 → ¬ rhs.PastNegativeEnd cr j (rref j).lb)

end Defects

/-- A claimed index is owned unless it lies past the end of a block below zero. -/
theorem ArrayDecl.Claims.owns_iff {decl : ArrayDecl k d n} {c : decl.Coord} {i : Fin k} {g : ℤ}
    (h : decl.Claims c i g) : decl.Owns c i g ↔ ¬ decl.PastNegativeEnd c i g := by
  obtain ⟨hl, hu, hclaim⟩ := h
  have hown : decl.Owns c i g ↔ decl.TargetOwned c (decl.target i) g :=
    ⟨fun h => h.2.2, fun h => ⟨hl, hu, h⟩⟩
  rw [hown]
  cases htar : decl.target i with
  | none => simp [ArrayDecl.TargetOwned, ArrayDecl.PastNegativeEnd, htar]
  | some target =>
    obtain ⟨t, sub⟩ := target
    rw [htar] at hclaim
    simp only [ArrayDecl.TargetOwned, ArrayDecl.TargetClaimed, ArrayDecl.PastNegativeEnd, htar,
      Option.some.injEq, Prod.mk.injEq] at hclaim ⊢
    by_cases hblock : (decl.dist t).2 = .block
    · rw [hblock] at hclaim ⊢
      obtain ⟨h0, h1⟩ := hclaim
      rw [owned_block_iff]
      dsimp only [ArrayDecl.nodesInfo] at h0 h1 ⊢
      set e := (decl.template t).serLower + ceilDiv (decl.template t).serSize
        (decl.nodesSize (decl.dist t).1) * ((c (decl.dist t).1 : ℕ) + 1) - 1 with he
      have hend : e = (decl.template t).serLower + (c (decl.dist t).1 : ℕ) *
          ceilDiv (decl.template t).serSize (decl.nodesSize (decl.dist t).1) +
          ceilDiv (decl.template t).serSize (decl.nodesSize (decl.dist t).1) - 1 := by
        rw [he]
        ring
      rw [mul_comm] at h0
      constructor
      · rintro ⟨-, hlt⟩ ⟨t', sub', ⟨rfl, rfl⟩, -, -, hpast⟩
        rw [lt_min_iff] at hpast
        omega
      · intro hno
        refine ⟨by omega, ?_⟩
        by_contra hge
        rcases h1 with h1 | ⟨hneg, hpos⟩
        · omega
        · exact hno ⟨t, sub, ⟨rfl, rfl⟩, hblock, hpos, lt_min hneg (by omega)⟩
    · have hno : ¬ ∃ t' sub', (t = t' ∧ sub = sub') ∧ (decl.dist t').2 = .block ∧
          0 ≤ (decl.template t').serUpper ∧
          (decl.template t').serLower + ceilDiv (decl.template t').serSize
            (decl.nodesSize (decl.dist t').1) * ((c (decl.dist t').1 : ℕ) + 1) - 1 <
              min 0 (g + sub') := by
        rintro ⟨t', sub', ⟨rfl, rfl⟩, hb, -⟩
        exact hblock hb
      rw [iff_true_intro hno, iff_true]
      cases hfmt : (decl.dist t).2 with
      | block => exact absurd hfmt hblock
      | duplication => trivial
      | cyclic =>
        rw [hfmt] at hclaim
        exact hclaim
      | blockCyclic w =>
        rw [hfmt] at hclaim
        exact hclaim
      | gblock m =>
        rw [hfmt] at hclaim
        exact hclaim

/-! ## The condition in terms of aligned dimensions -/

section Items

variable {lhs : ArrayDecl kl dl nl} {rhs : ArrayDecl kr dr nr} {lref : Fin kl → Triplet}
variable {rref : Fin kr → Triplet} {cl : lhs.Coord} {cr : rhs.Coord}
variable {items : List (Item (Fin kl) (Fin kr))}

structure Aligned (lref : Fin kl → Triplet) (rref : Fin kr → Triplet)
    (items : List (Item (Fin kl) (Fin kr))) : Prop where
  lefts : lefts items = List.finRange kl
  rights : rights items = List.finRange kr
  conforms : ∀ item ∈ items, Conforms lref rref item

theorem matchedDims_swap {i : Fin kl} {j : Fin kr} (h : (j, i) ∈ matchedDims rref lref) :
    (i, j) ∈ matchedDims lref rref := by
  rw [matchedDims, ← List.zip_swap]
  exact List.mem_map.mpr ⟨_, h, rfl⟩

theorem Conformable.exists_aligned (h : Conformable lref rref) :
    ∃ items, Aligned lref rref items := by
  obtain ⟨items, hl, hr, hc⟩ := exists_items h
  exact ⟨items, hl, hr, hc⟩

theorem Aligned.mem_matchedDims (h : Aligned lref rref items) {i : Fin kl} {j : Fin kr} :
    (i, j) ∈ matchedDims lref rref ↔ .both i j ∈ items := by
  rw [← mem_boths, boths_eq_zip h.conforms, h.lefts, h.rights]
  rfl

theorem Aligned.forall_iff (h : Aligned lref rref items) {Q : Item (Fin kl) (Fin kr) → Prop} :
    (∀ item ∈ items, Q item) ↔ (∀ ij ∈ matchedDims lref rref, Q (.both ij.1 ij.2)) ∧
      (∀ i, (lref i).st = 0 → Q (.left i)) ∧ ∀ j, (rref j).st = 0 → Q (.right j) := by
  constructor
  · intro hall
    refine ⟨fun ij hij => hall _ (h.mem_matchedDims.mp hij), fun i hi => ?_, fun j hj => ?_⟩
    · have hmem : i ∈ Alignment.lefts items := h.lefts ▸ List.mem_finRange i
      obtain ⟨item, hitem, hleft⟩ := List.mem_filterMap.mp hmem
      cases item with
      | left i' =>
        cases hleft
        exact hall _ hitem
      | right j => cases hleft
      | both i' j =>
        cases hleft
        exact absurd hi (h.conforms _ hitem).both.1
    · have hmem : j ∈ Alignment.rights items := h.rights ▸ List.mem_finRange j
      obtain ⟨item, hitem, hright⟩ := List.mem_filterMap.mp hmem
      cases item with
      | left i => cases hright
      | right j' =>
        cases hright
        exact hall _ hitem
      | both i j' =>
        cases hright
        exact absurd hj (h.conforms _ hitem).both.2.1
  · rintro ⟨hboth, hleft, hright⟩ item hitem
    cases item with
    | left i => exact hleft i (h.conforms _ hitem).left
    | right j => exact hright j (h.conforms _ hitem).right
    | both i j => exact hboth (i, j) (h.mem_matchedDims.mpr hitem)

theorem ArrayDecl.reached_scalar {decl : ArrayDecl k d n} {ref : Fin k → Triplet} {c : decl.Coord}
    (hst : ∀ i, 0 ≤ (ref i).st) {i : Fin k} (hscalar : (ref i).st = 0)
    (hne : (decl.reached ref c i).Nonempty) :
    decl.reached ref c i ⊆ positionsOf ref (decl.Owns c) i ↔
      ¬ decl.PastNegativeEnd c i (ref i).lb := by
  obtain ⟨x, hx⟩ := hne
  have hpoint : ∀ y ∈ decl.reached ref c i, y = 0 := (decl.reached_spec hst).point i hscalar
  obtain rfl := hpoint x hx
  have hindex : (ref i).index 0 = (ref i).lb := by
    simp [Triplet.index, Triplet.rsd_scalar hscalar]
  have hlast := Triplet.last_scalar hscalar
  have hclaim : decl.Claims c i ((ref i).index 0) := by
    rcases hx with ⟨-, -, hclaim⟩ | hs
    · exact hclaim
    · exact absurd hs.past (not_lt.mpr hlast.ge)
  rw [← hindex, ← hclaim.owns_iff]
  constructor
  · intro hsub
    exact (hsub hx).2.2
  · intro hown y hy
    rw [hpoint y hy]
    exact ⟨le_rfl, hlast.ge, hown⟩

theorem positionsExact_iff {i : Fin kl} {j : Fin kr} (hlast : (lref i).last = (rref j).last) :
    lhs.reached lref cl i ∩ rhs.reached rref cr j ⊆
        positionsOf lref (lhs.Owns cl) i ∩ positionsOf rref (rhs.Owns cr) j ↔
      PositionsExact lhs rhs lref rref cl cr (i, j) := by
  constructor
  · intro hsub
    refine ⟨fun x hx => ?_, fun x h0 h1 hcl hcr => ?_⟩
    · have hmem := hsub ⟨Or.inr hx.1, Or.inr hx.2⟩
      exact absurd hmem.1.2.1 (not_le.mpr hx.1.past)
    · have hmem := hsub ⟨Or.inl ⟨h0, h1, hcl⟩, Or.inl ⟨h0, h1.trans hlast.le, hcr⟩⟩
      exact ⟨hcl.owns_iff.mp hmem.1.2.2, hcr.owns_iff.mp hmem.2.2.2⟩
  · rintro ⟨hstray, hpast⟩ x ⟨⟨h0, h1, hcl⟩ | hs, hr⟩
    · rcases hr with ⟨-, h1', hcr⟩ | hs'
      · obtain ⟨hl, hr⟩ := hpast x h0 h1 hcl hcr
        exact ⟨⟨h0, h1, hcl.owns_iff.mpr hl⟩, h0, h1', hcr.owns_iff.mpr hr⟩
      · exact absurd hs'.past (not_lt.mpr (h1.trans hlast.le))
    · rcases hr with ⟨-, h1', -⟩ | hs'
      · exact absurd hs.past (not_lt.mpr (h1'.trans hlast.ge))
      · exact absurd ⟨hs, hs'⟩ (hstray x)

theorem sound_iff_exchangeSound (h : Aligned lref rref items) (hl : ∀ i, 0 ≤ (lref i).st)
    (hr : ∀ j, 0 ≤ (rref j).st) :
    Sound lref rref lhs.period rhs.period (lhs.reached lref cl) (rhs.reached rref cr)
        (lhs.Owns cl) (rhs.Owns cr) items ↔ ExchangeSound lhs rhs lref rref cl cr := by
  unfold Sound ExchangeSound
  by_cases hv : Vacant (lhs.reached lref cl) (rhs.reached rref cr)
  · constructor
    · intro _
      exact hv.imp id fun h => Or.inl h
    · intro _
      exact Or.inl hv
  · have hnl : ∀ i, (lhs.reached lref cl i).Nonempty := fun i =>
      Set.nonempty_iff_ne_empty.mpr fun hi => hv (Or.inl ⟨i, hi⟩)
    have hnr : ∀ j, (rhs.reached rref cr j).Nonempty := fun j =>
      Set.nonempty_iff_ne_empty.mpr fun hj => hv (Or.inr ⟨j, hj⟩)
    have hlast : ∀ ij ∈ matchedDims lref rref, (lref ij.1).last = (rref ij.2).last := by
      rintro ⟨i, j⟩ hij
      exact (h.conforms _ (h.mem_matchedDims.mp hij)).last_eq
        ((lhs.reached_spec hl).last i (hnl i)) ((rhs.reached_spec hr).last j (hnr j))
    have hfits : (∀ item ∈ items, ItemFits lref rref lhs.period rhs.period (lhs.reached lref cl)
        (rhs.reached rref cr) item) ↔
        ∀ ij ∈ matchedDims lref rref, ClassesFit lhs rhs lref rref cl cr ij := by
      rw [h.forall_iff]
      exact and_iff_left ⟨fun _ _ => trivial, fun _ _ => trivial⟩
    have hempty : (∃ item ∈ items,
        itemPositions (lhs.reached lref cl) (rhs.reached rref cr) item = ∅) ↔
        ∃ ij ∈ matchedDims lref rref,
          lhs.reached lref cl ij.1 ∩ rhs.reached rref cr ij.2 = ∅ := by
      constructor
      · rintro ⟨item, hitem, hnil⟩
        cases item with
        | left i => exact absurd hnil (hnl i).ne_empty
        | right j => exact absurd hnil (hnr j).ne_empty
        | both i j => exact ⟨(i, j), h.mem_matchedDims.mpr hitem, hnil⟩
      · rintro ⟨⟨i, j⟩, hij, hnil⟩
        exact ⟨_, h.mem_matchedDims.mp hij, hnil⟩
    have hsub : (∀ item ∈ items, itemPositions (lhs.reached lref cl) (rhs.reached rref cr) item ⊆
        itemPositions (positionsOf lref (lhs.Owns cl)) (positionsOf rref (rhs.Owns cr)) item) ↔
        (∀ ij ∈ matchedDims lref rref, PositionsExact lhs rhs lref rref cl cr ij) ∧
          (∀ i, (lref i).st = 0 → ¬ lhs.PastNegativeEnd cl i (lref i).lb) ∧
          ∀ j, (rref j).st = 0 → ¬ rhs.PastNegativeEnd cr j (rref j).lb := by
      rw [h.forall_iff]
      refine and_congr (forall₂_congr fun ij hij => positionsExact_iff (hlast ij hij)) ?_
      refine and_congr (forall₂_congr fun i hi => ?_) (forall₂_congr fun j hj => ?_)
      · exact ArrayDecl.reached_scalar hl hi (hnl i)
      · exact ArrayDecl.reached_scalar hr hj (hnr j)
    have hv0 : ¬ ∃ i, lhs.reached lref cl i = ∅ := fun h => hv (Or.inl h)
    have hv1 : ¬ ∃ j, rhs.reached rref cr j = ∅ := fun h => hv (Or.inr h)
    rw [or_iff_right hv, or_iff_right hv0, or_iff_right hv1, hfits, hempty, hsub]

theorem Aligned.itemImage_eq (h : Aligned lref rref items) (x : List ℤ) :
    itemImage lref rref items x = assignedIndex lref rref x := by
  rw [itemImage, h.lefts, h.rights]
  rfl

theorem Aligned.swap (h : Aligned lref rref items) : Aligned rref lref (items.map Item.swap) where
  lefts := (lefts_swap items).trans h.rights
  rights := (rights_swap items).trans h.lefts
  conforms := forall_swap_iff.mpr fun item hitem => conforms_swap (h.conforms item hitem)

theorem Aligned.itemCarries (h : Aligned lref rref items) (hr : rhs.Refers rref)
    (hint : rhs.RefersInInt rref)
    (hcarry : ∀ ij ∈ matchedDims lref rref, CarryInInt (lref ij.1) (rref ij.2)
      (lhs.refWidth lref ij.1) (lhs.period ij.1) (rhs.refWidth rref ij.2) (rhs.period ij.2)) :
    ∀ item ∈ items, ItemCarries lref rref (lhs.refWidth lref) lhs.period (rhs.refWidth rref)
      rhs.period item :=
  h.forall_iff.mpr ⟨hcarry, fun _ _ => trivial, fun _ hj => hint.scalar hr hj⟩

theorem Aligned.commOutcome (h : Aligned lref rref items) (hkl : 0 < kl) (hkr : 0 < kr)
    (hl : ∀ i, 0 ≤ (lref i).st) (hr : ∀ j, 0 ≤ (rref j).st)
    (hint : ∀ item ∈ items, ItemCarries lref rref (lhs.refWidth lref) lhs.period
      (rhs.refWidth rref) rhs.period item) {rowl rowr : List (Option Csd)}
    (hrowl : SideRow lref lhs.period (lhs.reached lref cl) (List.finRange kl) rowl)
    (hrowr : SideRow rref rhs.period (rhs.reached rref cr) (List.finRange kr) rowr) :
    CommOutcome lref rref lhs.period rhs.period (lhs.reached lref cl) (rhs.reached rref cr) items
      (getCommList (((List.finRange kl).map lref).zip rowl)
        (((List.finRange kr).map rref).zip rowr)) := by
  rw [← h.lefts] at hrowl ⊢
  rw [← h.rights] at hrowr ⊢
  have hne : ∀ {m : ℕ}, 0 < m → List.finRange m ≠ [] := fun hm hnil =>
    hm.ne' (by simpa using congrArg List.length hnil)
  refine commOutcome_getCommList (lhs.reached_spec hl) (rhs.reached_spec hr)
    lhs.reached_keepsWithin rhs.reached_keepsWithin h.conforms hint ?_ ?_ hrowl hrowr
  · rw [h.lefts]
    exact hne hkl
  · rw [h.rights]
    exact hne hkr

end Items

theorem ArrayDecl.IsCoord.rankOwns_iff {decl : ArrayDecl k d n} {nodes : NodesDesc} {r : ℕ}
    {c : decl.Coord} (h : decl.IsCoord nodes r c) (x : List ℤ) :
    decl.RankOwns nodes r x ↔ List.Forall₂ (decl.Owns c) (List.finRange k) x := by
  constructor
  · rintro ⟨c', hc', hx⟩
    exact h.unique hc' ▸ hx
  · intro hx
    exact ⟨c, h, hx⟩

namespace Gmove

variable {g : Gmove kl dl nl kr dr nr}

/-- A pair of ranks exchanges the right elements exactly when no defect touches it. -/
theorem WF.exchanges_iff_at (h : g.WF) (hint : g.FitsInInt) {p q : ℕ} (hp : p < g.gmvNodes.commSize)
    (hq : q < g.gmvNodes.commSize) {cl : g.lhs.Coord} {cr : g.rhs.Coord}
    (hcl : g.lhs.IsCoord g.lhsNodes q cl) (hcr : g.rhs.IsCoord g.rhsNodes p cr) :
    g.Exchanges p q ↔ ExchangeSound g.lhs g.rhs g.lhsRef g.rhsRef cl cr := by
  obtain ⟨items, hal⟩ := h.conformable.exists_aligned
  have hl := h.lhsRefers.stride
  have hr := h.rhsRefers.stride
  obtain ⟨rowlp, hlp, hslp⟩ := h.lhs.ownerRefCsd h.lhsRefers hint.lhs hq hp hcl
  obtain ⟨rowrp, hrp, hsrp⟩ := h.rhs.ownerRefCsd h.rhsRefers hint.rhs hp hp hcr
  obtain ⟨rowlq, hlq, hslq⟩ := h.lhs.ownerRefCsd h.lhsRefers hint.lhs hq hq hcl
  obtain ⟨rowrq, hrq, hsrq⟩ := h.rhs.ownerRefCsd h.rhsRefers hint.rhs hp hq hcr
  have hrecvFits : ∀ ji ∈ matchedDims g.rhsRef g.lhsRef, CarryInInt (g.rhsRef ji.1) (g.lhsRef ji.2)
      (g.rhs.refWidth g.rhsRef ji.1) (g.rhs.period ji.1) (g.lhs.refWidth g.lhsRef ji.2)
      (g.lhs.period ji.2) := by
    rintro ⟨j, i⟩ hji
    exact hint.recv (i, j) (matchedDims_swap hji)
  have hS := hal.commOutcome h.lhsDims h.rhsDims hl hr
    (hal.itemCarries h.rhsRefers hint.rhs hint.send) hslp hsrp
  have hR := hal.swap.commOutcome h.rhsDims h.lhsDims hr hl
    (hal.swap.itemCarries h.lhsRefers hint.lhs hrecvFits) hsrq hslq
  have hsend : sendCommSet g.gmvNodes (g.lhsDesc p) (g.rhsDesc p) p q =
      getCommList (((List.finRange kl).map g.lhsRef).zip rowlp)
        (((List.finRange kr).map g.rhsRef).zip rowrp) := by
    rw [sendCommSet, hlp, hrp, GmvDesc.refs, GmvDesc.refs, h.lhs.ref p hp, h.rhs.ref p hp]
    rfl
  have hrecv : recvCommSet g.gmvNodes (g.lhsDesc q) (g.rhsDesc q) q p =
      getCommList (((List.finRange kr).map g.rhsRef).zip rowrq)
        (((List.finRange kl).map g.lhsRef).zip rowlq) := by
    rw [recvCommSet, hlq, hrq, GmvDesc.refs, GmvDesc.refs, h.lhs.ref q hq, h.rhs.ref q hq]
    rfl
  have hall : ∀ {m : ℕ} {l : List (Fin m)}, l = List.finRange m → ∀ i, i ∈ l := by
    rintro m l rfl i
    exact List.mem_finRange i
  have hne : ∀ {m : ℕ} {l : List (Fin m)}, 0 < m → l = List.finRange m → l ≠ [] := by
    rintro m l hm rfl hnil
    exact hm.ne' (by simpa using congrArg List.length hnil)
  rw [← sound_iff_exchangeSound hal hl hr, ← agrees_iff_sound (g.lhs.reached_spec hl)
    (g.rhs.reached_spec hr) (fun i => g.lhs.positionsOf_subset_reached i)
    (fun j => g.rhs.positionsOf_subset_reached j) hal.conforms (hne h.lhsDims hal.lefts)
    (hne h.rhsDims hal.rights) (hall hal.lefts) (hall hal.rights) hS hR, Exchanges, hsend, hrecv]
  refine exists_congr fun send => exists_congr fun recv => and_congr_right fun _ =>
    and_congr_right fun _ => ?_
  have himage : itemImage g.lhsRef g.rhsRef items = assignedIndex g.lhsRef g.rhsRef :=
    funext hal.itemImage_eq
  constructor
  · rintro ⟨hcount, horder, horderF, hmem⟩
    refine ⟨hcount, himage ▸ horder, himage ▸ horderF, fun x => ?_⟩
    rw [hmem, hcr.rankOwns_iff, hcl.rankOwns_iff, hal.lefts, hal.rights, himage]
    rfl
  · rintro ⟨hcount, horder, horderF, hmem⟩
    refine ⟨hcount, himage ▸ horder, himage ▸ horderF, fun x => ?_⟩
    rw [hmem, hcr.rankOwns_iff, hcl.rankOwns_iff, hal.lefts, hal.rights, himage]
    rfl

/-- Some rank sends the element that is assigned to an element of the receiver. -/
theorem WF.receivesAll (h : g.WF) {q : ℕ} (hq : q < g.gmvNodes.commSize)
    (hex : ∀ p < g.gmvNodes.commSize, g.Exchanges p q) : g.ReceivesAll q := by
  intro y hy hown
  obtain ⟨items, hal⟩ := h.conformable.exists_aligned
  rw [InSection, ← hal.lefts] at hy
  obtain ⟨x, hx, rfl⟩ := exists_preimage h.lhsRefers.stride h.rhsRefers.stride hal.conforms hy
  rw [hal.rights] at hx
  rw [hal.itemImage_eq] at hown ⊢
  obtain ⟨c0, -, hbuilt⟩ := h.rhs.built q hq
  obtain ⟨v, rfl⟩ : ∃ v : Fin kr → ℤ, x = (List.finRange kr).map v := by
    refine ⟨fun j => x.getD j 0, List.ext_getElem (by simpa using hx.length_eq.symm) ?_⟩
    intro j hj hj'
    simp [hj]
  rw [List.forall₂_map_right_iff, List.forall₂_same] at hx
  obtain ⟨c, hc⟩ := g.rhs.exists_owner hbuilt.described c0 fun j =>
    h.rhsRefers.within j (v j) (hx j (List.mem_finRange j))
  obtain ⟨p, hp, hcoord⟩ := g.rhs.exists_rank h.rhs.sizes c
  have hsize : g.rhsNodes.commSize = g.gmvNodes.commSize := by
    rcases h.rhs.executing with heq | ⟨-, -, heq⟩
    · rw [heq]
    · exact heq
  rw [hsize] at hp
  obtain ⟨send, recv, -, hrecv, -, horder, -, hmem⟩ := hex p hp
  refine ⟨p, hp, recv, hrecv, ?_⟩
  rw [horder]
  refine List.mem_map_of_mem ((hmem _).mpr ⟨?_, ⟨c, hcoord, ?_⟩, hown⟩)
  · rw [InSection, List.forall₂_map_right_iff, List.forall₂_same]
    exact hx
  · rw [List.forall₂_map_right_iff, List.forall₂_same]
    exact fun j _ => hc j

end Gmove

theorem classPairCount_le {s0 p s1 : ℤ} (hp : 0 < p) (P Q : Set ℤ) :
    classPairCount 1 s0 p s1 P Q ≤ classCount p s1 Q := by
  have himage : (fun k => (positionClass 1 s0 k, positionClass p s1 k)) '' (P ∩ Q) =
      Prod.mk 0 '' (positionClass p s1 '' (P ∩ Q)) := by
    rw [Set.image_image]
    exact Set.image_congr fun k _ => by simp [positionClass]
  have hfin : (positionClass p s1 '' Q).Finite := by
    refine (Set.finite_Ico 0 p).subset ?_
    rintro _ ⟨k, -, rfl⟩
    exact ⟨Int.emod_nonneg _ hp.ne', Int.emod_lt_of_pos _ hp⟩
  rw [classPairCount, himage, Set.ncard_image_of_injective _ (Prod.mk_right_injective 0)]
  exact Set.ncard_le_ncard (Set.image_mono Set.inter_subset_right) hfin

/-! ## One-dimensional arrays -/

/-- `a[size]` aligned with a template `t(0:size-1)` that is distributed onto `p(P)`. -/
def lineDecl (P : ℕ) (size : ℤ) (fmt : DistFormat) (hP : P < 2 ^ 31)
    (hsize : 0 < size ∧ size < 2 ^ 31) (hstride : fmt.StrideInInt P)
    (hfmt : ∀ w, fmt = .blockCyclic w → 0 < w) : ArrayDecl 1 1 1 :=
  .line P (.fixed 0 (size - 1) (by unfold InInt; omega)) fmt 0 (size - 1) 0 hP hstride
    hfmt (by omega)

/-- The node array `p(P)` over all processes. -/
def lineNodesDesc (P : ℕ) : NodesDesc := ⟨0, .entire, [P]⟩

/-- The coordinate of a rank of `p(P)`. -/
def ArrayDecl.lineCoord (decl : ArrayDecl 1 1 1) (hP : 0 < decl.nodesSize 0) (r : ℕ) : decl.Coord :=
  fun j => ⟨r % decl.nodesSize j, Nat.mod_lt _ (Subsingleton.elim 0 j ▸ hP)⟩

/-- The descriptors of all ranks of `p(P)`. -/
def ArrayDecl.lineDesc (decl : ArrayDecl 1 1 1) (hP : 0 < decl.nodesSize 0)
    (ref : Triplet) (r : ℕ) :
    GmvDesc 1 1 1 where
  aDesc := decl.builtLine (decl.lineCoord hP r)
  ontoNodes := lineNodesDesc (decl.nodesSize 0)
  ref := fun _ => ref

theorem ArrayDecl.lineDesc_describes (decl : ArrayDecl 1 1 1) (hP : 0 < decl.nodesSize 0)
    (ref : Triplet) (hbuild : ∀ c, ∃ a, decl.build c = .ok a) :
    DescribesRef (lineNodesDesc (decl.nodesSize 0)) (lineNodesDesc (decl.nodesSize 0)) decl
      (fun _ => ref) (decl.lineDesc hP ref) where
  sizes := rfl
  executing := Or.inl rfl
  ontoNodes := fun _ _ => rfl
  ref := fun _ _ => rfl
  built := by
    intro r hr
    have hlt : r < decl.nodesSize 0 := by simpa [lineNodesDesc, NodesDesc.commSize] using hr
    refine ⟨decl.lineCoord hP r, ?_, ?_⟩
    · simp [ArrayDecl.IsCoord, calcRankArray, NodesDesc.multipliers, lineNodesDesc, places, digits,
        ArrayDecl.lineCoord, Nat.mod_eq_of_lt hlt]
    · obtain ⟨a, ha⟩ := hbuild (decl.lineCoord hP r)
      simp only [ArrayDecl.lineDesc, ArrayDecl.builtLine, ha]
      exact built_of_build ha

/-- The assignment `l[lref] = r[rref]` of two arrays on one node array. -/
def lineGmove (lhs rhs : ArrayDecl 1 1 1) (hl : 0 < lhs.nodesSize 0) (hr : 0 < rhs.nodesSize 0)
    (lref rref : Triplet) : Gmove 1 1 1 1 1 1 where
  gmvNodes := lineNodesDesc (lhs.nodesSize 0)
  lhsNodes := lineNodesDesc (lhs.nodesSize 0)
  rhsNodes := lineNodesDesc (rhs.nodesSize 0)
  lhs := lhs
  rhs := rhs
  lhsRef := fun _ => lref
  rhsRef := fun _ => rref
  lhsDesc := lhs.lineDesc hl lref
  rhsDesc := rhs.lineDesc hr rref

def blockDecl : ArrayDecl 1 1 1 :=
  lineDecl 2 8 .block (by norm_num) (by norm_num) (by decide) (by rintro w ⟨⟩)

def cyclicDecl : ArrayDecl 1 1 1 :=
  lineDecl 2 8 .cyclic (by norm_num) (by norm_num) (by decide) (by rintro w ⟨⟩)

def blockFromCyclicGmove : Gmove 1 1 1 1 1 1 :=
  lineGmove blockDecl cyclicDecl (by decide) (by decide) ⟨0, 7, 1⟩ ⟨0, 7, 1⟩

theorem blockFromCyclicGmove_wf : blockFromCyclicGmove.WF where
  lhsDims := one_pos
  rhsDims := one_pos
  lhs := blockDecl.lineDesc_describes (by decide) _ fun c => ⟨_, rfl⟩
  rhs := cyclicDecl.lineDesc_describes (by decide) _ fun c => ⟨_, rfl⟩
  lhsRefers := ⟨fun _ => zero_le_one, fun _ _ hx => ⟨hx.1, hx.2.1⟩⟩
  rhsRefers := ⟨fun _ => zero_le_one, fun _ _ hx => ⟨hx.1, hx.2.1⟩⟩
  conformable := by decide

theorem blockFromCyclicGmove_sound (cl : blockDecl.Coord) (cr : cyclicDecl.Coord) :
    ExchangeSound blockDecl cyclicDecl (fun _ => ⟨0, 7, 1⟩) (fun _ => ⟨0, 7, 1⟩) cl cr := by
  have hone : (1 : ℤ) ≠ 0 := one_ne_zero
  refine Or.inr (Or.inr ⟨fun ij _ => ?_, Or.inr ⟨fun ij _ => ⟨fun x hx => ?_, ?_⟩,
    fun _ h => absurd h hone, fun _ h => absurd h hone⟩⟩)
  · exact (classPairCount_le two_pos _ _).trans (le_max_right _ _)
  · -- The references cover the arrays, so nothing lies past them.
    have hpast : lastPosition 0 7 1 < x := hx.1.past
    have hmem : 0 + x * 1 ≤ 7 := hx.1.mem.2.1
    rw [show lastPosition 0 7 1 = 7 from rfl] at hpast
    omega
  · intro x _ _ _ _
    constructor
    · rintro ⟨t, sub, -, -, -, hend⟩
      have hneg := (lt_min_iff.mp hend).1
      have hwidth : ceilDiv (blockDecl.template t).serSize (blockDecl.nodesSize
          (blockDecl.dist t).1) = 4 := by
        change ceilDiv (8 - 1 - 0 + 1) ((2 : ℕ) : ℤ) = 4
        decide
      have hlow : (blockDecl.template t).serLower = 0 := rfl
      rw [hwidth, hlow] at hneg
      omega
    · rintro ⟨t, sub, -, hblock, -⟩
      cases hblock

theorem blockFromCyclicGmove_fitsInInt : blockFromCyclicGmove.FitsInInt where
  lhs :=
    { owned := fun _ => ⟨(by decide : InInt 1), (by decide : InInt 0), (by decide : InInt 8), by
        rintro t sub - (hcyclic | ⟨w, hcyclic⟩)
        · cases hcyclic
        · cases hcyclic⟩
      ref := fun _ => (by decide : RefInInt 0 7 1 7 1) }
  rhs :=
    { owned := fun _ => ⟨(by decide : InInt 2), (by decide : InInt 0), (by decide : InInt 8), by
        rintro t sub htar -
        cases htar
        exact (by decide : InInt 0 ∧ InInt 11)⟩
      ref := fun _ => (by decide : RefInInt 0 7 2 7 1) }
  send := fun _ _ => (by decide : CarryInInt ⟨0, 7, 1⟩ ⟨0, 7, 1⟩ 7 1 7 2)
  recv := fun _ _ => (by decide : CarryInInt ⟨0, 7, 1⟩ ⟨0, 7, 1⟩ 7 2 7 1)

/-- 24 elements on two nodes, `cyclic(3)`. -/
def cyclicThreeDecl : ArrayDecl 1 1 1 :=
  lineDecl 2 24 (.blockCyclic 3) (by norm_num) (by norm_num) (by decide) (by rintro w ⟨⟩; norm_num)

/-- 24 elements on two nodes, `cyclic(4)`. -/
def cyclicFourDecl : ArrayDecl 1 1 1 :=
  lineDecl 2 24 (.blockCyclic 4) (by norm_num) (by norm_num) (by decide) (by rintro w ⟨⟩; norm_num)

/-- The assignment of one whole array to the other. -/
def blockCyclicGmove : Gmove 1 1 1 1 1 1 :=
  lineGmove cyclicThreeDecl cyclicFourDecl (by decide) (by decide) ⟨0, 23, 1⟩ ⟨0, 23, 1⟩

theorem blockCyclicGmove_wf : blockCyclicGmove.WF where
  lhsDims := one_pos
  rhsDims := one_pos
  lhs := cyclicThreeDecl.lineDesc_describes (by decide) _ fun c => ⟨_, rfl⟩
  rhs := cyclicFourDecl.lineDesc_describes (by decide) _ fun c => ⟨_, rfl⟩
  lhsRefers := ⟨fun _ => zero_le_one, fun _ _ hx => ⟨hx.1, hx.2.1⟩⟩
  rhsRefers := ⟨fun _ => zero_le_one, fun _ _ hx => ⟨hx.1, hx.2.1⟩⟩
  conformable := by decide

end OmniCompiler.Xmp
