import OmniCompiler.Xmp.GmoveAgreement

/-!
# Ranks of a gmove

Every executing rank stands for coordinates in the node arrays of both sides. On any rank
the row of `owner_ref_csd` for another one follows from the declaration of the array and the
coordinates of the other rank alone.
-/
namespace OmniCompiler.Xmp

open MachineInt ForLoop Progression OmniCompiler.Alignment MixedRadix BlockCyclic

variable {k d n : ℕ}

/-! ## Owners of an element -/

theorem exists_owned {ti : TemplateInfo} {P : ℕ} (hP : 0 < P) (hlimit : P < 2 ^ 31)
    {fmt : DistFormat} {g : ℤ}
    (hg : ti.Contains g)
    (hcover : ∀ m, fmt = .gblock (some m) → ti.serUpper < rsumArray ti.serLower m P) :
    ∃ r : Fin P, Owned ti ⟨P, r, hlimit⟩ fmt g := by
  have hP' : (0 : ℤ) < P := by exact_mod_cast hP
  have of_own : ∀ own : ℤ, 0 ≤ own → own < P → ∃ r : Fin P, own = (r : ℕ) := fun own h0 h1 =>
    ⟨⟨own.toNat, by omega⟩, by simp [h0]⟩
  obtain ⟨h0, h1⟩ := hg
  match fmt with
  | .duplication => exact ⟨⟨0, hP⟩, trivial⟩
  | .block =>
    have hW := ceilDiv_pos ti.serSize_pos hP'
    have hle := (ceilDiv_bounds ti.serSize_pos.le hP').1
    have hN := ti.serUpper_eq
    exact of_own _ (Int.ediv_nonneg (by omega) hW.le) (Int.ediv_lt_of_lt_mul hW (by linarith))
  | .cyclic => exact of_own _ (Int.emod_nonneg _ hP'.ne') (Int.emod_lt_of_pos _ hP')
  | .blockCyclic w => exact of_own _ (Int.emod_nonneg _ hP'.ne') (Int.emod_lt_of_pos _ hP')
  | .gblock none => exact ⟨⟨0, hP⟩, trivial⟩
  | .gblock (some m) =>
    obtain ⟨r, hr, hb⟩ := exists_rsumArray_block h0 (h1.trans_lt (hcover m rfl))
    exact ⟨⟨r, hr⟩, hb⟩

/-- Every element of an array has an owner: the coordinates in different node dimensions are
chosen independently. -/
theorem ArrayDecl.exists_owner {decl : ArrayDecl k d n} {a : XmpArray k d n}
    (hd : ∀ i, DescribedDim decl a i) (c0 : decl.Coord) {x : Fin k → ℤ}
    (hx : ∀ i, decl.lower i ≤ x i ∧ x i ≤ decl.upper i) :
    ∃ c : decl.Coord, ∀ i, decl.Owns c i (x i) := by
  have hdim : ∀ j : Fin n, ∃ r : Fin (decl.nodesSize j), ∀ i t sub, decl.target i = some (t, sub) →
      (decl.dist t).1 = j →
        Owned (decl.template t) ⟨decl.nodesSize j, r, decl.nodesSize_limit j⟩ (decl.dist t).2
          (x i + sub) := by
    intro j
    by_cases hex : ∃ i t sub, decl.target i = some (t, sub) ∧ (decl.dist t).2 ≠ .duplication ∧
        (decl.dist t).1 = j
    · obtain ⟨i, t, sub, htar, hfmt, rfl⟩ := hex
      obtain ⟨-, -, -, -, hlow, hup, hrep⟩ := (hd i).aligned t sub htar
      have hcontains : (decl.template t).Contains (x i + sub) := by
        have := hx i
        constructor <;> omega
      have hcover : ∀ m, (decl.dist t).2 = .gblock (some m) → (decl.template t).serUpper <
          rsumArray (decl.template t).serLower m (decl.nodesSize (decl.dist t).1) := by
        intro m hm
        rw [hm] at hrep
        exact hrep.2.2.2
      obtain ⟨r, hr⟩ := exists_owned (Fin.pos (c0 (decl.dist t).1)) (decl.nodesSize_limit _)
        hcontains hcover
      refine ⟨r, fun i' t' sub' htar' hj => ?_⟩
      by_cases hdup : (decl.dist t').2 = .duplication
      · rw [hdup]
        trivial
      · obtain rfl := decl.dist_inj t' t hdup hfmt hj
        obtain rfl := decl.target_inj i' i t' sub' sub htar' htar
        rw [htar] at htar'
        cases htar'
        exact hr
    · refine ⟨c0 j, fun i t sub htar hj => ?_⟩
      by_cases hdup : (decl.dist t).2 = .duplication
      · rw [hdup]
        trivial
      · exact absurd ⟨i, t, sub, htar, hdup, hj⟩ hex
  choose c hc using hdim
  refine ⟨c, fun i => ⟨(hx i).1, (hx i).2, ?_⟩⟩
  cases htar : decl.target i with
  | none => trivial
  | some target =>
    obtain ⟨t, sub⟩ := target
    exact hc (decl.dist t).1 i t sub htar rfl

theorem ArrayDecl.Owns.claims {decl : ArrayDecl k d n} {c : decl.Coord} {i : Fin k} {g : ℤ}
    (h : decl.Owns c i g) : decl.Claims c i g := by
  obtain ⟨hl, hu, hown⟩ := h
  refine ⟨hl, hu, ?_⟩
  cases htar : decl.target i with
  | none => trivial
  | some target =>
    obtain ⟨t, sub⟩ := target
    rw [htar] at hown
    simp only [ArrayDecl.TargetOwned, ArrayDecl.TargetClaimed] at hown ⊢
    cases hfmt : (decl.dist t).2 with
    | block =>
      rw [hfmt, owned_block_iff] at hown
      refine ⟨?_, Or.inl ?_⟩ <;> nlinarith
    | duplication => trivial
    | cyclic =>
      rw [hfmt] at hown
      exact hown
    | blockCyclic w =>
      rw [hfmt] at hown
      exact hown
    | gblock m =>
      rw [hfmt] at hown
      exact hown

/-! ## Coordinates of a rank -/

/-- The coordinates of rank `r` in the node array of the declaration. -/
def ArrayDecl.IsCoord (decl : ArrayDecl k d n) (nodes : NodesDesc) (r : ℕ)
    (c : decl.Coord) : Prop :=
  calcRankArray nodes r = List.ofFn fun j => (c j : ℕ)

theorem ArrayDecl.IsCoord.unique {decl : ArrayDecl k d n} {nodes : NodesDesc} {r : ℕ}
    {c c' : decl.Coord} (h : decl.IsCoord nodes r c) (h' : decl.IsCoord nodes r c') : c = c' := by
  have heq := List.ofFn_injective (h.symm.trans h')
  exact funext fun j => Fin.ext (congrFun heq j)

theorem ArrayDecl.exists_rank {decl : ArrayDecl k d n} {nodes : NodesDesc}
    (hsizes : nodes.sizes = List.ofFn decl.nodesSize) (c : decl.Coord) :
    ∃ r < nodes.commSize, decl.IsCoord nodes r c := by
  have hrange : InRange (List.ofFn fun j => (c j : ℕ)) nodes.sizes := by
    rw [hsizes, InRange, List.forall₂_iff_get]
    refine ⟨by simp, fun i h1 h2 => ?_⟩
    simp
  exact ⟨_, calcLinearRank_lt hrange, calcRankArray_calcLinearRank hrange⟩

/-- A reference inside the array, with strides that are positive or mark a scalar index. -/
structure ArrayDecl.Refers (decl : ArrayDecl k d n) (ref : Fin k → Triplet) : Prop where
  stride : ∀ i, 0 ≤ (ref i).st
  within : ∀ i, ∀ x ∈ (ref i).rsd.elems, decl.lower i ≤ x ∧ x ≤ decl.upper i

/-- The owned parts of a reference are computed inside `int`. -/
structure ArrayDecl.RefersInInt (decl : ArrayDecl k d n) (ref : Fin k → Triplet) : Prop where
  owned : ∀ i, decl.SectionInInt i
  ref : ∀ i, RefInInt (decl.lower i) (decl.upper i) (decl.period i) (ref i).rsd.u (ref i).rsd.s

/-- Distance of the last element of the array from the start of the reference. -/
def ArrayDecl.refWidth (decl : ArrayDecl k d n) (ref : Fin k → Triplet) (i : Fin k) : ℤ :=
  decl.upper i - (ref i).rsd.l

theorem ArrayDecl.period_nonneg (decl : ArrayDecl k d n) (i : Fin k) : 0 ≤ decl.period i := by
  unfold ArrayDecl.period
  split
  · exact zero_le_one
  · split
    · exact Int.natCast_nonneg _
    · next w hfmt => exact mul_nonneg (Int.natCast_nonneg _) (decl.width_pos _ w hfmt).le
    all_goals exact zero_le_one

theorem ArrayDecl.RefersInInt.scalar {decl : ArrayDecl k d n} {ref : Fin k → Triplet}
    (h : decl.RefersInInt ref) (href : decl.Refers ref) {i : Fin k} (hst : (ref i).st = 0) :
    MeetInInt (ref i).rsd.l (ref i).rsd.s 0 1 (decl.refWidth ref i) (decl.period i) := by
  have hrsd := Triplet.rsd_scalar hst
  have hmem : (ref i).lb ∈ (ref i).rsd.elems := by
    rw [hrsd]
    exact left_mem_strided le_rfl
  obtain ⟨hlow, hup⟩ := href.within i _ hmem
  obtain ⟨-, ⟨-, hsize⟩, -, ⟨hl, -⟩, ⟨-, hend⟩, -⟩ := h.ref i
  obtain ⟨⟨hp, hp'⟩, -, ⟨-, hnext⟩, -⟩ := h.owned i
  have hpos := decl.period_nonneg i
  have hle := decl.lower_le_upper i
  rw [refWidth, hrsd]
  dsimp only
  refine ⟨?_, ?_, ⟨?_, ?_⟩, ⟨?_, ?_⟩, ?_⟩ <;> constructor <;> omega

/-- On every executing rank `desc` holds the descriptors that the rank builds from the
declaration, with the same reference. -/
structure DescribesRef (gmvNodes nodes : NodesDesc) (decl : ArrayDecl k d n) (ref : Fin k → Triplet)
    (desc : ℕ → GmvDesc k d n) : Prop where
  sizes : nodes.sizes = List.ofFn decl.nodesSize
  executing : gmvNodes.OnExecuting nodes
  ontoNodes : ∀ r < gmvNodes.commSize, (desc r).ontoNodes = nodes
  ref : ∀ r < gmvNodes.commSize, (desc r).ref = ref
  built : ∀ r < gmvNodes.commSize, ∃ c, decl.IsCoord nodes r c ∧ decl.Built c (desc r).aDesc

/-- The positions of the reference that the runtime reaches for the coordinates `c`. -/
def ArrayDecl.reached (decl : ArrayDecl k d n) (ref : Fin k → Triplet) (c : decl.Coord)
    (i : Fin k) :
    Set ℤ :=
  reach {g | decl.Claims c i g} (decl.period i) (ref i).rsd.l (ref i).rsd.u (ref i).rsd.s

section

variable {decl : ArrayDecl k d n} {ref : Fin k → Triplet} {c : decl.Coord}

theorem ArrayDecl.reached_bounds (hst : ∀ i, 0 ≤ (ref i).st) {i : Fin k} {x : ℤ}
    (hx : x ∈ decl.reached ref c i) : (ref i).rsd.l ≤ (ref i).rsd.u := by
  by_contra hlt
  exact reach_of_empty_ref (Triplet.rsd_pos (hst i)) (not_le.mp hlt) x hx

theorem ArrayDecl.reached_spec (hst : ∀ i, 0 ≤ (ref i).st) : Reached ref (decl.reached ref c) where
  stride := hst
  nonneg i x hx := by
    have hlast := lastPosition_nonneg (Triplet.rsd_pos (hst i)) (reached_bounds hst hx)
    rcases hx with ⟨h0, -, -⟩ | hs
    · exact h0
    · exact hlast.trans hs.past.le
  last i hR := by
    obtain ⟨x, hx⟩ := hR
    exact lastPosition_nonneg (Triplet.rsd_pos (hst i)) (reached_bounds hst hx)
  point i hscalar x hx := by
    have hrsd := Triplet.rsd_scalar hscalar
    rcases hx with ⟨h0, h1, -⟩ | hs
    · rw [hrsd] at h1
      simp only [lastPosition, sub_self, Int.zero_ediv] at h1
      omega
    · -- A stray would need a class that starts strictly inside a single element.
      obtain ⟨y, hy, hd, hle⟩ := hs.inside
      have hlt := hs.after y hy hd
      rw [hrsd] at hle hlt
      dsimp only at hle hlt
      omega

theorem ArrayDecl.reached_keepsWithin :
    KeepsWithin ref (decl.refWidth ref) (decl.reached ref c) := by
  intro i x hx
  have hclaim : decl.Claims c i ((ref i).rsd.l + x * (ref i).rsd.s) := by
    rcases hx with ⟨-, -, hclaim⟩ | hs
    · exact hclaim
    · exact hs.mem
  have hup := hclaim.2.1
  rw [ArrayDecl.refWidth]
  omega

theorem ArrayDecl.positionsOf_subset_reached (i : Fin k) :
    positionsOf ref (decl.Owns c) i ⊆ decl.reached ref c i := by
  rintro x ⟨h0, h1, hown⟩
  exact Or.inl ⟨h0, h1, hown.claims⟩

end

theorem mapM_ok {α β : Type} {f : α → Except String β} {g : α → β} (h : ∀ a, f a = .ok (g a))
    (l : List α) : l.mapM f = .ok (l.map g) := by
  rw [show f = fun a => pure (g a) from funext h]
  exact List.mapM_pure

theorem sideRow_reduceCsd {t : Fin k → Triplet} {period : Fin k → ℤ} {R : Fin k → Set ℤ}
    {D : Fin k → Option Csd}
    (h : ∀ i, IsRefSection (t i).rsd.l (t i).rsd.s (t i).last (period i) (R i) (D i)) :
    SideRow t period R (List.finRange k) (reduceCsd ((List.finRange k).map D)) := by
  choose K L U hshape hapart helems hstride hD using h
  have hnil : ∀ i, (K i).comps = [] ↔ R i = ∅ := by
    intro i
    rw [← helems i]
    constructor
    · intro hcomps
      simp [Csd.elems, Csd.rsds, hcomps]
    · intro hempty
      refine List.eq_nil_iff_forall_not_mem.mpr fun p hp => ?_
      have hr := Csd.mem_rsds hp
      have hmem : p.1 ∈ (K i).elems := ⟨_, hr, left_mem_strided ((hshape i).wf.comp _ hr).le⟩
      rw [hempty] at hmem
      exact hmem
  have htest : ∀ i, ((D i).elim true fun c => decide (c.n = 0)) = true ↔ R i = ∅ := by
    intro i
    rcases hD i with hsome | ⟨hnone, hcomps⟩
    · rw [hsome, ← hnil i]
      simp [Csd.scale, Csd.n]
    · rw [hnone, ← hnil i]
      simp [hcomps]
  by_cases hv : ∃ i, R i = ∅
  · refine .vacant hv ?_
    obtain ⟨i, hi⟩ := hv
    have hany : (((List.finRange k).map D).any fun c => c.elim true fun c => c.n = 0) = true :=
      List.any_eq_true.mpr ⟨D i, List.mem_map_of_mem (List.mem_finRange i), (htest i).mpr hi⟩
    rw [reduceCsd, if_pos hany, List.map_map]
    rfl
  · have hne : ∀ i, (R i).Nonempty := fun i => Set.nonempty_iff_ne_empty.mpr fun h => hv ⟨i, h⟩
    refine .occupied K hne (fun i => ⟨⟨L i, U i, hshape i⟩, hapart i, helems i, hstride i⟩) ?_
    have hany : ¬ (((List.finRange k).map D).any fun c => c.elim true fun c => c.n = 0) = true := by
      rw [List.any_eq_true]
      rintro ⟨c, hc, htrue⟩
      obtain ⟨i, -, rfl⟩ := List.mem_map.mp hc
      exact hv ⟨i, (htest i).mp htrue⟩
    rw [reduceCsd, if_neg hany]
    refine List.map_congr_left fun i _ => ?_
    rcases hD i with hsome | ⟨-, hcomps⟩
    · exact hsome
    · exact absurd ((hnil i).mp hcomps) (hne i).ne_empty

/-- On rank `r'` the row for rank `r` describes what is reached at the coordinates of `r`. -/
theorem DescribesRef.ownerRefCsd {gmvNodes nodes : NodesDesc} {decl : ArrayDecl k d n}
    {ref : Fin k → Triplet} {desc : ℕ → GmvDesc k d n}
    (h : DescribesRef gmvNodes nodes decl ref desc) (href : decl.Refers ref)
    (hint : decl.RefersInInt ref) {r r' : ℕ}
    (hr : r < gmvNodes.commSize) (hr' : r' < gmvNodes.commSize) {c : decl.Coord}
    (hc : decl.IsCoord nodes r c) :
    ∃ row, getOwnerRefCsd gmvNodes (desc r') r = .ok row ∧
      SideRow ref decl.period (decl.reached ref c) (List.finRange k) row := by
  have hpos : ∀ s ∈ gmvNodes.sizes, 0 < s := by
    intro s hs
    refine Nat.pos_of_ne_zero fun h0 => ?_
    have hzero : gmvNodes.commSize = 0 := List.prod_eq_zero (h0 ▸ hs)
    omega
  have hcoord := calcCoordOnTargetNodes_eq h.executing hpos hr
  have hinside : ((calcRankArray nodes r).zip nodes.sizes).all (fun c => c.1 < c.2) = true := by
    rw [hc, h.sizes, List.all_eq_true]
    intro p hp
    obtain ⟨j, hj, rfl⟩ := List.getElem_of_mem hp
    simp
  obtain ⟨c', -, hbuilt⟩ := h.built r' hr'
  have hdim : ∀ i, ∃ D, (do
      let ownerCsd ← if ((calcRankArray nodes r).zip nodes.sizes).all (fun c => c.1 < c.2) then
        getOwnerCsd (desc r').aDesc i (calcRankArray nodes r) else .ok none
      intersectionCsds ownerCsd (rsd2csd (some (ref i).rsd))) = Except.ok D ∧
      IsRefSection (ref i).rsd.l (ref i).rsd.s (ref i).last (decl.period i)
        (decl.reached ref c i) D := by
    intro i
    have hget : ∀ j : Fin n, (calcRankArray nodes r).getD j 0 = c j := by
      intro j
      rw [hc]
      simp
    obtain ⟨oc, hoc, hsec⟩ := getOwnerCsd_isOwnerSection (hbuilt.described i) (hint.owned i) c hget
    obtain ⟨D, hD, hrefsec⟩ := hsec.ref (fun _ hg => ⟨hg.1, hg.2.1⟩) (hint.ref i)
      (Triplet.rsd_pos (href.stride i)) (href.within i)
    refine ⟨D, ?_, hrefsec⟩
    rw [if_pos hinside, hoc]
    exact hD
  choose D hrun hsec using hdim
  refine ⟨_, ?_, sideRow_reduceCsd hsec⟩
  unfold getOwnerRefCsd
  rw [h.ontoNodes r' hr', hcoord, h.ref r' hr']
  dsimp only
  rw [mapM_ok hrun]
  rfl

end OmniCompiler.Xmp
