import OmniCompiler.Xmp.GmoveRows

/-!
# Packing a communication list (`xmp_gmove.c`, `xmpc_gmove.c`, `xmpf_gmove.c`)

The elements of a row are packed in the order of nested loops over its dimensions, the last
one innermost in C and the first one in Fortran. `get_commbuf_size` counts them.
-/
namespace OmniCompiler.Xmp

open MachineInt ForLoop Progression OmniCompiler.Alignment

/-! ## What a list of intervals holds -/

section Visit

variable {st : List (ℤ × ℤ) × ℤ × ℤ}

theorem commElems_subset_visitElement (hst : st.2.1 ≤ st.2.2) (l : ℤ) :
    commElems (st.1 ++ [st.2]) ⊆
        commElems ((visitElement st l).1 ++ [(visitElement st l).2]) ∧
      (visitElement st l).2.1 ≤ (visitElement st l).2.2 := by
  rcases le_or_gt l st.2.2 with hle | hlt
  · have hskip : visitElement st l = st := by
      unfold visitElement
      rw [if_neg (by omega), if_pos hle]
    rw [hskip]
    exact ⟨List.Subset.refl _, hst⟩
  · obtain ⟨happ, hlast, hlow⟩ := commElems_visitElement hst hlt
    rw [happ, hlast]
    exact ⟨List.subset_append_left _ _, hlow⟩

theorem commElems_subset_foldl (points : List ℤ) (hst : st.2.1 ≤ st.2.2) :
    commElems (st.1 ++ [st.2]) ⊆
      commElems ((points.foldl visitElement st).1 ++ [(points.foldl visitElement st).2]) := by
  induction points generalizing st with
  | nil => exact List.Subset.refl _
  | cons l points ih =>
    obtain ⟨hsub, hle⟩ := commElems_subset_visitElement hst l
    exact List.Subset.trans hsub (ih hle)

theorem visitElement_le (hst : st.2.1 ≤ st.2.2) (points : List ℤ) :
    (points.foldl visitElement st).2.1 ≤ (points.foldl visitElement st).2.2 := by
  induction points generalizing st with
  | nil => exact hst
  | cons l points ih => exact ih (commElems_subset_visitElement hst l).2

end Visit

/-- Whatever its shape, the first elements of all components are listed. -/
theorem lower_mem_commElems {c : Csd} (hs : 0 < c.s)
    (hsorted : c.comps.Pairwise fun p q => p.1 < q.1) (hle : ∀ p ∈ c.comps, p.1 ≤ p.2)
    {p : ℤ × ℤ} (hp : p ∈ c.comps) : p.1 ∈ commElems (csd2commSet (some c)) := by
  cases hc : c.comps with
  | nil =>
    rw [hc] at hp
    cases hp
  | cons q rest =>
    obtain ⟨l0, u0⟩ := q
    have h0 : l0 ≤ u0 := hle (l0, u0) (by simp [hc])
    -- The first round of the loop visits the first elements in order.
    obtain ⟨js, hjs⟩ : ∃ js, loopValues 0 (u0 - l0 + 1) c.s = 0 :: js := by
      obtain ⟨tail, htail⟩ := visitOrder_head hc hs h0
      cases hl : loopValues 0 (u0 - l0 + 1) c.s with
      | nil => simp [visitOrder, hl] at htail
      | cons j js =>
        have hmem : (0 : ℤ) ∈ loopValues 0 (u0 - l0 + 1) c.s :=
          (mem_loopValues_of_pos hs 0).mpr ⟨le_rfl, by omega, by simp⟩
        have hj : j ∈ loopValues 0 (u0 - l0 + 1) c.s := hl ▸ List.mem_cons_self
        have hj0 := ((mem_loopValues_of_pos hs j).mp hj).1
        have hpair : (loopValues 0 (u0 - l0 + 1) c.s).Pairwise (· < ·) :=
          loopValues_pairwise_lt hs
        rw [hl] at hmem hpair
        rcases List.mem_cons.mp hmem with rfl | hmem
        · exact ⟨js, rfl⟩
        · have := (List.pairwise_cons.mp hpair).1 0 hmem
          omega
    have hfirst : (c.comps.filter fun p => p.1 + 0 ≤ p.2).map (fun p => p.1 + 0) =
        c.comps.map Prod.fst := by
      rw [List.filter_eq_self.mpr fun p hp => by simpa using hle p hp]
      simp
    have horder : visitOrder c l0 u0 = (c.comps.map Prod.fst) ++ js.flatMap fun j =>
        (c.comps.filter fun p => p.1 + j ≤ p.2).map fun p => p.1 + j := by
      rw [visitOrder, hjs, List.flatMap_cons, hfirst]
    rw [csd2commSet_eq hc, horder, List.foldl_append]
    dsimp only
    have hlt : ((rest.map Prod.fst).Pairwise (· < ·)) ∧ ∀ x ∈ rest.map Prod.fst, l0 < x := by
      rw [hc, List.pairwise_cons] at hsorted
      refine ⟨List.pairwise_map.mpr hsorted.2, fun x hx => ?_⟩
      obtain ⟨q, hq, rfl⟩ := List.mem_map.mp hx
      exact hsorted.1 q hq
    have hskip : visitElement ([], l0, l0) l0 = ([], l0, l0) := by simp [visitElement]
    have hrow : commElems (((c.comps.map Prod.fst).foldl visitElement ([], l0, l0)).1 ++
        [((c.comps.map Prod.fst).foldl visitElement ([], l0, l0)).2]) = c.comps.map Prod.fst := by
      rw [hc, List.map_cons, List.foldl_cons, hskip,
        commElems_foldl_visitElement hlt.1 le_rfl hlt.2]
      simp [commElems, loopValues_singleton]
    refine commElems_subset_foldl _ (visitElement_le le_rfl _) ?_
    rw [hrow]
    exact List.mem_map_of_mem hp

/-! ## Listing positions -/

open Classical in
/-- The positions up to `m`, in order. -/
noncomputable def positionList (m : ℤ) (P : Set ℤ) : List ℤ :=
  (loopValues 0 (m + 1) 1).filter fun k => k ∈ P

theorem mem_positionList {m : ℤ} {P : Set ℤ} (hP : ∀ k ∈ P, 0 ≤ k ∧ k ≤ m) {k : ℤ} :
    k ∈ positionList m P ↔ k ∈ P := by
  simp only [positionList, List.mem_filter, mem_loopValues_of_pos one_pos, decide_eq_true_eq]
  constructor
  · exact And.right
  · intro hk
    have := hP k hk
    exact ⟨⟨by omega, by omega, one_dvd _⟩, hk⟩

theorem positionList_pairwise (m : ℤ) (P : Set ℤ) : (positionList m P).Pairwise (· < ·) :=
  (loopValues_pairwise_lt one_pos).filter _

section Listing

variable {lb st m : ℤ} {P : Set ℤ} {C : Csd}

/-- Without positions past the end the row lists the positions in order. -/
theorem IsCommSection.commElems_eq (h : IsCommSection lb st m P C) (hst : 0 < st)
    (hP : ∀ k ∈ P, 0 ≤ k ∧ k ≤ m) :
    commElems (csd2commSet (some C)) = (positionList m P).map fun k => lb + k * st := by
  obtain ⟨L, U, hw⟩ := h.window fun k hk => (hP k hk).2
  obtain ⟨hsorted, hmem⟩ := hw.commElems_csd2commSet
  refine hsorted.eq_of_mem_iff ?_ fun x => ?_
  · refine List.pairwise_map.mpr ((positionList_pairwise m P).imp ?_)
    intro k k' hlt
    exact (scale_lt_scale hst).mpr hlt
  · rw [hmem, h.mem_iff, List.mem_map]
    simp only [mem_positionList hP]
    constructor
    · rintro ⟨k, hk, rfl⟩
      exact ⟨k, hk, rfl⟩
    · rintro ⟨k, hk, rfl⟩
      exact ⟨k, hk, rfl⟩

theorem IsCommSection.lower_mem (h : IsCommSection lb st m P C) {p : ℤ × ℤ} (hp : p ∈ C.comps) :
    p.1 ∈ commElems (csd2commSet (some C)) := by
  have hwf : ∀ q ∈ C.comps, Rsd.WF ⟨q.1, q.2, C.s⟩ := fun q hq => h.wf _ (Csd.mem_rsds hq)
  exact lower_mem_commElems (hwf p hp).pos h.sorted (fun q hq => (hwf q hq).le) hp

theorem IsCommSection.past_mem (h : IsCommSection lb st m P C) {k : ℤ} (hk : k ∈ P) (hm : m < k) :
    lb + k * st ∈ commElems (csd2commSet (some C)) := by
  obtain ⟨p, hp, heq⟩ := h.past k hk hm
  exact heq ▸ h.lower_mem hp

theorem IsCommSection.commElems_ne_nil (h : IsCommSection lb st m P C) (hne : C.comps ≠ []) :
    commElems (csd2commSet (some C)) ≠ [] := by
  obtain ⟨p, hp⟩ := List.exists_mem_of_ne_nil _ hne
  exact List.ne_nil_of_mem (h.lower_mem hp)

end Listing

/-! ## Buffers -/

/-- The order in which `_XMPC_pack_comm_set` and `_XMPC_unpack_comm_set` go through a row. -/
def packCommSet (commSet : List (List (ℤ × ℤ))) : List (List ℤ) :=
  lastFastest (commSet.map commElems)

/-- The order of `_XMPF_pack_comm_set` and `_XMPF_unpack_comm_set`. -/
def packCommSetF (commSet : List (List (ℤ × ℤ))) : List (List ℤ) :=
  firstFastest (commSet.map commElems)

/-- `counts[gmv_rank]` of `get_commbuf_size`. -/
def commbufCount (commSet : List (List (ℤ × ℤ))) : ℤ :=
  (commSet.map fun dim => (dim.map fun c => c.2 - c.1 + 1).sum).prod

theorem length_loopValues_one {l u : ℤ} (h : l ≤ u) :
    ((loopValues l (u + 1) 1).length : ℤ) = u - l + 1 := by
  induction u, h using Int.leInduction with
  | base => simp [loopValues_singleton]
  | succ u h ih =>
    rw [loopValues_succ h, List.length_append, Nat.cast_add, ih]
    simp
    omega

theorem le_of_mem_visit {st : List (ℤ × ℤ) × ℤ × ℤ} (hst : ∀ c ∈ st.1 ++ [st.2], c.1 ≤ c.2)
    (points : List ℤ) :
    ∀ c ∈ (points.foldl visitElement st).1 ++ [(points.foldl visitElement st).2],
      c.1 ≤ c.2 := by
  induction points generalizing st with
  | nil => exact hst
  | cons l points ih =>
    refine ih ?_
    have hlast := hst st.2 (by simp)
    unfold visitElement
    split_ifs with h1 h2
    · intro c hc
      rcases List.mem_append.mp hc with hc | hc
      · exact hst c (List.mem_append_left _ hc)
      · rw [List.mem_singleton.mp hc]
        dsimp only
        omega
    · exact hst
    · intro c hc
      rcases List.mem_append.mp hc with hc | hc
      · exact hst c hc
      · rw [List.mem_singleton.mp hc]

theorem le_of_mem_csd2commSet {D : Option Csd} : ∀ c ∈ csd2commSet D, c.1 ≤ c.2 := by
  cases D with
  | none => simp [csd2commSet]
  | some c =>
    cases hc : c.comps with
    | nil => simp [csd2commSet, hc]
    | cons p rest =>
      rw [csd2commSet_eq hc]
      exact le_of_mem_visit (by simp) _

theorem commbufCount_eq {commSet : List (List (ℤ × ℤ))}
    (h : ∀ dim ∈ commSet, ∀ c ∈ dim, c.1 ≤ c.2) :
    commbufCount commSet = (packCommSet commSet).length := by
  have hdim : ∀ dim ∈ commSet, (dim.map fun c => c.2 - c.1 + 1).sum =
      ((commElems dim).length : ℤ) := by
    intro dim hdim
    have hle := h dim hdim
    clear hdim
    induction dim with
    | nil => rfl
    | cons c dim ih =>
      rw [List.map_cons, List.sum_cons, ih fun c' hc => hle c' (List.mem_cons_of_mem _ hc)]
      simp [commElems, length_loopValues_one (hle c List.mem_cons_self)]
  rw [commbufCount, packCommSet, length_lastFastest, List.map_map, List.map_congr_left hdim,
    Nat.cast_list_prod, List.map_map]
  rfl

theorem packCommSet_replicate {n : ℕ} (hn : n ≠ 0) :
    packCommSet (List.replicate n []) = [] ∧ packCommSetF (List.replicate n []) = [] := by
  have hmem : ([] : List ℤ) ∈ (List.replicate n ([] : List (ℤ × ℤ))).map commElems := by
    simp [hn, commElems]
  exact ⟨lastFastest_of_nil_mem hmem, firstFastest_of_nil_mem hmem⟩

/-! ## The element a packed element is stored to -/

/-- The index tuple of the reference `refs0` that corresponds to the tuple of the other
reference given with its triplets. -/
def imageIndex : List Triplet → List (Triplet × ℤ) → List ℤ
  | [], _ => []
  | t0 :: refs0, xs1 =>
    if t0.st = 0 then t0.lb :: imageIndex refs0 xs1
    else
      match xs1.dropWhile fun x1 => x1.1.st = 0 with
      | [] => []
      | (t1, x) :: rest1 => (((x - t1.lb) * t0.st).tdiv t1.st + t0.lb) :: imageIndex refs0 rest1

theorem imageIndex_cons_scalar {t1 : Triplet} (h1 : t1.st = 0) (x : ℤ) (refs0 : List Triplet)
    (xs1 : List (Triplet × ℤ)) : imageIndex refs0 ((t1, x) :: xs1) = imageIndex refs0 xs1 := by
  induction refs0 with
  | nil => rfl
  | cons t0 refs0 ih =>
    rw [imageIndex, imageIndex, ih, List.dropWhile_cons_of_pos (by simpa using h1)]

theorem imageIndex_cons_both {t0 t1 : Triplet} (h0 : t0.st ≠ 0) (h1 : t1.st ≠ 0) (k : ℤ)
    (refs0 : List Triplet) (xs1 : List (Triplet × ℤ)) :
    imageIndex (t0 :: refs0) ((t1, t1.index k) :: xs1) = t0.index k :: imageIndex refs0 xs1 := by
  have himage : ((t1.index k - t1.lb) * t0.st).tdiv t1.st + t0.lb = t0.index k := by
    simp only [Triplet.index, Triplet.rsd_of_ne h0, Triplet.rsd_of_ne h1]
    rw [add_sub_cancel_left, mul_right_comm, Int.mul_tdiv_cancel _ h1, add_comm]
  rw [imageIndex, if_neg h0, List.dropWhile_cons_of_neg (by simpa using h1)]
  dsimp only
  rw [himage]

end OmniCompiler.Xmp
