import Mathlib.Data.List.ProdSigma
import OmniCompiler.Xmp.SectionDesc

/-!
# Common section descriptors (`xmp_section_desc.c`)

A common section descriptor is a union of sections with one stride. `intersection_csds`
intersects all pairs of components and keeps the results sorted in an array allocated for
`MAX(n1, n2)` of them; a store past that array is an error here.
-/
namespace OmniCompiler.Xmp

open MachineInt ForLoop Progression

/-- `_XMP_csd_t`. The arrays `l` and `u` are one list of pairs and `n` is its length. -/
structure Csd where
  comps : List (ℤ × ℤ)
  s : ℤ
  deriving DecidableEq, Repr

namespace Csd

def n (c : Csd) : ℕ := c.comps.length

def rsds (c : Csd) : List Rsd := c.comps.map fun p => ⟨p.1, p.2, c.s⟩

def elems (c : Csd) : Set ℤ := {x | ∃ r ∈ c.rsds, x ∈ r.elems}

/-- Sorted by lower bound. -/
def Sorted (c : Csd) : Prop := c.comps.Pairwise fun p q => p.1 ≤ q.1

/-- Components are sections with pairwise different residues. -/
structure WF (c : Csd) : Prop where
  comp : ∀ r ∈ c.rsds, r.WF
  residue : ∀ r ∈ c.rsds, ∀ r' ∈ c.rsds, c.s ∣ r'.l - r.l → r' = r

/-- No pair of components leaves the range of `int`. -/
def FitsWith (c1 c2 : Csd) : Prop := ∀ r1 ∈ c1.rsds, ∀ r2 ∈ c2.rsds, r1.FitsWith r2

end Csd

/-- `_XMP_bsd_t`: blocks of `b` every `c`. -/
structure Bsd where
  l : ℤ
  u : ℤ
  b : ℤ
  c : ℤ
  deriving DecidableEq, Repr

def rsd2csd (rsd : Option Rsd) : Option Csd := rsd.map fun rsd => ⟨[(rsd.l, rsd.u)], rsd.s⟩

def bsd2csd (bsd : Option Bsd) : Option Csd :=
  bsd.map fun bsd => ⟨(List.range bsd.b.toNat).map fun i : ℕ =>
    let l : ℤ := bsd.l + (i : ℤ)
    let t := (bsd.u - l).tdiv bsd.c
    (l, l + bsd.c * t), bsd.c⟩

def LowerGe (p q : ℤ × ℤ) : Prop := q.1 ≤ p.1

instance : DecidableRel LowerGe := fun p q => inferInstanceAs (Decidable (q.1 ≤ p.1))

instance : Std.Total LowerGe := ⟨fun p q => le_total q.1 p.1⟩

instance : IsTrans (ℤ × ℤ) LowerGe := ⟨fun _ _ _ h h' => le_trans h' h⟩

/-- The indices at which the exchange loop reads `l`, for an array kept in reverse. The loop tests
`l[p-1]` before `p > 0`, so it reads `l[-1]` when the new component comes to stand first. -/
def bubbleReads (tmp : Rsd) : List (ℤ × ℤ) → List ℤ
  | [] => [-1]
  | p :: l => (l.length : ℤ) :: if p.1 > tmp.l then bubbleReads tmp l else []

/-- Store at index `k` and bubble down. The array is kept in reverse, so the loop that
exchanges the new component with larger predecessors is an ordered insertion: what it reads at
`-1` is not used. -/
def storeComponent (capacity : ℕ) (csd0 : List (ℤ × ℤ) × ℤ) (tmp : Rsd) :
    Except String (List (ℤ × ℤ) × ℤ) :=
  if csd0.1.length < capacity then
    .ok (csd0.1.orderedInsert LowerGe (tmp.l, tmp.u), tmp.s)
  else .error "component stored past the end of the array"

/-- The stride of an empty result is never assigned; it is `0` here. -/
def intersectionCsds (csd1 csd2 : Option Csd) : Except String (Option Csd) :=
  match csd1, csd2 with
  | some csd1, some csd2 => do
    let csd0 ← (csd1.rsds.product csd2.rsds).foldlM (fun csd0 pair =>
      match intersectionRsds (some pair.1) (some pair.2) with
      | some tmp => storeComponent (max csd1.n csd2.n) csd0 tmp
      | none => .ok csd0) ([], 0)
    .ok (some ⟨csd0.1.reverse, csd0.2⟩)
  | _, _ => .ok none

/-- The first store reads outside the array, and so does every store of a least component. -/
theorem neg_one_mem_bubbleReads {tmp : Rsd} {l : List (ℤ × ℤ)} :
    -1 ∈ bubbleReads tmp l ↔ ∀ p ∈ l, p.1 > tmp.l := by
  induction l with
  | nil => simp [bubbleReads]
  | cons p l ih =>
    have hne : (-1 : ℤ) ≠ l.length := by omega
    rw [bubbleReads, List.mem_cons, List.forall_mem_cons, ← ih, or_iff_right hne]
    split_ifs with h <;> simp [h]

/-! ## The stored components -/

/-- The sections returned for the pairs of components, in the order of the loops. -/
def crossHits (c1 c2 : Csd) : List Rsd :=
  (c1.rsds.product c2.rsds).filterMap fun p => intersectionRsds (some p.1) (some p.2)

theorem foldlM_storeComponent {capacity : ℕ} (hits : List Rsd) {csd0 : List (ℤ × ℤ) × ℤ}
    (hle : csd0.1.length ≤ capacity) :
    hits.foldlM (storeComponent capacity) csd0 =
      if csd0.1.length + hits.length ≤ capacity then
        .ok (hits.foldl (fun l r => l.orderedInsert LowerGe (r.l, r.u)) csd0.1,
          hits.foldl (fun _ r => r.s) csd0.2)
      else .error "component stored past the end of the array" := by
  induction hits generalizing csd0 with
  | nil =>
    rw [List.length_nil, add_zero, if_pos hle]
    rfl
  | cons r hits ih =>
    rw [List.foldlM_cons, storeComponent, List.length_cons]
    by_cases hlt : csd0.1.length < capacity
    · rw [if_pos hlt]
      have hlen := List.orderedInsert_length LowerGe csd0.1 (r.l, r.u)
      have hrest := @ih (csd0.1.orderedInsert LowerGe (r.l, r.u), r.s)
        (by dsimp only; omega)
      rw [hlen, add_assoc, add_comm 1] at hrest
      exact hrest
    · rw [if_neg hlt, if_neg (by omega)]
      rfl

theorem foldlM_pairs (capacity : ℕ) (pairs : List (Rsd × Rsd)) (csd0 : List (ℤ × ℤ) × ℤ) :
    pairs.foldlM (fun csd0 pair => match intersectionRsds (some pair.1) (some pair.2) with
        | some tmp => storeComponent capacity csd0 tmp
        | none => .ok csd0) csd0 =
      (pairs.filterMap fun p => intersectionRsds (some p.1) (some p.2)).foldlM
        (storeComponent capacity) csd0 := by
  induction pairs generalizing csd0 with
  | nil => rfl
  | cons p pairs ih =>
    rw [List.foldlM_cons, List.filterMap_cons]
    cases intersectionRsds (some p.1) (some p.2) with
    | none => exact ih csd0
    | some tmp =>
      dsimp only
      rw [List.foldlM_cons]
      exact congrArg _ (funext fun csd0 => ih csd0)

def sortedCsd (hits : List Rsd) : Csd :=
  ⟨(hits.foldl (fun l r => l.orderedInsert LowerGe (r.l, r.u)) []).reverse,
    hits.foldl (fun _ r => r.s) 0⟩

theorem intersectionCsds_eq (c1 c2 : Csd) :
    intersectionCsds (some c1) (some c2) =
      if (crossHits c1 c2).length ≤ max c1.n c2.n then .ok (some (sortedCsd (crossHits c1 c2)))
      else .error "component stored past the end of the array" := by
  have hfold := @foldlM_storeComponent (max c1.n c2.n) (crossHits c1 c2) ([], 0) (Nat.zero_le _)
  rw [crossHits, ← foldlM_pairs, ← crossHits, List.length_nil, zero_add] at hfold
  rw [intersectionCsds, hfold]
  split_ifs <;> rfl

/-! ## Soundness of the stored components -/

theorem perm_foldl_orderedInsert (hits : List Rsd) (l : List (ℤ × ℤ)) :
    (hits.foldl (fun l r => l.orderedInsert LowerGe (r.l, r.u)) l).Perm
      (hits.map (fun r => (r.l, r.u)) ++ l) := by
  induction hits generalizing l with
  | nil => exact List.Perm.refl _
  | cons r hits ih =>
    refine (ih _).trans ?_
    refine ((List.perm_orderedInsert LowerGe (r.l, r.u) l).append_left _).trans ?_
    exact List.perm_middle

theorem sorted_foldl_orderedInsert (hits : List Rsd) {l : List (ℤ × ℤ)} (hl : l.Pairwise LowerGe) :
    (hits.foldl (fun l r => l.orderedInsert LowerGe (r.l, r.u)) l).Pairwise LowerGe := by
  induction hits generalizing l with
  | nil => exact hl
  | cons r hits ih => exact ih (hl.orderedInsert _ _)

theorem sortedCsd_sorted (hits : List Rsd) : (sortedCsd hits).Sorted :=
  List.pairwise_reverse.mpr (sorted_foldl_orderedInsert hits List.Pairwise.nil)

theorem foldl_stride {hits : List Rsd} {s : ℤ} (hs : ∀ r ∈ hits, r.s = s) (s0 : ℤ)
    (hne : hits ≠ []) : hits.foldl (fun _ r => r.s) s0 = s := by
  induction hits generalizing s0 with
  | nil => exact absurd rfl hne
  | cons r hits ih =>
    rw [List.foldl_cons]
    cases hits with
    | nil => exact hs r (by simp)
    | cons r' hits => exact ih (fun r'' h => hs r'' (by simp [h])) _ (by simp)

theorem mem_sortedCsd_rsds {hits : List Rsd} {s : ℤ} (hs : ∀ r ∈ hits, r.s = s) (r : Rsd) :
    r ∈ (sortedCsd hits).rsds ↔ r ∈ hits := by
  have hperm := perm_foldl_orderedInsert hits []
  rw [List.append_nil] at hperm
  have hmem : ∀ p, p ∈ (sortedCsd hits).comps ↔ ∃ r ∈ hits, (r.l, r.u) = p := fun p => by
    rw [sortedCsd, List.mem_reverse, hperm.mem_iff, List.mem_map]
  simp only [Csd.rsds, List.mem_map, hmem]
  constructor
  · rintro ⟨p, ⟨r', hr', rfl⟩, rfl⟩
    have hst : (sortedCsd hits).s = r'.s := by
      rw [hs r' hr']
      exact foldl_stride hs 0 (List.ne_nil_of_mem hr')
    rwa [hst]
  · intro hr
    refine ⟨_, ⟨r, hr, rfl⟩, ?_⟩
    have hst : (sortedCsd hits).s = r.s := by
      rw [hs r hr]
      exact foldl_stride hs 0 (List.ne_nil_of_mem hr)
    rw [hst]

theorem mem_crossHits {c1 c2 : Csd} {r0 : Rsd} : r0 ∈ crossHits c1 c2 ↔
    ∃ r1 ∈ c1.rsds, ∃ r2 ∈ c2.rsds, intersectionRsds (some r1) (some r2) = some r0 := by
  simp only [crossHits, List.mem_filterMap, Prod.exists, List.pair_mem_product]
  constructor
  · rintro ⟨r1, r2, ⟨h1, h2⟩, h⟩
    exact ⟨r1, h1, r2, h2, h⟩
  · rintro ⟨r1, h1, r2, h2, h⟩
    exact ⟨r1, r2, ⟨h1, h2⟩, h⟩

/-! ## Descriptors the runtime produces -/

/-- The ways of building a common section descriptor. A `bsd` has at most one block in a
period and ends less than a period before its first block does. -/
inductive Produced : Csd → Prop
  | rsd {r : Rsd} {c : Csd} (hr : r.WF) (h : rsd2csd (some r) = some c) : Produced c
  | bsd {b : Bsd} {c : Csd} (hb : 1 ≤ b.b) (hbc : b.b ≤ b.c) (hu : b.l + b.b ≤ b.u + b.c)
      (h : bsd2csd (some b) = some c) : Produced c
  | intersection {c1 c2 c : Csd} (h1 : Produced c1) (h2 : Produced c2) (hfit : c1.FitsWith c2)
      (h : intersectionCsds (some c1) (some c2) = .ok (some c)) : Produced c

theorem bsd2csd_wf {b : Bsd} {c : Csd} (hb : 1 ≤ b.b) (hbc : b.b ≤ b.c)
    (hu : b.l + b.b ≤ b.u + b.c) (h : bsd2csd (some b) = some c) : c.WF := by
  cases h
  have hmem : ∀ r, r ∈ Csd.rsds ⟨(List.range b.b.toNat).map fun i : ℕ =>
      (b.l + (i : ℤ), b.l + (i : ℤ) + b.c * (b.u - (b.l + (i : ℤ))).tdiv b.c), b.c⟩ →
      ∃ i : ℕ, (i : ℤ) < b.b ∧ r = ⟨b.l + i, b.l + i + b.c * (b.u - (b.l + i)).tdiv b.c, b.c⟩ := by
    intro r hr
    simp only [Csd.rsds, List.map_map, List.mem_map, List.mem_range, Function.comp] at hr
    obtain ⟨i, hi, rfl⟩ := hr
    exact ⟨i, by omega, rfl⟩
  constructor
  · intro r hr
    obtain ⟨i, hi, rfl⟩ := hmem r hr
    have ht : 0 ≤ (b.u - (b.l + i)).tdiv b.c := by
      rcases le_or_gt 0 (b.u - (b.l + i)) with h0 | h0
      · exact Int.tdiv_nonneg h0 (by omega)
      · rw [← neg_neg (b.u - (b.l + i)), Int.neg_tdiv,
          Int.tdiv_eq_zero_of_lt (by omega) (by omega), neg_zero]
    have := mul_nonneg (show 0 ≤ b.c by omega) ht
    exact ⟨by dsimp only; omega, by dsimp only; omega⟩
  · intro r hr r' hr' hd
    obtain ⟨i, hi, rfl⟩ := hmem r hr
    obtain ⟨i', hi', rfl⟩ := hmem r' hr'
    dsimp only at hd
    have hii : (i' : ℤ) = i := by
      have := Int.eq_zero_of_abs_lt_dvd hd (abs_lt.mpr ⟨by omega, by omega⟩)
      omega
    rw [hii]

theorem crossHits_isIntersection {c1 c2 : Csd} (h1 : c1.WF) (h2 : c2.WF)
    (hfit : c1.FitsWith c2) {r1 r2 r0 : Rsd} (hr1 : r1 ∈ c1.rsds) (hr2 : r2 ∈ c2.rsds)
    (h : intersectionRsds (some r1) (some r2) = some r0) : IsIntersection r1 r2 r0 :=
  intersectionRsds_isIntersection (h1.comp r1 hr1) (h2.comp r2 hr2) (hfit r1 hr1 r2 hr2) h

theorem Csd.s_of_mem {c : Csd} {r : Rsd} (hr : r ∈ c.rsds) : r.s = c.s := by
  obtain ⟨p, -, rfl⟩ := List.mem_map.mp hr
  rfl

theorem crossHits_stride {c1 c2 : Csd} (h1 : c1.WF) (h2 : c2.WF) (hfit : c1.FitsWith c2) :
    ∀ r ∈ crossHits c1 c2, r.s = lcm c1.s c2.s := by
  intro r0 hr0
  obtain ⟨r1, hr1, r2, hr2, h⟩ := mem_crossHits.mp hr0
  rw [(crossHits_isIntersection h1 h2 hfit hr1 hr2 h).stride, Csd.s_of_mem hr1, Csd.s_of_mem hr2]

theorem crossHits_residue {c1 c2 : Csd} (h1 : c1.WF) (h2 : c2.WF) {r1 r2 r0 r1' r2' r0' : Rsd}
    (hr1 : r1 ∈ c1.rsds) (hr2 : r2 ∈ c2.rsds) (hr1' : r1' ∈ c1.rsds) (hr2' : r2' ∈ c2.rsds)
    (h : IsIntersection r1 r2 r0) (hd1 : c1.s ∣ r0'.l - r1'.l) (hd2 : c2.s ∣ r0'.l - r2'.l)
    (hd : c1.s ∣ r0'.l - r0.l ∧ c2.s ∣ r0'.l - r0.l) : r1' = r1 ∧ r2' = r2 := by
  have e1 := h.congr₁
  have e2 := h.congr₂
  rw [Csd.s_of_mem hr1] at e1
  rw [Csd.s_of_mem hr2] at e2
  constructor
  · refine h1.residue r1 hr1 r1' hr1' ?_
    have := dvd_sub (dvd_add hd.1 e1) hd1
    rwa [sub_add_sub_cancel, sub_sub_sub_cancel_left] at this
  · refine h2.residue r2 hr2 r2' hr2' ?_
    have := dvd_sub (dvd_add hd.2 e2) hd2
    rwa [sub_add_sub_cancel, sub_sub_sub_cancel_left] at this

theorem sortedCsd_wf {c1 c2 : Csd} (h1 : c1.WF) (h2 : c2.WF) (hfit : c1.FitsWith c2) :
    (sortedCsd (crossHits c1 c2)).WF := by
  have hstride := crossHits_stride h1 h2 hfit
  have hmem := mem_sortedCsd_rsds hstride
  constructor
  · intro r hr
    obtain ⟨r1, hr1, r2, hr2, h⟩ := mem_crossHits.mp ((hmem r).mp hr)
    exact (crossHits_isIntersection h1 h2 hfit hr1 hr2 h).wf
  · intro r hr r' hr' hd
    rw [← Csd.s_of_mem hr, hstride r ((hmem r).mp hr)] at hd
    obtain ⟨r1, hr1, r2, hr2, h⟩ := mem_crossHits.mp ((hmem r).mp hr)
    obtain ⟨r1', hr1', r2', hr2', h'⟩ := mem_crossHits.mp ((hmem r').mp hr')
    have hi := crossHits_isIntersection h1 h2 hfit hr1 hr2 h
    have hi' := crossHits_isIntersection h1 h2 hfit hr1' hr2' h'
    have e1 := hi'.congr₁
    have e2 := hi'.congr₂
    rw [Csd.s_of_mem hr1'] at e1
    rw [Csd.s_of_mem hr2'] at e2
    have hp1 : 0 < c1.s := Csd.s_of_mem hr1 ▸ (h1.comp r1 hr1).pos
    have hp2 : 0 < c2.s := Csd.s_of_mem hr2 ▸ (h2.comp r2 hr2).pos
    have hprod : InInt (c1.s * c2.s) :=
      Csd.s_of_mem hr1 ▸ Csd.s_of_mem hr2 ▸ (hfit r1 hr1 r2 hr2).product
    obtain ⟨rfl, rfl⟩ := crossHits_residue h1 h2 hr1 hr2 hr1' hr2' hi e1 e2
      ((lcm_dvd_iff hp2 hprod).mp hd)
    rw [h] at h'
    exact (Option.some.inj h').symm

theorem Produced.wf {c : Csd} (h : Produced c) : c.WF := by
  induction h with
  | rsd hr h =>
    cases h
    constructor
    · simpa [Csd.rsds] using hr
    · simp [Csd.rsds]
  | bsd hb hbc hu h => exact bsd2csd_wf hb hbc hu h
  | intersection _ _ hfit h ih1 ih2 =>
    rw [intersectionCsds_eq] at h
    split_ifs at h
    cases h
    exact sortedCsd_wf ih1 ih2 hfit

/-! ## The intersection of two descriptors -/

/-- Number of pairs of components with a common element. -/
def meetCount (c1 c2 : Csd) : ℕ := (c1.rsds.product c2.rsds).countP fun p => p.1.Meets p.2

/-- No store leaves the array, and the result is sorted and denotes the intersection. -/
def IntersectsWithin (c1 c2 : Csd) : Prop :=
  ∃ c, intersectionCsds (some c1) (some c2) = .ok (some c) ∧ c.Sorted ∧
    c.elems = c1.elems ∩ c2.elems

theorem sortedCsd_elems {c1 c2 : Csd} (h1 : c1.WF) (h2 : c2.WF) (hfit : c1.FitsWith c2) (x : ℤ) :
    x ∈ (sortedCsd (crossHits c1 c2)).elems ↔ ∃ r0 ∈ crossHits c1 c2, x ∈ r0.elems := by
  simp only [Csd.elems, Set.mem_ofPred_eq, mem_sortedCsd_rsds (crossHits_stride h1 h2 hfit)]

theorem length_crossHits {c1 c2 : Csd} (h1 : c1.WF) (h2 : c2.WF) (hfit : c1.FitsWith c2)
    (hph : ∀ r1 ∈ c1.rsds, ∀ r2 ∈ c2.rsds, ¬ r1.Phantom r2) :
    (crossHits c1 c2).length = meetCount c1 c2 := by
  rw [crossHits, List.length_filterMap_eq_countP, meetCount]
  refine List.countP_congr fun p hp => ?_
  obtain ⟨hp1, hp2⟩ := List.pair_mem_product.mp (show (p.1, p.2) ∈ c1.rsds.product c2.rsds from hp)
  have hnone := intersectionRsds_eq_none_iff (h1.comp _ hp1) (h2.comp _ hp2) (hfit _ hp1 _ hp2)
  rw [decide_eq_true_eq, Option.isSome_iff_ne_none, ne_eq, hnone, not_not]
  simp [hph _ hp1 _ hp2]

theorem sortedCsd_elems_eq {c1 c2 : Csd} (h1 : c1.WF) (h2 : c2.WF) (hfit : c1.FitsWith c2)
    (hph : ∀ r1 ∈ c1.rsds, ∀ r2 ∈ c2.rsds, ¬ r1.Phantom r2) :
    (sortedCsd (crossHits c1 c2)).elems = c1.elems ∩ c2.elems := by
  ext x
  rw [sortedCsd_elems h1 h2 hfit]
  constructor
  · rintro ⟨r0, hr0, hx⟩
    obtain ⟨r1, hr1, r2, hr2, h⟩ := mem_crossHits.mp hr0
    have hi := crossHits_isIntersection h1 h2 hfit hr1 hr2 h
    have hmeet : r1.Meets r2 := by
      by_contra hm
      have := (intersectionRsds_eq_none_iff (h1.comp _ hr1) (h2.comp _ hr2) (hfit _ hr1 _ hr2)).mpr
        (by simp [hm, hph _ hr1 _ hr2])
      rw [h] at this
      cases this
    rw [hi.meets hmeet] at hx
    exact ⟨⟨r1, hr1, hx.1⟩, r2, hr2, hx.2⟩
  · rintro ⟨⟨r1, hr1, hx1⟩, r2, hr2, hx2⟩
    have hmeet : r1.Meets r2 := ⟨x, hx1, hx2⟩
    cases h : intersectionRsds (some r1) (some r2) with
    | none =>
      exact absurd (Or.inl hmeet)
        ((intersectionRsds_eq_none_iff (h1.comp _ hr1) (h2.comp _ hr2) (hfit _ hr1 _ hr2)).mp h)
    | some r0 =>
      refine ⟨r0, mem_crossHits.mpr ⟨r1, hr1, r2, hr2, h⟩, ?_⟩
      rw [(crossHits_isIntersection h1 h2 hfit hr1 hr2 h).meets hmeet]
      exact ⟨hx1, hx2⟩

/-- A phantom component is outside the intersection: its residues belong to the pair that
produced it. -/
theorem phantom_not_mem {c1 c2 : Csd} (h1 : c1.WF) (h2 : c2.WF) {r1 r2 r0 : Rsd}
    (hr1 : r1 ∈ c1.rsds) (hr2 : r2 ∈ c2.rsds) (hm : ¬ r1.Meets r2) (h : IsIntersection r1 r2 r0) :
    r0.l ∉ c1.elems ∩ c2.elems := by
  rintro ⟨⟨r1', hr1', hx1⟩, r2', hr2', hx2⟩
  have e1 := hx1.2.2
  have e2 := hx2.2.2
  rw [Csd.s_of_mem hr1'] at e1
  rw [Csd.s_of_mem hr2'] at e2
  have hself : c1.s ∣ r0.l - r0.l ∧ c2.s ∣ r0.l - r0.l := by simp
  obtain ⟨rfl, rfl⟩ := crossHits_residue h1 h2 hr1 hr2 hr1' hr2' h e1 e2 hself
  exact hm ⟨r0.l, hx1, hx2⟩

end OmniCompiler.Xmp
