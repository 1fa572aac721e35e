import OmniCompiler.Xmp.CommSet

/-!
# Intervals of a communication set (`xmp_section_desc.c`)

`csd2comm_set` visits the elements in increasing order. An element extends the last interval, lies
in it already, or opens the next one; an interval opens only past a gap.
-/
namespace OmniCompiler.Xmp

open MachineInt ForLoop Progression

/-- The indices of a list of intervals. -/
def Covers (intervals : List (ℤ × ℤ)) (x : ℤ) : Prop := ∃ i ∈ intervals, i.1 ≤ x ∧ x ≤ i.2

/-- Increasing intervals, not empty and with a gap between any two. -/
structure Separated (intervals : List (ℤ × ℤ)) : Prop where
  nonempty : ∀ i ∈ intervals, i.1 ≤ i.2
  gap : intervals.Pairwise fun i j => i.2 + 1 < j.1

theorem covers_append {l l' : List (ℤ × ℤ)} {x : ℤ} :
    Covers (l ++ l') x ↔ Covers l x ∨ Covers l' x := by
  simp only [Covers, List.mem_append, or_and_right, exists_or]

theorem covers_singleton {i : ℤ × ℤ} {x : ℤ} : Covers [i] x ↔ i.1 ≤ x ∧ x ≤ i.2 := by
  simp [Covers]

theorem separated_append_singleton {l : List (ℤ × ℤ)} {i : ℤ × ℤ} :
    Separated (l ++ [i]) ↔ Separated l ∧ (∀ j ∈ l, j.2 + 1 < i.1) ∧ i.1 ≤ i.2 := by
  constructor
  · rintro ⟨hne, hgap⟩
    obtain ⟨hl, -, hlast⟩ := List.pairwise_append.mp hgap
    exact ⟨⟨fun j hj => hne j (by simp [hj]), hl⟩, fun j hj => hlast j hj i (by simp),
      hne i (by simp)⟩
  · rintro ⟨⟨hne, hgap⟩, hlast, hi⟩
    refine ⟨fun j hj => ?_, ?_⟩
    · rcases List.mem_append.mp hj with hj | hj
      · exact hne j hj
      · rw [List.mem_singleton.mp hj]
        exact hi
    · refine List.pairwise_append.mpr ⟨hgap, List.pairwise_singleton _ _, fun j hj k hk => ?_⟩
      rw [List.mem_singleton.mp hk]
      exact hlast j hj

/-! ## One element -/

theorem visitElement_spec {st : List (ℤ × ℤ) × ℤ × ℤ} (h : Separated (st.1 ++ [st.2])) {l : ℤ}
    (hl : st.2.2 ≤ l) :
    Separated ((visitElement st l).1 ++ [(visitElement st l).2]) ∧ (visitElement st l).2.2 = l ∧
      ∀ x, Covers ((visitElement st l).1 ++ [(visitElement st l).2]) x ↔
        Covers (st.1 ++ [st.2]) x ∨ x = l := by
  obtain ⟨hfront, hgap, hlast⟩ := separated_append_singleton.mp h
  unfold visitElement
  split_ifs with hnext hin
  · refine ⟨separated_append_singleton.mpr ⟨hfront, hgap, by dsimp only; omega⟩, rfl, fun x => ?_⟩
    simp only [covers_append, covers_singleton, or_assoc]
    refine or_congr_right ?_
    omega
  · have heq : l = st.2.2 := by omega
    refine ⟨h, heq.symm, fun x => ?_⟩
    simp only [covers_append, covers_singleton, or_assoc]
    refine or_congr_right ?_
    omega
  · refine ⟨separated_append_singleton.mpr ⟨h, fun j hj => ?_, le_rfl⟩, rfl, fun x => ?_⟩
    · rcases List.mem_append.mp hj with hj | hj
      · have := hgap j hj
        dsimp only
        omega
      · rw [List.mem_singleton.mp hj]
        dsimp only
        omega
    · rw [@covers_append _ [(l, l)], covers_singleton]
      refine or_congr_right ?_
      dsimp only
      omega

theorem foldl_visitElement_spec {points : List ℤ} (hp : points.Pairwise (· ≤ ·))
    {st : List (ℤ × ℤ) × ℤ × ℤ} (h : Separated (st.1 ++ [st.2])) (hle : ∀ x ∈ points, st.2.2 ≤ x) :
    Separated ((points.foldl visitElement st).1 ++ [(points.foldl visitElement st).2]) ∧
      ∀ x, Covers ((points.foldl visitElement st).1 ++ [(points.foldl visitElement st).2]) x ↔
        Covers (st.1 ++ [st.2]) x ∨ x ∈ points := by
  induction points generalizing st with
  | nil => exact ⟨h, fun x => by simp⟩
  | cons l points ih =>
    obtain ⟨hl, hrest⟩ := List.pairwise_cons.mp hp
    obtain ⟨hsep, hlast, hcovers⟩ := visitElement_spec h (hle l (by simp))
    obtain ⟨hsep', hcovers'⟩ := ih hrest hsep (fun y hy => by rw [hlast]; exact hl y hy)
    refine ⟨hsep', fun x => ?_⟩
    rw [List.foldl_cons, hcovers' x, hcovers x, List.mem_cons, or_assoc]

/-! ## The whole descriptor -/

/-- The components are cut at `U`: not empty, and each ends at its last element up to `U`. -/
def Csd.CutAt (c : Csd) (U : ℤ) : Prop :=
  ∀ p ∈ c.comps, p.1 ≤ p.2 ∧ c.s ∣ p.2 - p.1 ∧ p.2 ≤ U ∧ U < p.2 + c.s

theorem Csd.full_of_cutAt {c : Csd} {l0 u0 U : ℤ} {rest : List (ℤ × ℤ)}
    (hc : c.comps = (l0, u0) :: rest) (hsorted : c.Sorted) (hwindow : ∀ p ∈ c.comps, p.1 < l0 + c.s)
    (hcut : c.CutAt U) : ∀ r ∈ c.rsds, r.Full l0 U := by
  intro r hr
  obtain ⟨p, hp, rfl⟩ := List.mem_map.mp hr
  have hpos : 0 < c.s := by
    have := hwindow (l0, u0) (by simp [hc])
    dsimp only at this
    omega
  have hlow : l0 ≤ p.1 := by
    rw [Csd.Sorted, hc] at hsorted
    rw [hc] at hp
    rcases List.mem_cons.mp hp with rfl | hp
    · exact le_rfl
    · exact (List.pairwise_cons.mp hsorted).1 p hp
  obtain ⟨h1, h2, h3, h4⟩ := hcut p hp
  exact ⟨⟨hpos, h1⟩, h2, hlow, hwindow p hp, h3, h4⟩

/-- The range of `int` for the walk; its integers are exact. -/
structure Csd.WalkFits (c : Csd) (l0 u0 : ℤ) : Prop where
  first : InInt l0
  past : InInt (u0 + c.s)
  span : InInt (u0 - l0 + c.s)
  comp : ∀ p ∈ c.comps, InInt p.1 ∧ InInt (p.1 + (u0 - l0)) ∧ InInt (p.2 + 1)

theorem walk_inInt {c : Csd} {l0 u0 : ℤ} (h : c.WalkFits l0 u0) (hs : 0 < c.s) {j : ℤ}
    (hj : j ∈ loopValues 0 (u0 - l0 + 1) c.s) : InInt (j + c.s) ∧ InInt (l0 + (j + c.s)) ∧
      ∀ p ∈ c.comps, InInt (p.1 + j) ∧ (p.1 + j ≤ p.2 → InInt (p.1 + j + 1)) := by
  have hfirst := h.first
  have hpast := h.past
  have hspan := h.span
  obtain ⟨h0, hlt, -⟩ := (mem_loopValues_of_pos hs j).mp hj
  unfold InInt at *
  refine ⟨by omega, by omega, fun p hp => ?_⟩
  obtain ⟨hlow, hhigh, hnext⟩ := h.comp p hp
  unfold InInt at *
  exact ⟨by omega, by omega⟩

/-- A sorted descriptor within one stride, cut at a common bound, becomes increasing intervals with
gaps between them, which cover its elements. -/
theorem csd2commSet_separated (c : Csd) (l0 u0 U : ℤ) (rest : List (ℤ × ℤ))
    (hc : c.comps = (l0, u0) :: rest) (hsorted : c.Sorted) (hwindow : ∀ p ∈ c.comps, p.1 < l0 + c.s)
    (hcut : c.CutAt U) :
    Separated (csd2commSet (some c)) ∧ ∀ x, Covers (csd2commSet (some c)) x ↔ x ∈ c.elems := by
  have hfull := Csd.full_of_cutAt hc hsorted hwindow hcut
  have h0 := hfull ⟨l0, u0, c.s⟩ (@Csd.mem_rsds c (l0, u0) (by simp [hc]))
  have hfirst : ∀ p ∈ rest, l0 ≤ p.1 := by
    rw [Csd.Sorted, hc] at hsorted
    exact (List.pairwise_cons.mp hsorted).1
  have hp := Csd.pairwise_visitOrder hfull h0.wf.pos hsorted
    (fun _ _ j h => Int.add_le_add_right h j) (fun _ _ => le_of_lt) l0 u0
  obtain ⟨tail, htail⟩ := visitOrder_head hc h0.wf.pos h0.wf.le
  have hstart : Separated (([] : List (ℤ × ℤ)) ++ [(l0, l0)]) :=
    ⟨fun i hi => by simp at hi; simp [hi], List.pairwise_singleton _ _⟩
  have hle : ∀ x ∈ visitOrder c l0 u0, l0 ≤ x := by
    rw [htail] at hp ⊢
    intro x hx
    rcases List.mem_cons.mp hx with rfl | hx
    · exact le_rfl
    · exact (List.pairwise_cons.mp hp).1 x hx
  obtain ⟨hsep, hcovers⟩ := @foldl_visitElement_spec _ hp ([], l0, l0) hstart hle
  rw [csd2commSet_eq hc]
  refine ⟨hsep, fun x => (hcovers x).trans ?_⟩
  rw [← Csd.mem_visitOrder hfull hc hfirst x, List.nil_append, covers_singleton]
  refine or_iff_right_of_imp fun hx => ?_
  have heq : x = l0 := le_antisymm hx.2 hx.1
  rw [heq, htail]
  exact List.mem_cons_self

/-- The indices `1, 2, 4, 5, 7` in two components. -/
theorem csd2commSet_separated_three :
    Separated (csd2commSet (some ⟨[(1, 7), (2, 5)], 3⟩)) ∧
      ∀ x, Covers (csd2commSet (some ⟨[(1, 7), (2, 5)], 3⟩)) x ↔
        x ∈ Csd.elems ⟨[(1, 7), (2, 5)], 3⟩ :=
  csd2commSet_separated ⟨[(1, 7), (2, 5)], 3⟩ 1 7 7 [(2, 5)] rfl
    (by simp [Csd.Sorted]) (by simp) (by simp [Csd.CutAt])

end OmniCompiler.Xmp
