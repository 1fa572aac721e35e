import OmniCompiler.Xmp.CommonSection

/-!
# Communication sets (`xmp_section_desc.c`)

`csd2comm_set` turns a common section descriptor into a list of intervals. It steps all
components together, as long as the first one lasts. The elements come out complete and in
order when every component is the whole residue class of one common range; intersection
keeps that form.
-/
namespace OmniCompiler.Xmp

open MachineInt ForLoop Progression

/-! ## Whole residue classes of a range -/

/-- The residue class of `r` inside `L, …, U`. -/
structure Rsd.Full (r : Rsd) (L U : ℤ) : Prop where
  wf : r.WF
  normal : r.s ∣ r.u - r.l
  lower : L ≤ r.l
  first : r.l < L + r.s
  upper : r.u ≤ U
  last : U < r.u + r.s

namespace Rsd

variable {r r0 r1 r2 : Rsd} {L U L1 U1 L2 U2 : ℤ}

theorem right_mem_elems (hwf : r.WF) (hn : r.s ∣ r.u - r.l) : r.u ∈ r.elems :=
  ⟨hwf.le, le_rfl, hn⟩

theorem Full.mem_iff (h : r.Full L U) (x : ℤ) :
    x ∈ r.elems ↔ L ≤ x ∧ x ≤ U ∧ r.s ∣ x - r.l := by
  have hlo := h.lower
  have hup := h.upper
  have hfirst := h.first
  have hlast := h.last
  constructor
  · rintro ⟨h1, h2, h3⟩
    exact ⟨by omega, by omega, h3⟩
  · rintro ⟨h1, h2, h3⟩
    refine ⟨?_, ?_, h3⟩
    · by_contra hlt
      have := Int.le_of_dvd (by omega) (dvd_sub_comm.mp h3)
      omega
    · by_contra hlt
      have hd : r.s ∣ x - r.u := by
        have := dvd_sub h3 h.normal
        rwa [sub_sub_sub_cancel_right] at this
      have := Int.le_of_dvd (by omega) hd
      omega

/-- Common elements of two whole classes form the whole class of the common range. -/
theorem Full.inter (h1 : r1.Full L1 U1) (h2 : r2.Full L2 U2) (hi : IsIntersection r1 r2 r0)
    (hm : r1.Meets r2) (hn : r0.s ∣ r0.u - r0.l) : r0.Full (max L1 L2) (min U1 U2) := by
  have hpos := hi.wf.pos
  have hd1 := hi.dvd₁
  have hd2 := hi.dvd₂
  have hmem : ∀ x, x ∈ r0.elems ↔ x ∈ r1.elems ∧ x ∈ r2.elems := fun x => by
    rw [hi.meets hm]
    rfl
  have hl := (hmem r0.l).mp (left_mem_strided hi.wf.le)
  have hu := (hmem r0.u).mp (right_mem_elems hi.wf hn)
  -- One stride below the first and above the last element both residues are kept.
  have hstep : ∀ x, r0.s ∣ x - r0.l → max L1 L2 ≤ x → x ≤ min U1 U2 → x ∈ r0.elems := by
    intro x hd hlo hup
    rw [max_le_iff] at hlo
    rw [le_min_iff] at hup
    refine (hmem x).mpr ⟨(h1.mem_iff x).mpr ⟨hlo.1, hup.1, ?_⟩,
      (h2.mem_iff x).mpr ⟨hlo.2, hup.2, ?_⟩⟩
    · have := dvd_add (hd1.trans hd) hi.congr₁
      rwa [sub_add_sub_cancel] at this
    · have := dvd_add (hd2.trans hd) hi.congr₂
      rwa [sub_add_sub_cancel] at this
  have hl1 := (h1.mem_iff _).mp hl.1
  have hl2 := (h2.mem_iff _).mp hl.2
  have hu1 := (h1.mem_iff _).mp hu.1
  have hu2 := (h2.mem_iff _).mp hu.2
  have hle := hi.wf.le
  refine ⟨hi.wf, hn, max_le hl1.1 hl2.1, ?_, le_min hu1.2.1 hu2.2.1, ?_⟩
  · by_contra hc
    have := hstep (r0.l - r0.s) (by simp) (by omega) (le_min (by omega) (by omega))
    have := this.1
    omega
  · by_contra hc
    have := hstep (r0.u + r0.s) (by rw [add_sub_right_comm]; exact dvd_add hn (dvd_refl _))
      (max_le (by omega) (by omega)) (by omega)
    have := this.2.1
    omega

/-- Sections cut at a common upper bound meet whenever the search finds anything. -/
theorem Full.not_phantom (h1 : r1.Full L1 U) (h2 : r2.Full L2 U) : ¬ r1.Phantom r2 := by
  have key : ∀ {a b : Rsd} {L L' : ℤ}, a.Full L U → b.Full L' U → a.l ≤ b.l → a.Hits b →
      a.Meets b := by
    rintro a b L L' ha hb hab ⟨i, hi, hd⟩
    have hle := ha.lower
    have hup := hb.upper
    have h1 := hi.1
    have h2 := hi.2.1
    exact ⟨i, (ha.mem_iff i).mpr ⟨by omega, by omega, hd⟩, hi⟩
  rintro ⟨hm, ⟨hle, -, hh⟩ | ⟨hlt, -, hh⟩⟩
  · exact hm (key h1 h2 hle hh)
  · exact hm (meets_comm.mp (key h2 h1 hlt.le hh))

/-- A section whose stride divides the other's, in the same residue class, is met by the
other one as soon as the ranges overlap. -/
theorem not_phantom_of_dvd (h2 : r2.WF) (hn : r2.s ∣ r2.u - r2.l)
    (hs : r1.s ∣ r2.s) (hl : r1.s ∣ r2.l - r1.l) : ¬ r1.Phantom r2 := by
  rintro ⟨hm, ⟨hle, hstart, -⟩ | ⟨hlt, hstart, i, hi, hd⟩⟩
  · exact hm ⟨r2.l, ⟨hle, hstart, hl⟩, left_mem_strided h2.le⟩
  · rcases le_or_gt i r2.u with hiu | hiu
    · exact hm ⟨i, hi, ⟨by have := hi.1; omega, hiu, hd⟩⟩
    · refine hm ⟨r2.u, ⟨hstart, by have := hi.2.1; omega, ?_⟩, right_mem_elems h2 hn⟩
      have := dvd_add (hs.trans hn) hl
      rwa [sub_add_sub_cancel] at this

theorem not_phantom_of_dvd_right (h1 : r1.WF) (h2 : r2.WF) (hn : r1.s ∣ r1.u - r1.l)
    (hs : r2.s ∣ r1.s) (hl : r2.s ∣ r1.l - r2.l) : ¬ r1.Phantom r2 := by
  intro hph
  have hne : r1.l ≠ r2.l := fun heq =>
    hph.1 ⟨r1.l, left_mem_strided h1.le, heq ▸ left_mem_strided h2.le⟩
  refine not_phantom_of_dvd h1 hn hs hl ?_
  obtain ⟨hm, ⟨hle, h⟩ | ⟨hlt, h⟩⟩ := hph
  · exact ⟨fun hm' => hm (meets_comm.mp hm'), Or.inr ⟨lt_of_le_of_ne hle hne, h⟩⟩
  · exact ⟨fun hm' => hm (meets_comm.mp hm'), Or.inl ⟨hlt.le, h⟩⟩

end Rsd

theorem intersectionOrdered_normal {a b r0 : Rsd} (h : intersectionOrdered a b = some r0) :
    r0.s ∣ r0.u - r0.l := by
  unfold intersectionOrdered at h
  split_ifs at h
  obtain ⟨i, -, rfl⟩ := Option.map_eq_some_iff.mp h
  simp

theorem intersectionRsds_normal {r1 r2 r0 : Rsd}
    (h : intersectionRsds (some r1) (some r2) = some r0) : r0.s ∣ r0.u - r0.l := by
  rw [intersectionRsds_some] at h
  split_ifs at h
  · exact intersectionOrdered_normal h
  · exact intersectionOrdered_normal h

/-! ## From sections to intervals -/

/-- One element reaches the list: it extends the last interval, is already in it, or opens
a new one. The list is split into the finished intervals and the last one. -/
def visitElement (st : List (ℤ × ℤ) × ℤ × ℤ) (l : ℤ) : List (ℤ × ℤ) × ℤ × ℤ :=
  if l = st.2.2 + 1 then (st.1, st.2.1, l)
  else if l ≤ st.2.2 then st
  else (st.1 ++ [st.2], l, l)

/-- The list of intervals; `_XMP_comm_set_t` is its node type. -/
def csd2commSet (csd : Option Csd) : List (ℤ × ℤ) :=
  match csd with
  | none => []
  | some csd =>
    match csd.comps with
    | [] => []
    | (l0, u0) :: _ =>
      let st := (loopValues 0 (u0 - l0 + 1) csd.s).foldl (fun st j =>
        csd.comps.foldl (fun st p => if p.2 < p.1 + j then st else visitElement st (p.1 + j)) st)
        ([], l0, l0)
      st.1 ++ [st.2]

/-- The elements of a list of intervals, in the order in which they are packed. -/
def commElems (commSet : List (ℤ × ℤ)) : List ℤ :=
  commSet.flatMap fun c => loopValues c.1 (c.2 + 1) 1

theorem loopValues_singleton (l : ℤ) : loopValues l (l + 1) 1 = [l] := by
  refine (loopValues_pairwise_lt one_pos).eq_of_mem_iff (List.pairwise_singleton _ _) fun x => ?_
  rw [mem_loopValues_of_pos one_pos, List.mem_singleton]
  simp
  omega

theorem loopValues_succ {l u : ℤ} (h : l ≤ u) :
    loopValues l (u + 1 + 1) 1 = loopValues l (u + 1) 1 ++ [u + 1] := by
  refine (loopValues_pairwise_lt one_pos).eq_of_mem_iff ?_ fun x => ?_
  · refine List.pairwise_append.mpr ⟨loopValues_pairwise_lt one_pos,
      List.pairwise_singleton _ _, ?_⟩
    intro x hx y hy
    obtain rfl := List.mem_singleton.mp hy
    exact ((mem_loopValues_of_pos one_pos x).mp hx).2.1
  · rw [List.mem_append, List.mem_singleton, mem_loopValues_of_pos one_pos,
      mem_loopValues_of_pos one_pos]
    simp
    omega

theorem commElems_visitElement {st : List (ℤ × ℤ) × ℤ × ℤ} (hst : st.2.1 ≤ st.2.2) {l : ℤ}
    (hl : st.2.2 < l) :
    commElems ((visitElement st l).1 ++ [(visitElement st l).2]) =
        commElems (st.1 ++ [st.2]) ++ [l] ∧
      (visitElement st l).2.2 = l ∧ (visitElement st l).2.1 ≤ l := by
  unfold visitElement
  split_ifs with h1 h2
  · refine ⟨?_, rfl, by dsimp only; omega⟩
    simp only [commElems, List.flatMap_append, List.flatMap_singleton, h1]
    rw [loopValues_succ hst, List.append_assoc]
  · omega
  · refine ⟨?_, rfl, le_rfl⟩
    simp [commElems, loopValues_singleton]

theorem commElems_foldl_visitElement {points : List ℤ} (hp : points.Pairwise (· < ·))
    {st : List (ℤ × ℤ) × ℤ × ℤ} (hst : st.2.1 ≤ st.2.2) (hlt : ∀ x ∈ points, st.2.2 < x) :
    commElems ((points.foldl visitElement st).1 ++ [(points.foldl visitElement st).2]) =
      commElems (st.1 ++ [st.2]) ++ points := by
  induction points generalizing st with
  | nil => simp
  | cons x points ih =>
    obtain ⟨hx, hrest⟩ := List.pairwise_cons.mp hp
    obtain ⟨happ, hlast, hlow⟩ := commElems_visitElement hst (hlt x (by simp))
    rw [List.foldl_cons, ih hrest (by omega) (fun y hy => by rw [hlast]; exact hx y hy), happ,
      List.append_assoc]
    rfl

/-- The order in which `csd2comm_set` visits the elements. -/
def visitOrder (c : Csd) (l0 u0 : ℤ) : List ℤ :=
  (loopValues 0 (u0 - l0 + 1) c.s).flatMap fun j =>
    (c.comps.filter fun p => p.1 + j ≤ p.2).map fun p => p.1 + j

theorem foldl_visit_eq {α : Type} (comps : List (ℤ × ℤ)) (j : ℤ) (f : α → ℤ → α) (st : α) :
    comps.foldl (fun st p => if p.2 < p.1 + j then st else f st (p.1 + j)) st =
      ((comps.filter fun p => p.1 + j ≤ p.2).map fun p => p.1 + j).foldl f st := by
  induction comps generalizing st with
  | nil => rfl
  | cons p comps ih =>
    by_cases h : p.2 < p.1 + j
    · simp [h, ih]
    · simp [h, not_lt.mp h, ih]

theorem csd2commSet_eq {c : Csd} {l0 u0 : ℤ} {rest : List (ℤ × ℤ)}
    (hc : c.comps = (l0, u0) :: rest) :
    csd2commSet (some c) =
      let st := (visitOrder c l0 u0).foldl visitElement ([], l0, l0)
      st.1 ++ [st.2] := by
  simp only [csd2commSet, visitOrder, List.foldl_flatMap, ← foldl_visit_eq]
  rw [hc]

/-- Every component is the whole class of one range, and they are in strict order. -/
structure Csd.Window (c : Csd) (L U : ℤ) : Prop where
  full : ∀ r ∈ c.rsds, r.Full L U
  sorted : c.comps.Pairwise fun p q => p.1 < q.1

theorem Csd.mem_rsds {c : Csd} {p : ℤ × ℤ} (hp : p ∈ c.comps) :
    (⟨p.1, p.2, c.s⟩ : Rsd) ∈ c.rsds :=
  List.mem_map.mpr ⟨p, hp, rfl⟩

/-- The elements are visited in the order in which the components are listed. -/
theorem Csd.pairwise_visitOrder {c : Csd} {L U : ℤ} {R : ℤ → ℤ → Prop}
    (hfull : ∀ r ∈ c.rsds, r.Full L U) (hs : 0 < c.s)
    (hsorted : c.comps.Pairwise fun p q => R p.1 q.1)
    (hadd : ∀ x y j : ℤ, R x y → R (x + j) (y + j)) (hlt : ∀ x y : ℤ, x < y → R x y) (l0 u0 : ℤ) :
    (visitOrder c l0 u0).Pairwise R := by
  refine List.pairwise_flatMap.mpr ⟨fun j _ => ?_, ?_⟩
  · refine List.pairwise_map.mpr ((hsorted.filter _).imp ?_)
    intro p q hpq
    exact hadd _ _ j hpq
  · refine (loopValues_pairwise_lt hs).imp_of_mem ?_
    intro j j' hj hj' hjj x hx y hy
    obtain ⟨p, hp, rfl⟩ := List.mem_map.mp hx
    obtain ⟨q, hq, rfl⟩ := List.mem_map.mp hy
    have hp1 := (hfull _ (Csd.mem_rsds (List.mem_of_mem_filter hp))).first
    have hq1 := (hfull _ (Csd.mem_rsds (List.mem_of_mem_filter hq))).lower
    have hd := dvd_sub ((mem_loopValues_of_pos hs j').mp hj').2.2
      ((mem_loopValues_of_pos hs j).mp hj).2.2
    have := Int.le_of_dvd (by omega) hd
    dsimp only at hp1 hq1
    exact hlt _ _ (by omega)

theorem Csd.Window.pairwise_visitOrder {c : Csd} {L U : ℤ} (h : c.Window L U) (hs : 0 < c.s)
    (l0 u0 : ℤ) : (visitOrder c l0 u0).Pairwise (· < ·) :=
  Csd.pairwise_visitOrder h.full hs h.sorted (fun _ _ j => (Int.add_lt_add_iff_right j).mpr)
    (fun _ _ => id) l0 u0

/-- Counting from the first element of each class, no class has more elements than the
class that starts first. -/
theorem Csd.mem_visitOrder {c : Csd} {L U : ℤ} (hfull : ∀ r ∈ c.rsds, r.Full L U) {l0 u0 : ℤ}
    {rest : List (ℤ × ℤ)} (hc : c.comps = (l0, u0) :: rest)
    (hfirst : ∀ p ∈ rest, l0 ≤ p.1) (x : ℤ) :
    x ∈ visitOrder c l0 u0 ↔ x ∈ c.elems := by
  have h0 := hfull ⟨l0, u0, c.s⟩ (@Csd.mem_rsds c (l0, u0) (by simp [hc]))
  have hs : 0 < c.s := h0.wf.pos
  simp only [visitOrder, List.mem_flatMap, List.mem_map, List.mem_filter, decide_eq_true_eq,
    mem_loopValues_of_pos hs, Csd.elems, Set.mem_ofPred_eq, Csd.rsds]
  constructor
  · rintro ⟨j, ⟨hj0, -, hd⟩, p, ⟨hp, hle⟩, rfl⟩
    refine ⟨_, ⟨p, hp, rfl⟩, ⟨by dsimp only; omega, by dsimp only; omega, ?_⟩⟩
    rw [sub_zero] at hd
    simpa using hd
  · rintro ⟨_, ⟨p, hp, rfl⟩, hx1, hx2, hd⟩
    dsimp only at hx1 hx2 hd
    have hpfull := hfull _ (Csd.mem_rsds hp)
    have hstart := h0.first
    have hlow := hpfull.lower
    have hup := hpfull.upper
    have hlow0 : l0 ≤ p.1 := by
      rw [hc] at hp
      rcases List.mem_cons.mp hp with rfl | hp
      · exact le_rfl
      · exact hfirst p hp
    refine ⟨x - p.1, ⟨by omega, ?_, by rw [sub_zero]; exact hd⟩, p, ⟨hp, by omega⟩, by omega⟩
    by_contra hc'
    have hd0 : c.s ∣ l0 + (x - p.1) - u0 := by
      have := dvd_sub hd h0.normal
      dsimp only at this
      rwa [show x - p.1 - (u0 - l0) = l0 + (x - p.1) - u0 by ring] at this
    have := Int.le_of_dvd (by omega) hd0
    have hlast := h0.last
    dsimp only at hlast hup
    omega

theorem Csd.Window.mem_visitOrder {c : Csd} {L U : ℤ} (h : c.Window L U) {l0 u0 : ℤ}
    {rest : List (ℤ × ℤ)} (hc : c.comps = (l0, u0) :: rest) (x : ℤ) :
    x ∈ visitOrder c l0 u0 ↔ x ∈ c.elems := by
  have hsorted := h.sorted
  rw [hc] at hsorted
  exact Csd.mem_visitOrder h.full hc (fun p hp => ((List.pairwise_cons.mp hsorted).1 p hp).le) x

theorem visitOrder_head {c : Csd} {l0 u0 : ℤ} {rest : List (ℤ × ℤ)}
    (hc : c.comps = (l0, u0) :: rest) (hs : 0 < c.s) (h0 : l0 ≤ u0) :
    ∃ tail, visitOrder c l0 u0 = l0 :: tail := by
  have hloop : ∃ js, loopValues 0 (u0 - l0 + 1) c.s = 0 :: js := by
    have hmem : (0 : ℤ) ∈ loopValues 0 (u0 - l0 + 1) c.s :=
      (mem_loopValues_of_pos hs 0).mpr ⟨le_rfl, by omega, by simp⟩
    cases hl : loopValues 0 (u0 - l0 + 1) c.s with
    | nil => simp [hl] at hmem
    | cons j js =>
      have hjmem : j ∈ loopValues 0 (u0 - l0 + 1) c.s := hl ▸ List.mem_cons_self
      have hj : 0 ≤ j := ((mem_loopValues_of_pos hs j).mp hjmem).1
      rw [hl] at hmem
      rcases List.mem_cons.mp hmem with rfl | hmem
      · exact ⟨js, rfl⟩
      · have hp : (loopValues 0 (u0 - l0 + 1) c.s).Pairwise (· < ·) := loopValues_pairwise_lt hs
        rw [hl] at hp
        have := (List.pairwise_cons.mp hp).1 0 hmem
        omega
  obtain ⟨js, hjs⟩ := hloop
  refine ⟨(rest.filter fun p => p.1 ≤ p.2).map (fun p => p.1) ++ js.flatMap fun j =>
    (c.comps.filter fun p => p.1 + j ≤ p.2).map fun p => p.1 + j, ?_⟩
  simp [visitOrder, hjs, hc, h0]

/-- The intervals of a windowed descriptor list its elements once and in order. -/
theorem Csd.Window.commElems_csd2commSet {c : Csd} {L U : ℤ} (h : c.Window L U) :
    (commElems (csd2commSet (some c))).Pairwise (· < ·) ∧
      ∀ x, x ∈ commElems (csd2commSet (some c)) ↔ x ∈ c.elems := by
  cases hc : c.comps with
  | nil => simp [csd2commSet, hc, commElems, Csd.elems, Csd.rsds]
  | cons p rest =>
    obtain ⟨l0, u0⟩ := p
    have h0 := h.full ⟨l0, u0, c.s⟩ (@Csd.mem_rsds c (l0, u0) (by simp [hc]))
    have hs : 0 < c.s := h0.wf.pos
    have hp := h.pairwise_visitOrder hs l0 u0
    have hlist : commElems (csd2commSet (some c)) = visitOrder c l0 u0 := by
      obtain ⟨tail, htail⟩ := visitOrder_head hc hs h0.wf.le
      rw [htail, List.pairwise_cons] at hp
      have hskip : visitElement ([], l0, l0) l0 = ([], l0, l0) := by
        simp [visitElement]
      rw [csd2commSet_eq hc, htail, List.foldl_cons, hskip]
      dsimp only
      rw [commElems_foldl_visitElement hp.2 le_rfl hp.1]
      simp [commElems, loopValues_singleton]
    rw [hlist]
    exact ⟨hp, h.mem_visitOrder hc⟩

/-! ## Intersections of windowed descriptors -/

/-- Different pairs of components give hits with different lower bounds. -/
theorem crossHits_pairwise_ne {c1 c2 : Csd} (h1 : c1.WF) (h2 : c2.WF) (hfit : c1.FitsWith c2)
    (hn1 : c1.rsds.Nodup) (hn2 : c2.rsds.Nodup) : (crossHits c1 c2).Pairwise fun r r' =>
      r.l ≠ r'.l := by
  refine List.pairwise_filterMap.mpr ((hn1.product hn2).imp_of_mem ?_)
  rintro ⟨r1, r2⟩ ⟨r1', r2'⟩ hp hp' hne r hr r' hr' heq
  obtain ⟨hr1, hr2⟩ := List.pair_mem_product.mp hp
  obtain ⟨hr1', hr2'⟩ := List.pair_mem_product.mp hp'
  have hi := crossHits_isIntersection h1 h2 hfit hr1 hr2 hr
  have hi' := crossHits_isIntersection h1 h2 hfit hr1' hr2' hr'
  have e1 := hi'.congr₁
  have e2 := hi'.congr₂
  rw [Csd.s_of_mem hr1'] at e1
  rw [Csd.s_of_mem hr2'] at e2
  obtain ⟨rfl, rfl⟩ := crossHits_residue h1 h2 hr1 hr2 hr1' hr2' hi e1 e2 (by simp [heq])
  exact hne rfl

theorem sortedCsd_pairwise_lt {c1 c2 : Csd} (h1 : c1.WF) (h2 : c2.WF) (hfit : c1.FitsWith c2)
    (hn1 : c1.rsds.Nodup) (hn2 : c2.rsds.Nodup) :
    (sortedCsd (crossHits c1 c2)).comps.Pairwise fun p q => p.1 < q.1 := by
  have hne : (sortedCsd (crossHits c1 c2)).comps.Pairwise fun p q => p.1 ≠ q.1 := by
    have hperm := perm_foldl_orderedInsert (crossHits c1 c2) []
    rw [List.append_nil] at hperm
    refine ((List.reverse_perm _).trans hperm).symm.pairwise ?_ (fun h => h.symm)
    exact List.pairwise_map.mpr (crossHits_pairwise_ne h1 h2 hfit hn1 hn2)
  refine ((sortedCsd_sorted (crossHits c1 c2)).and hne).imp ?_
  intro p q h
  exact lt_of_le_of_ne h.1 h.2

def MeetFull (c1 c2 : Csd) (L1 U1 L2 U2 : ℤ) : Prop :=
  ∀ r1 ∈ c1.rsds, ∀ r2 ∈ c2.rsds, r1.Meets r2 → r1.Full L1 U1 ∧ r2.Full L2 U2

theorem meets_of_intersectionRsds {r1 r2 r0 : Rsd} (h1 : r1.WF) (h2 : r2.WF)
    (hfit : r1.FitsWith r2) (hph : ¬ r1.Phantom r2)
    (h : intersectionRsds (some r1) (some r2) = some r0) :
    r1.Meets r2 := by
  by_contra hm
  have hnone := (intersectionRsds_eq_none_iff h1 h2 hfit).mpr (by simp [hm, hph])
  rw [h] at hnone
  cases hnone

theorem sortedCsd_window {c1 c2 : Csd} {L1 U1 L2 U2 : ℤ} (h1 : c1.WF) (h2 : c2.WF)
    (hfit : c1.FitsWith c2) (hn1 : c1.rsds.Nodup) (hn2 : c2.rsds.Nodup)
    (hph : ∀ r1 ∈ c1.rsds, ∀ r2 ∈ c2.rsds, ¬ r1.Phantom r2) (hfull : MeetFull c1 c2 L1 U1 L2 U2) :
    (sortedCsd (crossHits c1 c2)).Window (max L1 L2) (min U1 U2) := by
  refine ⟨fun r0 hr0 => ?_, sortedCsd_pairwise_lt h1 h2 hfit hn1 hn2⟩
  rw [mem_sortedCsd_rsds (crossHits_stride h1 h2 hfit)] at hr0
  obtain ⟨r1, hr1, r2, hr2, h⟩ := mem_crossHits.mp hr0
  have hm := meets_of_intersectionRsds (h1.comp _ hr1) (h2.comp _ hr2) (hfit _ hr1 _ hr2)
    (hph _ hr1 _ hr2) h
  obtain ⟨hf1, hf2⟩ := hfull r1 hr1 r2 hr2 hm
  exact hf1.inter hf2 (crossHits_isIntersection h1 h2 hfit hr1 hr2 h) hm (intersectionRsds_normal h)

theorem length_crossHits_le (c1 c2 : Csd) : (crossHits c1 c2).length ≤ c1.n * c2.n := by
  refine (List.length_filterMap_le _ _).trans (le_of_eq ?_)
  exact (List.length_product _ _).trans (by simp [Csd.n, Csd.rsds])

theorem intersectionCsds_of_le_one (c1 c2 : Csd) (h : c2.n ≤ 1) :
    intersectionCsds (some c1) (some c2) = .ok (some (sortedCsd (crossHits c1 c2))) := by
  rw [intersectionCsds_eq, if_pos]
  have := length_crossHits_le c1 c2
  have hle : c1.n * c2.n ≤ c1.n * 1 := Nat.mul_le_mul_left _ h
  omega

end OmniCompiler.Xmp
