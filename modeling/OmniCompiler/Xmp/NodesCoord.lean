import OmniCompiler.Xmp.NodesChain

/-!
# Coordinates of a process in related node sets

A declaration describes a node set on all processes at once. Every process finds its rank in it
from the communicators, and has its own descriptor. The coordinate search that one process makes
for another one is compared with the coordinates that the other process has.
-/
namespace OmniCompiler.Xmp

open MixedRadix NodesType

/-- Node arrays made by `_XMP_init_nodes_struct_GLOBAL` and `_XMP_init_nodes_struct_NODES_NAMED`. -/
inductive NodesDecl where
  | global (addr : ℕ) (sizes : List ℕ)
  | named (addr : ℕ) (parent : NodesDecl) (refs : List NodesRef) (sizes : List ℕ)

namespace NodesDecl

def addr : NodesDecl → ℕ
  | .global a _ => a
  | .named a _ _ _ => a

def sizes : NodesDecl → List ℕ
  | .global _ sizes => sizes
  | .named _ _ _ sizes => sizes

def attr : NodesDecl → NodesAttr
  | .global _ _ => .entire
  | .named _ _ _ _ => .equivalence

def desc (d : NodesDecl) : NodesDesc := ⟨d.addr, d.attr, d.sizes⟩

/-- The reference as `_XMP_validate_nodes_ref` leaves it. -/
def validRefs (sizes : List ℕ) (refs : List NodesRef) : List NodesRef :=
  match validateRefs sizes refs with
  | .ok refs' => refs'
  | .error _ => refs

/-- The rank of the process `q`. The processes of a communicator are numbered in the order of
their world ranks, hence in the order of their ranks in the communicator it is split from. -/
def commRank : NodesDecl → ℕ → ℕ
  | .global _ _, q => q
  | .named _ p refs _, q =>
    (p.desc.namedComm (validRefs p.sizes refs) (p.commRank q)).idxOf (p.commRank q)

def isMember : NodesDecl → ℕ → Bool
  | .global _ _, _ => true
  | .named _ p refs _, q =>
    p.isMember q && p.desc.isMember (validRefs p.sizes refs) (p.commRank q)

/-- The coordinates that the process `q` finds for itself. -/
def coord (d : NodesDecl) (q : ℕ) : List ℕ := residues 1 d.sizes (d.commRank q)

/-- The constructors run through on every process: bounds and sizes pass all tests. -/
def WellBuilt (worldSize : ℕ) : NodesDecl → Prop
  | .global _ sizes => sizes.prod = worldSize
  | .named _ p refs sizes => p.WellBuilt worldSize ∧ refs.length = p.sizes.length ∧
      (∃ refs', validateRefs p.sizes refs = .ok refs') ∧
      (sizes.prod : ℤ) = NodesDesc.namedCommSize (validRefs p.sizes refs) ∧
      ∀ r < p.desc.commSize, p.desc.isMember (validRefs p.sizes refs) r = true →
        ((p.desc.namedComm (validRefs p.sizes refs) r).length : ℤ) =
          NodesDesc.namedCommSize (validRefs p.sizes refs)

/-- `info[i].rank` on the process `me`; it is not set on a process outside the node set. -/
def rankOn (unset : ℕ → ℕ → ℤ) (d : NodesDecl) (me : ℕ) : List ℤ :=
  if d.isMember me then (d.coord me).map Nat.cast
  else (List.range d.sizes.length).map (unset d.addr)

/-- `inherit_info` on the process `me`. A process outside the referenced node set does not validate
the reference. -/
def inheritInfoOn (p : NodesDecl) (refs : List NodesRef) (me : ℕ) : List InheritInfo :=
  List.zipWith (fun (ref : NodesRef) (size : ℕ) =>
    ⟨ref.shrink, ref.lower, ref.upper, ref.stride, size⟩)
    (if p.isMember me then validRefs p.sizes refs else refs) p.sizes

/-- The descriptors on the process `me`. -/
def view (unset : ℕ → ℕ → ℤ) (me : ℕ) : NodesDecl → Chain NodesType
  | .global a sizes => .root ⟨a, a, .entire, sizes.prod, sizes,
      (NodesDecl.global a sizes).rankOn unset me, none, []⟩
  | .named a p refs sizes => .link ⟨a, a, .equivalence, sizes.prod, sizes,
      (NodesDecl.named a p refs sizes).rankOn unset me, some p.addr, p.inheritInfoOn refs me⟩
      (p.view unset me)

/-- The node set and those it inherits. -/
def lineage : NodesDecl → List NodesDecl
  | .global a sizes => [.global a sizes]
  | .named a p refs sizes => .named a p refs sizes :: p.lineage

/-- The two tests of `_XMP_calc_coord_on_target_nodes2`. -/
def Matches (n t : NodesDecl) : Prop := n.addr = t.addr ∨ n.attr = .entire ∧ t.attr = .entire

def Meets (n t : NodesDecl) : Prop := ∃ b ∈ t.lineage, n.Matches b

/-- `inherit_info` holds the validated reference. -/
def InfoRight (me : ℕ) (p : NodesDecl) (refs : List NodesRef) : Prop :=
  p.isMember me = true ∨ validRefs p.sizes refs = refs

/-- In every dimension after one that is referenced in part, the process is at the lower bound. -/
def PlacesRight : List ℕ → List NodesRef → List ℕ → Prop
  | size :: sizes, ref :: refs, _ :: cs =>
    (ref.shrink = false → ref.count ≠ size →
      ∀ d ∈ refs.zip cs, d.1.shrink = false → (d.2 : ℤ) = d.1.lower) ∧
    PlacesRight sizes refs cs
  | _, _, _ => True

/-- The way down from the inherited node set is right for the process `q`. -/
def DownRight (me q : ℕ) (p : NodesDecl) (refs : List NodesRef) : Prop :=
  InfoRight me p refs ∧ PlacesRight p.sizes (validRefs p.sizes refs) (p.coord q)

/-- The way down from the node set that matches `n`. -/
def AllDownRight (me q : ℕ) (n : NodesDecl) : NodesDecl → Prop
  | .global _ _ => True
  | .named a p refs sizes => n.Matches (.named a p refs sizes) ∨
      DownRight me q p refs ∧ AllDownRight me q n p

/-- In every dimension that is kept, the multiplier exceeds the rank among the dimensions before it;
and it is the number of nodes referenced there, or the process is at the lower bound. -/
def ClimbsRight : List ℤ → List NodesRef → List ℕ → ℤ → ℤ → Prop
  | m :: ms, ref :: refs, c :: cs, count, below =>
    if ref.shrink then ClimbsRight ms refs cs count below
    else below < m ∧ ((c : ℤ) = ref.lower ∨ count = m) ∧
      ClimbsRight ms refs cs (count * ref.count) (below + count * (c - ref.lower).tdiv ref.stride)
  | _, _, _, _, _ => True

/-- The way up to the inherited node set is right for the process `q`: the entry read past the end
is not a zero multiplier and changes nothing, there is room in `pcoord` for one entry too many, the
multipliers suit, and the slice is that of `me`. -/
def UpRight (pastEnd : Option ℤ) (unset : ℕ → ℕ → ℤ) (me q : ℕ) (n p : NodesDecl)
    (refs : List NodesRef) : Prop :=
  InfoRight me p refs ∧
    p.sizes.length < maxDim ∧
    (∀ m ∈ pastEnd, m ≠ 0 ∧ (n.commRank q : ℤ).tmod m = n.commRank q) ∧
    ClimbsRight (multipliers (p.inheritInfoOn refs me)) (validRefs p.sizes refs) (p.coord q) 1 0 ∧
    ∀ d ∈ (validRefs p.sizes refs).zip ((p.coord q).zip (p.rankOn unset me)),
      d.1.shrink = true → (d.2.1 : ℤ) = d.2.2

/-- Every step of the search is right. -/
def SearchRight (pastEnd : ℕ → Option ℤ) (unset : ℕ → ℕ → ℤ) (me q : ℕ) (t : NodesDecl) :
    NodesDecl → Prop
  | .global a sizes => AllDownRight me q (.global a sizes) t
  | .named a p refs sizes =>
    (Meets (.named a p refs sizes) t → AllDownRight me q (.named a p refs sizes) t) ∧
    (¬ Meets (.named a p refs sizes) t →
      UpRight (pastEnd a) unset me q (.named a p refs sizes) p refs ∧
        SearchRight pastEnd unset me q t p)

/-! ## Ranks in a slice -/

/-- The rank among the referenced nodes, with the numbers of referenced nodes as extents. -/
def sectionRank : List NodesRef → List ℕ → ℤ
  | ref :: refs, c :: cs =>
    if ref.shrink then sectionRank refs cs
    else (c - ref.lower).tdiv ref.stride + ref.count * sectionRank refs cs
  | _, _ => 0

theorem idxOf_filter_includes {size : ℕ} {ref : NodesRef} (h : ref.Normal size)
    (hs : ref.shrink = false) {x : ℕ} (hx : ref.includes x = true) :
    ((((List.range size).filter fun y => ref.includes y).idxOf x : ℕ) : ℤ) =
      (x - ref.lower).tdiv ref.stride := by
  obtain ⟨L, S, q, hl, hst, hu, hS, hlt⟩ := h.exists_nat
  have hcount := NodesRef.count_eq hs hl hst hu hS
  rw [NodesRef.includes_iff hs hl hst hu hS] at hx
  obtain ⟨k, hk, rfl⟩ := hx
  have hinj : ∀ b ∈ List.range ref.count.toNat, ref.lower.toNat + ref.stride.toNat * b =
      ref.lower.toNat + ref.stride.toNat * k → b = k := by
    intro b _ hb
    rw [hst, Int.toNat_natCast] at hb
    exact Nat.eq_of_mul_eq_mul_left hS (by omega)
  have hidx := Alignment.idxOf_map_of_inj (fun k => ref.lower.toNat + ref.stride.toNat * k) hinj
  have hval : L + S * k = ref.lower.toNat + ref.stride.toNat * k := by
    rw [hl, hst, Int.toNat_natCast, Int.toNat_natCast]
  have hrange : (List.range ref.count.toNat).idxOf k = k := by
    have hk' : k < (List.range ref.count.toNat).length := by
      rw [List.length_range, hcount]
      omega
    have hget := List.nodup_range.idxOf_getElem k hk'
    rwa [List.getElem_range] at hget
  rw [h.filter_includes hs, hval, hidx, hrange, ← hval, hl, hst]
  push_cast
  rw [add_sub_cancel_left, Int.mul_tdiv_cancel_left _ (by omega)]

theorem value_slice {sizes : List ℕ} {refs : List NodesRef}
    (hn : NodesDesc.NormalRefs sizes refs) {cs : List ℕ} (hc : InRange cs sizes)
    (hm : (refs.zip cs).all (fun d => d.1.includes d.2) = true) :
    List.Forall₂ (fun x l => x ∈ l) cs
      (List.zipWith List.filter (NodesDesc.sliceTests refs cs) (sizes.map List.range)) ∧
    ((value 1
      ((List.zipWith List.filter (NodesDesc.sliceTests refs cs) (sizes.map List.range)).map
        List.length)
      (List.zipWith (fun x l => l.idxOf x) cs
        (List.zipWith List.filter (NodesDesc.sliceTests refs cs)
          (sizes.map List.range))) : ℕ) : ℤ) =
      sectionRank refs cs := by
  induction hn generalizing cs with
  | nil =>
    cases hc
    exact ⟨List.Forall₂.nil, rfl⟩
  | @cons size ref sizes refs hnorm _ ih =>
    obtain ⟨x, cs, hx, hcs, rfl⟩ := List.forall₂_cons_right_iff.mp hc
    simp only [List.zip_cons_cons, List.all_cons, Bool.and_eq_true] at hm
    obtain ⟨ih1, ih2⟩ := ih hcs hm.2
    simp only [NodesDesc.sliceTests] at ih1 ih2
    simp only [NodesDesc.sliceTests, List.zipWith_cons_cons, List.map_cons, value_cons, sectionRank]
    cases hs : ref.shrink with
    | true =>
      have hone : (List.range size).filter (fun y => decide (y = x)) = [x] := by
        rw [List.filter_eq, List.count_eq_one_of_mem List.nodup_range (List.mem_range.mpr hx)]
        rfl
      simp only [if_true, hone]
      refine ⟨List.Forall₂.cons (by simp) ih1, ?_⟩
      simpa using ih2
    | false =>
      obtain ⟨L, S, q, hl, hst, hu, hS, -⟩ := (hnorm hs).exists_nat
      have hcount := NodesRef.count_eq hs hl hst hu hS
      have hlen : ((((List.range size).filter fun y => ref.includes y).length : ℕ) : ℤ) =
          ref.count := by
        rw [(hnorm hs).filter_includes hs, List.length_map, List.length_range, hcount]
        omega
      simp only [Bool.false_eq_true, if_false]
      refine ⟨List.Forall₂.cons (List.mem_filter.mpr ⟨List.mem_range.mpr hx, hm.1⟩) ih1, ?_⟩
      rw [Nat.cast_add, Nat.cast_mul, ih2, hlen, idxOf_filter_includes (hnorm hs) hs hm.1]
      ring

variable {worldSize : ℕ}

theorem normal_validRefs {a : ℕ} {p : NodesDecl} {refs : List NodesRef} {sizes : List ℕ}
    (h : (NodesDecl.named a p refs sizes).WellBuilt worldSize) :
    NodesDesc.NormalRefs p.sizes (validRefs p.sizes refs) ∧
      List.Forall₂ NodesRef.Validates refs (validRefs p.sizes refs) := by
  obtain ⟨-, hlen, ⟨refs', hv⟩, -, -⟩ := h
  rw [validRefs, hv]
  exact validateRefs_ok hlen hv

theorem commRank_lt {d : NodesDecl} (h : d.WellBuilt worldSize) {q : ℕ} (hq : q < worldSize)
    (hm : d.isMember q = true) : d.commRank q < d.desc.commSize := by
  induction d with
  | global a sizes =>
    have hp : sizes.prod = worldSize := h
    simpa [commRank, NodesDesc.commSize, desc, NodesDecl.sizes, hp] using hq
  | named a p refs sizes ih =>
    obtain ⟨hn, -⟩ := normal_validRefs h
    obtain ⟨hp, hlen, -, hsize, hcomm⟩ := h
    rw [isMember, Bool.and_eq_true] at hm
    have hr := ih hp hm.1
    have heq := NodesDesc.namedComm_eq hn hr hm.2 (hcomm _ hr hm.2)
    have hmem : p.commRank q ∈ p.desc.namedComm (validRefs p.sizes refs) (p.commRank q) := by
      rw [heq, NodesDesc.splitGroup, List.mem_filter]
      exact ⟨List.mem_range.mpr hr, by simp⟩
    have hlt := List.idxOf_lt_length_of_mem hmem
    have hc := hcomm _ hr hm.2
    rw [← hsize] at hc
    have hc' : (p.desc.namedComm (validRefs p.sizes refs) (p.commRank q)).length = sizes.prod := by
      exact_mod_cast hc
    rw [hc'] at hlt
    exact hlt

theorem commRank_named {a : ℕ} {p : NodesDecl} {refs : List NodesRef} {sizes : List ℕ}
    (h : (NodesDecl.named a p refs sizes).WellBuilt worldSize) {q : ℕ} (hq : q < worldSize)
    (hm : (NodesDecl.named a p refs sizes).isMember q = true) :
    ((NodesDecl.named a p refs sizes).commRank q : ℤ) =
      sectionRank (validRefs p.sizes refs) (p.coord q) := by
  obtain ⟨hn, -⟩ := normal_validRefs h
  obtain ⟨hp, hlen, -, hsize, hcomm⟩ := h
  rw [isMember, Bool.and_eq_true] at hm
  have hr := commRank_lt hp hq hm.1
  have heq := NodesDesc.namedComm_eq hn hr hm.2 (hcomm _ hr hm.2)
  have hinj : ∀ b ∈ p.desc.splitGroup (p.desc.namedColor (validRefs p.sizes refs)) (p.commRank q),
      p.desc.infoRank b = p.desc.infoRank (p.commRank q) → b = p.commRank q := by
    intro b hb hbq
    rw [NodesDesc.splitGroup, List.mem_filter] at hb
    exact residues_inj (List.mem_range.mp hb.1) hr hbq
  obtain ⟨hin, hval⟩ := value_slice hn (NodesDesc.inRange_infoRank hr) hm.2
  have hds : p.desc.sizes = p.sizes := rfl
  rw [commRank, heq, ← Alignment.idxOf_map_of_inj p.desc.infoRank hinj,
    NodesDesc.map_infoRank_splitGroup hn hr hm.2, hds, Alignment.idxOf_firstFastest hin]
  exact hval

/-! ## The way down -/

/-- The rank that `_XMP_calc_coord_on_target_nodes2` computes, with the extents of the inherited
node set as place values. -/
def placesRank : List ℕ → List NodesRef → List ℕ → ℤ
  | size :: sizes, ref :: refs, c :: cs =>
    if ref.shrink then placesRank sizes refs cs
    else (c - ref.lower).tdiv ref.stride + size * placesRank sizes refs cs
  | _, _, _ => 0

theorem targetRank_foldl (sizes : List ℕ) (refs : List NodesRef) (cs : List ℕ) (r m : ℤ) :
    (((List.zipWith (fun (ref : NodesRef) (size : ℕ) =>
      (⟨ref.shrink, ref.lower, ref.upper, ref.stride, size⟩ : InheritInfo)) refs sizes).zip
      (cs.map Nat.cast)).foldl (fun (st : ℤ × ℤ) d =>
        if d.1.shrink then st
        else (st.1 + st.2 * (d.2 - d.1.lower).tdiv d.1.stride, st.2 * d.1.size)) (r, m)).1 =
      r + m * placesRank sizes refs cs := by
  induction sizes generalizing refs cs r m with
  | nil => simp [placesRank]
  | cons size sizes ih =>
    cases refs with
    | nil => simp [placesRank]
    | cons ref refs =>
      cases cs with
      | nil => simp [placesRank]
      | cons c cs =>
        rw [List.zipWith_cons_cons, List.map_cons, List.zip_cons_cons, List.foldl_cons, placesRank]
        cases hs : ref.shrink with
        | true => simp only [if_true, ih]
        | false =>
          simp only [Bool.false_eq_true, if_false, ih]
          ring

theorem ranks_eq_zero {sizes : List ℕ} {refs : List NodesRef} {cs : List ℕ}
    (h : ∀ d ∈ refs.zip cs, d.1.shrink = false → (d.2 : ℤ) = d.1.lower) :
    placesRank sizes refs cs = 0 ∧ sectionRank refs cs = 0 := by
  induction refs generalizing sizes cs with
  | nil => cases sizes <;> simp [placesRank, sectionRank]
  | cons ref refs ih =>
    cases cs with
    | nil => cases sizes <;> simp [placesRank, sectionRank]
    | cons c cs =>
      have hrest : ∀ d ∈ refs.zip cs, d.1.shrink = false → (d.2 : ℤ) = d.1.lower :=
        fun d hd => h d (by simp [hd])
      have hc := h (ref, c) (by simp)
      refine ⟨?_, ?_⟩
      · cases sizes with
        | nil => rfl
        | cons size sizes =>
          rw [placesRank, (ih hrest).1]
          cases hs : ref.shrink with
          | true => simp
          | false => simp [hc hs]
      · rw [sectionRank, (@ih [] cs hrest).2]
        cases hs : ref.shrink with
        | true => simp
        | false => simp [hc hs]

theorem placesRank_eq {sizes : List ℕ} {refs : List NodesRef} {cs : List ℕ}
    (hlen : refs.length = sizes.length) (h : PlacesRight sizes refs cs) :
    placesRank sizes refs cs = sectionRank refs cs := by
  induction sizes generalizing refs cs with
  | nil =>
    rw [List.length_nil, List.length_eq_zero_iff] at hlen
    subst hlen
    simp [placesRank, sectionRank]
  | cons size sizes ih =>
    obtain ⟨ref, refs, rfl⟩ := List.exists_cons_of_length_eq_add_one hlen
    cases cs with
    | nil => simp [placesRank, sectionRank]
    | cons c cs =>
      rw [PlacesRight] at h
      rw [placesRank, sectionRank]
      cases hs : ref.shrink with
      | true =>
        simp only [if_true]
        exact ih (by simpa using hlen) h.2
      | false =>
        simp only [Bool.false_eq_true, if_false]
        by_cases hc : ref.count = size
        · rw [ih (by simpa using hlen) h.2, hc]
        · obtain ⟨h1, h2⟩ := @ranks_eq_zero sizes refs cs (h.1 hs hc)
          rw [h1, h2, mul_zero, mul_zero]

end NodesDecl

namespace NodesType

theorem calcRankArray_foldr (ms : List ℕ) (r : ℕ) :
    ms.foldr (fun (m : ℕ) (st : ℤ × List ℤ) => (st.1.tmod m, st.1.tdiv m :: st.2)) ((r : ℤ), []) =
      (((digits ms r).1 : ℤ), (digits ms r).2.map Nat.cast) := by
  induction ms with
  | nil => rfl
  | cons m ms ih =>
    have hd : digits (m :: ms) r =
      ((digits ms r).1 % m, (digits ms r).1 / m :: (digits ms r).2) := rfl
    rw [List.foldr_cons, ih, hd]
    simp [Int.tmod_eq_emod_of_nonneg]

theorem calcRankArray_natCast (n : NodesType) {r : ℕ} (hr : r < n.sizes.prod) :
    n.calcRankArray r = (residues 1 n.sizes r).map Nat.cast := by
  have hd := digits_value (inRange_residues hr) one_pos
  rw [zero_add, value_residues hr] at hd
  rw [calcRankArray, calcRankArray_foldr, hd]

theorem calcLinearRank_foldl (cs sizes : List ℕ) (r m : ℕ) :
    (((cs.map (Nat.cast : ℕ → ℤ)).zip sizes).foldl
      (fun (acc : ℤ × ℤ) c => (acc.1 + c.1 * acc.2, acc.2 * (c.2 : ℤ))) ((r : ℤ), (m : ℤ))).1 =
      ((r + value m sizes cs : ℕ) : ℤ) := by
  induction cs generalizing sizes r m with
  | nil => cases sizes <;> simp [value]
  | cons c cs ih =>
    cases sizes with
    | nil => simp [value]
    | cons s sizes =>
      have := ih sizes (r + c * m) (m * s)
      rw [List.map_cons, List.zip_cons_cons, List.foldl_cons, value, ← add_assoc, ← this]
      push_cast
      rfl

theorem calcLinearRank_natCast (n : NodesType) {r : ℕ} (hr : r < n.sizes.prod) :
    n.calcLinearRank ((residues 1 n.sizes r).map Nat.cast) = r := by
  have h := calcLinearRank_foldl (residues 1 n.sizes r) n.sizes 0 1
  rw [zero_add, value_residues hr] at h
  exact h

theorem coord2_of_matches {n : NodesType} (ncoord : List ℤ) {c : Chain NodesType}
    (h : matchesNodes n (first c) = true) :
    calcCoordOnTargetNodes2 n ncoord c = some (some (matchedCoord n ncoord (first c))) := by
  cases c <;> rw [first] at h <;> rw [calcCoordOnTargetNodes2, if_pos h, first]

end NodesType

namespace NodesDecl

variable {worldSize : ℕ} {unset : ℕ → ℕ → ℤ} {me q : ℕ}

@[simp] theorem first_view_addr (d : NodesDecl) : (first (d.view unset me)).addr = d.addr := by
  cases d <;> rfl

@[simp] theorem first_view_attr (d : NodesDecl) : (first (d.view unset me)).attr = d.attr := by
  cases d <;> rfl

@[simp] theorem first_view_sizes (d : NodesDecl) : (first (d.view unset me)).sizes = d.sizes := by
  cases d <;> rfl

@[simp] theorem first_view_rank (d : NodesDecl) :
    (first (d.view unset me)).rank = d.rankOn unset me := by
  cases d <;> rfl

theorem complete_view (d : NodesDecl) : (d.view unset me).complete = true := by
  induction d with
  | global a sizes => rfl
  | named a p refs sizes ih => exact ih

theorem matchesNodes_view (n t : NodesDecl) :
    matchesNodes (first (n.view unset me)) (first (t.view unset me)) = true ↔ n.Matches t := by
  simp [matchesNodes, Matches]

theorem any_view (n t : NodesDecl) :
    (t.view unset me).any (matchesNodes (first (n.view unset me))) = true ↔ n.Meets t := by
  induction t with
  | global a sizes =>
    have h := @matchesNodes_view unset me n (.global a sizes)
    simp only [Meets, lineage, List.mem_singleton, exists_eq_left]
    exact h
  | named a p refs sizes ih =>
    have h := @matchesNodes_view unset me n (.named a p refs sizes)
    have hm : n.Meets (.named a p refs sizes) ↔ n.Matches (.named a p refs sizes) ∨ n.Meets p := by
      simp [Meets, lineage]
    rw [hm, ← ih, ← h, view, Chain.any, Bool.or_eq_true]
    rfl

theorem meets_global (a : ℕ) (sizes : List ℕ) (t : NodesDecl) :
    (NodesDecl.global a sizes).Meets t := by
  induction t with
  | global b sizes' => exact ⟨_, List.mem_singleton_self _, Or.inr ⟨rfl, rfl⟩⟩
  | named b p refs sizes' ih =>
    obtain ⟨c, hc, hm⟩ := ih
    exact ⟨c, List.mem_cons_of_mem _ hc, hm⟩

theorem prod_sizes_global {a : ℕ} {sizes : List ℕ}
    (h : (NodesDecl.global a sizes).WellBuilt worldSize) :
    sizes.prod = worldSize := h

theorem eq_global {d : NodesDecl} (h : d.attr = .entire) : ∃ a sizes, d = .global a sizes := by
  cases d with
  | global a sizes => exact ⟨a, sizes, rfl⟩
  | named a p refs sizes => cases h

theorem matchedCoord_view {n t : NodesDecl} (hn : n.WellBuilt worldSize)
    (ht : t.WellBuilt worldSize)
    (hq : q < worldSize) (haddr : n.addr = t.addr → n = t) (h : n.Matches t) :
    matchedCoord (first (n.view unset me)) ((n.coord q).map Nat.cast) (first (t.view unset me)) =
      (t.coord q).map Nat.cast := by
  rw [matchedCoord]
  simp only [first_view_addr]
  split_ifs with ha
  · rw [haddr ha]
  · obtain ⟨hna, hta⟩ := h.resolve_left ha
    obtain ⟨a, sizes, rfl⟩ := eq_global hna
    obtain ⟨b, sizes', rfl⟩ := eq_global hta
    have hr : q < (first ((NodesDecl.global a sizes).view unset me)).sizes.prod := by
      rw [first_view_sizes]
      exact hq.trans_eq (prod_sizes_global hn).symm
    have hr' : q < (first ((NodesDecl.global b sizes').view unset me)).sizes.prod := by
      rw [first_view_sizes]
      exact hq.trans_eq (prod_sizes_global ht).symm
    have hlin := calcLinearRank_natCast _ hr
    have harr := calcRankArray_natCast _ hr'
    rw [first_view_sizes] at hlin harr
    rw [coord, commRank, hlin, harr]
    rfl

theorem inheritInfoOn_of_infoRight {p : NodesDecl} {refs : List NodesRef}
    (h : InfoRight me p refs) :
    p.inheritInfoOn refs me = List.zipWith (fun (ref : NodesRef) (size : ℕ) =>
      ⟨ref.shrink, ref.lower, ref.upper, ref.stride, size⟩) (validRefs p.sizes refs) p.sizes := by
  rw [inheritInfoOn]
  rcases h with h | h
  · rw [if_pos h]
  · rw [h, ite_self]

theorem commRank_lt_prod {d : NodesDecl} (h : d.WellBuilt worldSize) (hq : q < worldSize)
    (hm : d.isMember q = true) : d.commRank q < d.sizes.prod :=
  commRank_lt h hq hm

theorem targetRank_view {a : ℕ} {p : NodesDecl} {refs : List NodesRef} {sizes : List ℕ}
    (h : (NodesDecl.named a p refs sizes).WellBuilt worldSize) (hq : q < worldSize)
    (hm : (NodesDecl.named a p refs sizes).isMember q = true) (hd : DownRight me q p refs) :
    targetRank (p.inheritInfoOn refs me) ((p.coord q).map Nat.cast) =
      (NodesDecl.named a p refs sizes).commRank q := by
  obtain ⟨hinfo, hplaces⟩ := hd
  have hlen := (normal_validRefs h).1.length_eq
  rw [commRank_named h hq hm, ← placesRank_eq hlen.symm hplaces,
    inheritInfoOn_of_infoRight hinfo, targetRank, targetRank_foldl]
  ring

theorem coord2_view {n t : NodesDecl} (hn : n.WellBuilt worldSize) (ht : t.WellBuilt worldSize)
    (hq : q < worldSize) (hm : t.isMember q = true)
    (haddr : ∀ b ∈ t.lineage, n.addr = b.addr → n = b) (hmeets : n.Meets t)
    (hdown : AllDownRight me q n t) :
    calcCoordOnTargetNodes2 (first (n.view unset me)) ((n.coord q).map Nat.cast) (t.view unset me) =
      some (some ((t.coord q).map Nat.cast)) := by
  induction t with
  | global a sizes =>
    have hmatch : n.Matches (.global a sizes) := by simpa [Meets, lineage] using hmeets
    rw [coord2_of_matches _ ((matchesNodes_view n _).mpr hmatch),
      matchedCoord_view hn ht hq (haddr _ (by simp [lineage])) hmatch]
  | named a p refs sizes ih =>
    by_cases hmatch : n.Matches (.named a p refs sizes)
    · rw [coord2_of_matches _ ((matchesNodes_view n _).mpr hmatch),
        matchedCoord_view hn ht hq (haddr _ (by simp [lineage])) hmatch]
    · obtain ⟨hstep, hrest⟩ := hdown.resolve_left hmatch
      have hmeets' : n.Meets p := by simpa [Meets, lineage, hmatch] using hmeets
      have hmp : p.isMember q = true := by
        rw [isMember, Bool.and_eq_true] at hm
        exact hm.1
      have hp := ih ht.1 hmp (fun b hb => haddr b (List.mem_cons_of_mem _ hb)) hmeets' hrest
      have hno := mt (@matchesNodes_view unset me n (.named a p refs sizes)).mp hmatch
      rw [view, first] at hno
      have harr := calcRankArray_natCast
        (first ((NodesDecl.named a p refs sizes).view unset me)) (commRank_lt_prod ht hq hm)
      rw [view, calcCoordOnTargetNodes2, if_neg hno, hp]
      simp only [targetRank_view ht hq hm hstep]
      exact congrArg (some ∘ some) harr

theorem coord2_view_none {n t : NodesDecl} (h : ¬ n.Meets t) (ncoord : List ℤ) :
    calcCoordOnTargetNodes2 (first (n.view unset me)) ncoord (t.view unset me) = some none := by
  have hany := Bool.eq_false_iff.mpr (mt (@any_view unset me n t).mp h)
  rw [coord2_of_not_any ncoord hany, complete_view, if_pos rfl]

/-! ## The way up -/

theorem place_of_includes {size : ℕ} {ref : NodesRef} (h : ref.Normal size)
    (hs : ref.shrink = false) {x : ℕ} (hx : ref.includes x = true) :
    0 ≤ ((x : ℤ) - ref.lower).tdiv ref.stride ∧
      ref.stride * ((x : ℤ) - ref.lower).tdiv ref.stride + ref.lower = x := by
  obtain ⟨L, S, k, hl, hst, hu, hS, -⟩ := h.exists_nat
  rw [NodesRef.includes_iff hs hl hst hu hS] at hx
  obtain ⟨j, -, rfl⟩ := hx
  have hdiv : (((L + S * j : ℕ) : ℤ) - ref.lower).tdiv ref.stride = j := by
    rw [hl, hst]
    push_cast
    rw [add_sub_cancel_left, Int.mul_tdiv_cancel_left _ (by omega)]
  rw [hdiv, hl, hst]
  exact ⟨Int.natCast_nonneg j, by push_cast; ring⟩

theorem tdiv_tmod_of_lt {m below d : ℤ} (hb : 0 ≤ below) (hm : below < m) (hd : 0 ≤ d) :
    (below + m * d).tdiv m = d ∧ (below + m * d).tmod m = below := by
  have hnonneg : 0 ≤ below + m * d := add_nonneg hb (mul_nonneg (by omega) hd)
  constructor
  · rw [Int.tdiv_eq_ediv_of_nonneg hnonneg, Int.add_mul_ediv_left _ _ (by omega),
      Int.ediv_eq_zero_of_lt hb hm, zero_add]
  · rw [Int.tmod_eq_emod_of_nonneg hnonneg, Int.add_mul_emod_self_left, Int.emod_eq_of_lt hb hm]

/-- The places of the rank from the last dimension on give the coordinates. -/
theorem parentCoord_foldr {sizes : List ℕ} {refs : List NodesRef}
    (hn : NodesDesc.NormalRefs sizes refs) {cs : List ℕ} {ms rs : List ℤ} {count below : ℤ}
    (hcs : cs.length = sizes.length) (hms : ms.length = sizes.length)
    (hrs : rs.length = sizes.length)
    (hm : (refs.zip cs).all (fun d => d.1.includes d.2) = true)
    (hshr : ∀ d ∈ refs.zip (cs.zip rs), d.1.shrink = true → (d.2.1 : ℤ) = d.2.2)
    (h : ClimbsRight ms refs cs count below) (hb : 0 ≤ below) (hc : 0 ≤ count) :
    ((((List.zipWith (fun (ref : NodesRef) (size : ℕ) =>
      (⟨ref.shrink, ref.lower, ref.upper, ref.stride, size⟩ : InheritInfo)) refs sizes).zip ms).zip
      rs).foldr (fun (d : (InheritInfo × ℤ) × ℤ) (st : ℤ × List ℤ) =>
        if d.1.1.shrink then (st.1, d.2 :: st.2)
        else (st.1.tmod d.1.2, (d.1.1.stride * st.1.tdiv d.1.2 + d.1.1.lower) :: st.2))
      (below + count * sectionRank refs cs, [])) = (below, cs.map Nat.cast) := by
  induction hn generalizing cs ms rs count below with
  | nil =>
    rw [List.length_nil, List.length_eq_zero_iff] at hcs
    subst hcs
    simp [sectionRank]
  | @cons size ref sizes refs hnorm _ ih =>
    obtain ⟨c, cs, rfl⟩ := List.exists_cons_of_length_eq_add_one hcs
    obtain ⟨m, ms, rfl⟩ := List.exists_cons_of_length_eq_add_one hms
    obtain ⟨r, rs, rfl⟩ := List.exists_cons_of_length_eq_add_one hrs
    simp only [List.length_cons, Nat.add_right_cancel_iff] at hcs hms hrs
    simp only [List.zip_cons_cons, List.all_cons, Bool.and_eq_true] at hm
    have hshr' : ∀ d ∈ refs.zip (cs.zip rs), d.1.shrink = true → (d.2.1 : ℤ) = d.2.2 :=
      fun d hd => hshr d (by simp [hd])
    have hr := hshr (ref, c, r) (by simp)
    simp only [List.zipWith_cons_cons, List.zip_cons_cons, List.foldr_cons, List.map_cons]
    rw [ClimbsRight] at h
    rw [sectionRank]
    cases hs : ref.shrink with
    | true =>
      simp only [hs, if_true] at h
      simp only [if_true, ih hcs hms hrs hm.2 hshr' h hb hc, hr hs]
    | false =>
      simp only [hs, Bool.false_eq_true, if_false] at h
      obtain ⟨hlt, hplace, hrest⟩ := h
      obtain ⟨hd, hnode⟩ := place_of_includes (hnorm hs) hs hm.1
      have hcount : 0 ≤ ref.count := by
        obtain ⟨L, S, k, hl, hst, hu, hS, -⟩ := (hnorm hs).exists_nat
        rw [NodesRef.count_eq hs hl hst hu hS]
        omega
      -- the places above leave `below` and this dimension's share of the rank
      have hj := ih hcs hms hrs hm.2 hshr' hrest (add_nonneg hb (mul_nonneg hc hd))
        (mul_nonneg hc hcount)
      have hsplit : below + count * (((c : ℤ) - ref.lower).tdiv ref.stride +
          ref.count * sectionRank refs cs) = below + count * ((c : ℤ) - ref.lower).tdiv ref.stride +
          count * ref.count * sectionRank refs cs := by ring
      have hshare : count * ((c : ℤ) - ref.lower).tdiv ref.stride =
          m * ((c : ℤ) - ref.lower).tdiv ref.stride := by
        rcases hplace with hlow | rfl
        · rw [hlow, sub_self, Int.zero_tdiv, mul_zero, mul_zero]
        · rfl
      obtain ⟨hdiv, hmod⟩ := tdiv_tmod_of_lt hb hlt hd
      simp only [Bool.false_eq_true, if_false]
      rw [hsplit, hj, hshare, hdiv, hmod, hnode]

theorem length_multipliers (infos : List InheritInfo) :
    (multipliers infos).length = infos.length := by
  cases infos with
  | nil => rfl
  | cons info infos => rw [multipliers, List.length_scanl, List.length_cons]

theorem length_coord (d : NodesDecl) (q : ℕ) : (d.coord q).length = d.sizes.length :=
  length_residues ..

theorem length_rankOn (d : NodesDecl) : (d.rankOn unset me).length = d.sizes.length := by
  rw [rankOn]
  split_ifs
  · rw [List.length_map, length_coord]
  · rw [List.length_map, List.length_range]

theorem parentCoord_view {pastEnd : Option ℤ} {a : ℕ} {p : NodesDecl} {refs : List NodesRef}
    {sizes : List ℕ} (h : (NodesDecl.named a p refs sizes).WellBuilt worldSize) (hq : q < worldSize)
    (hm : (NodesDecl.named a p refs sizes).isMember q = true)
    (hup : UpRight pastEnd unset me q (.named a p refs sizes) p refs) :
    parentCoord pastEnd (first ((NodesDecl.named a p refs sizes).view unset me))
      (((NodesDecl.named a p refs sizes).coord q).map Nat.cast) (p.rankOn unset me) =
      (p.coord q).map Nat.cast := by
  obtain ⟨hinfo, -, hpast, hclimb, hshr⟩ := hup
  obtain ⟨hn, -⟩ := normal_validRefs h
  have hrank := calcLinearRank_natCast (first ((NodesDecl.named a p refs sizes).view unset me))
    (commRank_lt_prod h hq hm)
  have hincl : ((validRefs p.sizes refs).zip (p.coord q)).all
    (fun d => d.1.includes d.2) = true := by
    rw [isMember, Bool.and_eq_true] at hm
    exact hm.2
  have hms : (multipliers (p.inheritInfoOn refs me)).length = p.sizes.length := by
    rw [length_multipliers, inheritInfoOn_of_infoRight hinfo, List.length_zipWith, ← hn.length_eq,
      min_self]
  have hfold := parentCoord_foldr hn (length_coord p q) hms (length_rankOn p) hincl hshr hclimb
    le_rfl zero_le_one
  rw [zero_add, one_mul, ← commRank_named h hq hm] at hfold
  have hi : (first ((NodesDecl.named a p refs sizes).view unset me)).inheritInfo =
      p.inheritInfoOn refs me := rfl
  rw [first_view_sizes] at hrank
  rw [← inheritInfoOn_of_infoRight hinfo] at hfold
  have hcoord : (NodesDecl.named a p refs sizes).coord q =
      residues 1 (NodesDecl.named a p refs sizes).sizes
        ((NodesDecl.named a p refs sizes).commRank q) := rfl
  simp only [parentCoord, hcoord, hrank, hi]
  cases pastEnd with
  | none => rw [hfold]
  | some m => simp only [(hpast m rfl).2, hfold]

theorem pastEndError_view {pastEnd : ℕ → Option ℤ} {a : ℕ} {p : NodesDecl} {refs : List NodesRef}
    {sizes : List ℕ} (h : (NodesDecl.named a p refs sizes).WellBuilt worldSize)
    (hup : UpRight (pastEnd a) unset me q (.named a p refs sizes) p refs) :
    pastEndError pastEnd (first ((NodesDecl.named a p refs sizes).view unset me)) = none := by
  obtain ⟨hinfo, hdim, hpast, -⟩ := hup
  obtain ⟨hn, -⟩ := normal_validRefs h
  have hlen : (first ((NodesDecl.named a p refs sizes).view unset me)).inheritInfo.length =
      p.sizes.length := by
    change (p.inheritInfoOn refs me).length = _
    rw [inheritInfoOn_of_infoRight hinfo, List.length_zipWith, ← hn.length_eq, min_self]
  have haddr : (first ((NodesDecl.named a p refs sizes).view unset me)).addr = a := rfl
  rw [pastEndError, if_neg (by rw [hlen]; omega), haddr,
    if_neg fun h0 : pastEnd a = some 0 => (hpast 0 h0).1 rfl]

/-- Where every step is right, the search finds the process' own coordinates. -/
theorem coord_view {pastEnd : ℕ → Option ℤ} {n t : NodesDecl} (hn : n.WellBuilt worldSize)
    (ht : t.WellBuilt worldSize) (hq : q < worldSize) (hmn : n.isMember q = true)
    (hmt : t.isMember q = true)
    (haddr : ∀ a ∈ n.lineage, ∀ b ∈ t.lineage, a.addr = b.addr → a = b)
    (h : SearchRight pastEnd unset me q t n) :
    NodesType.calcCoordOnTargetNodes pastEnd (t.view unset me) (n.view unset me)
      ((n.coord q).map Nat.cast) = some (.ok (some ((t.coord q).map Nat.cast))) := by
  induction n with
  | global a sizes =>
    have hfound := @coord2_view _ unset me _ _ _ hn ht hq hmt (haddr _ (by simp [lineage]))
      (meets_global a sizes t) h
    rw [view, first] at hfound
    rw [view, NodesType.calcCoordOnTargetNodes, hfound]
    rfl
  | named a p refs sizes ih =>
    by_cases hmeets : (NodesDecl.named a p refs sizes).Meets t
    · have hfound := @coord2_view _ unset me _ _ _ hn ht hq hmt (haddr _ (by simp [lineage])) hmeets
        (h.1 hmeets)
      rw [view, first] at hfound
      rw [view, NodesType.calcCoordOnTargetNodes, hfound]
      rfl
    · obtain ⟨hup, hrest⟩ := h.2 hmeets
      have hnone := @coord2_view_none unset me _ _ hmeets
        (((NodesDecl.named a p refs sizes).coord q).map Nat.cast)
      have hparent := parentCoord_view hn hq hmn hup
      have hend := pastEndError_view hn hup
      rw [view, first] at hnone hparent hend
      have hmp : p.isMember q = true := by
        rw [isMember, Bool.and_eq_true] at hmn
        exact hmn.1
      rw [view, NodesType.calcCoordOnTargetNodes, hnone, first_view_rank]
      simp only [hend, hparent]
      exact ih hn.1 hmp (fun b hb => haddr b (List.mem_cons_of_mem _ hb)) hrest

end NodesDecl

/-- The search that the process `me` makes for the process `q` returns the coordinates that `q` has
in the target when every step of it is right. -/
theorem calcCoordOnTargetNodes_right (worldSize : ℕ) (pastEnd : ℕ → Option ℤ) (unset : ℕ → ℕ → ℤ)
    (me q : ℕ) (n t : NodesDecl) (hn : n.WellBuilt worldSize) (ht : t.WellBuilt worldSize)
    (hq : q < worldSize) (hmn : n.isMember q = true) (hmt : t.isMember q = true)
    (haddr : ∀ a ∈ n.lineage, ∀ b ∈ t.lineage, a.addr = b.addr → a = b)
    (h : NodesDecl.SearchRight pastEnd unset me q t n) :
    NodesType.calcCoordOnTargetNodes pastEnd (t.view unset me) (n.view unset me)
      ((n.coord q).map Nat.cast) = some (.ok (some ((t.coord q).map Nat.cast))) :=
  NodesDecl.coord_view hn ht hq hmn hmt haddr h

/-- Six processes: the node arrays `p(3,2)` and `l(6)`. -/
def gridNodesDecl : NodesDecl := .global 1 [3, 2]

def lineNodesDecl : NodesDecl := .global 2 [6]

/-- The second column `c = p(1:3,2:2)`, the middle `m = l(2:5)`, and the corner `s = p(1:2,1:2)`. -/
def columnNodesDecl : NodesDecl := .named 3 gridNodesDecl [⟨false, 1, 3, 1⟩, ⟨false, 2, 2, 1⟩] [3]

def middleNodesDecl : NodesDecl := .named 4 lineNodesDecl [⟨false, 2, 5, 1⟩] [4]

def cornerNodesDecl : NodesDecl := .named 5 gridNodesDecl [⟨false, 1, 2, 1⟩, ⟨false, 1, 2, 1⟩] [4]

theorem wellBuilt_columnNodesDecl : columnNodesDecl.WellBuilt 6 :=
  ⟨rfl, rfl, ⟨_, rfl⟩, by decide, by decide⟩

theorem wellBuilt_middleNodesDecl : middleNodesDecl.WellBuilt 6 :=
  ⟨rfl, rfl, ⟨_, rfl⟩, by decide, by decide⟩

theorem wellBuilt_cornerNodesDecl : cornerNodesDecl.WellBuilt 6 :=
  ⟨rfl, rfl, ⟨_, rfl⟩, by decide, by decide⟩

/-- The fourth process is the third of `m` and the first of `c`. -/
theorem calcCoordOnTargetNodes_column :
    NodesType.calcCoordOnTargetNodes (fun _ => none) (columnNodesDecl.view (fun _ _ => 0) 0)
      (middleNodesDecl.view (fun _ _ => 0) 0) [2] = some (.ok (some [0])) := by
  apply calcCoordOnTargetNodes_right 6 (fun _ => none) (fun _ _ => 0) 0 3 middleNodesDecl
    columnNodesDecl
    wellBuilt_middleNodesDecl wellBuilt_columnNodesDecl (by decide) (by decide) (by decide)
  · simp [middleNodesDecl, columnNodesDecl, lineNodesDecl, gridNodesDecl, NodesDecl.lineage,
      NodesDecl.addr]
  · constructor
    · rintro ⟨b, hb, hm⟩
      obtain rfl | rfl : b = columnNodesDecl ∨ b = gridNodesDecl := by
        simpa [columnNodesDecl, gridNodesDecl, NodesDecl.lineage] using hb
      all_goals exact absurd hm (by unfold NodesDecl.Matches; decide)
    · intro _
      refine ⟨⟨Or.inl rfl, by decide, by simp, ⟨by decide, Or.inr (by decide), trivial⟩,
        by decide⟩, Or.inr ?_⟩
      refine ⟨⟨Or.inl rfl, fun _ hcount => absurd (by decide) hcount, ?_, trivial⟩, trivial⟩
      intro _ _ d hd
      cases hd

/-- The fourth process is the third of `s`, and the search answers that it is the fourth. -/
theorem calcCoordOnTargetNodes_corner :
    gridNodesDecl.WellBuilt 6 ∧ cornerNodesDecl.WellBuilt 6 ∧ cornerNodesDecl.isMember 3 = true ∧
    (∀ a ∈ gridNodesDecl.lineage, ∀ b ∈ cornerNodesDecl.lineage, a.addr = b.addr → a = b) ∧
    gridNodesDecl.coord 3 = [0, 1] ∧ cornerNodesDecl.coord 3 = [2] ∧
    ∀ pastEnd unset, ∀ me < 6,
      NodesType.calcCoordOnTargetNodes pastEnd (cornerNodesDecl.view unset me)
      (gridNodesDecl.view unset me) [0, 1] = some (.ok (some [3])) := by
  refine ⟨rfl, wellBuilt_cornerNodesDecl, by decide, ?_, by decide, by decide, ?_⟩
  · simp [gridNodesDecl, cornerNodesDecl, NodesDecl.lineage, NodesDecl.addr]
  · intro pastEnd unset me _
    rfl

end OmniCompiler.Xmp
