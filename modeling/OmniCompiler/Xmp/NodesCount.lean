import OmniCompiler.Xmp.NodesNamed

/-!
# Sizes, ranks and the count through the nodes (`xmp_nodes.c`)

The constructors of a node set fix its sizes and place values once. Reading a rank as coordinates,
reading coordinates as a rank and stepping from one node to the next are three loops over them.
-/
namespace OmniCompiler.Xmp

open MixedRadix

/-- `info[i].size` and, on a member, `info[i].rank`. -/
structure InitInfo where
  size : List ℕ
  rank : Option (List ℕ)
  deriving DecidableEq, Repr

/-- `_XMP_init_nodes_info` for a communicator of `commSize` processes; `last` is
`dim_size[dim-1]`, which only a static node set reads, and `commRank` the rank of a member. -/
def initNodesInfo (commSize : ℕ) (commRank : Option ℕ) (dims : List ℕ) (last : ℕ)
    (isStatic : Bool) : Except String InitInfo := do
  let accSize := dims.foldl (· * ·) 1
  let endSize ←
    if isStatic then
      if accSize * last ≠ commSize then .error "incorrect communicator size"
      else .ok last
    else if accSize > commSize then
      .error "indicated communicator size is bigger than the actual communicator size"
    else if commSize % accSize ≠ 0 then .error "cannot determine communicator size dynamically"
    else .ok (commSize / accSize)
  let size := dims ++ [endSize]
  .ok ⟨size, commRank.map (residues 1 size)⟩

/-- `info[i].multiplier`, as the constructors set it from the sizes given to them. -/
def initMultipliers (dims : List ℕ) : List ℕ := dims.scanl (· * ·) 1

/-- The loop of `_XMP_get_next_rank` over the dimensions. -/
def nextRank : List ℕ → List ℕ → Bool × List ℕ
  | size :: sizes, c :: cs =>
    if c + 1 = size then
      let (more, cs') := nextRank sizes cs
      (more, 0 :: cs')
    else (true, (c + 1) :: cs)
  | _, cs => (false, cs)

def getNextRank (n : NodesDesc) (rankArray : List ℕ) : Bool × List ℕ := nextRank n.sizes rankArray

/-- The coordinates that `do … while(_XMP_get_next_rank(…))` sees, and those it leaves. -/
def nextRankLoop (n : NodesDesc) : ℕ → List ℕ → Option (List (List ℕ) × List ℕ)
  | 0, _ => none
  | fuel + 1, rankArray =>
    let (more, rankArray') := getNextRank n rankArray
    if more then
      (nextRankLoop n fuel rankArray').map fun st => (rankArray :: st.1, st.2)
    else some ([rankArray], rankArray')

/-! ## The constructors -/

theorem places_append_singleton (m x : ℕ) (dims : List ℕ) :
    places m (dims ++ [x]) = dims.scanl (· * ·) m := by
  induction dims generalizing m with
  | nil => rfl
  | cons s dims ih => rw [List.cons_append, places, ih, List.scanl_cons]

/-- The sizes of an accepted node set multiply to the size of its communicator. -/
theorem initNodesInfo_ok {commSize : ℕ} {commRank : Option ℕ} {dims : List ℕ} {last : ℕ}
    {isStatic : Bool} {info : InitInfo}
    (h : initNodesInfo commSize commRank dims last isStatic = .ok info) :
    ∃ endSize, info.size = dims ++ [endSize] ∧ info.size.prod = commSize ∧
      info.rank = commRank.map (residues 1 info.size) := by
  have hacc : dims.foldl (· * ·) 1 = dims.prod := List.prod_eq_foldl.symm
  have hend : ∀ endSize, dims.prod * endSize = commSize →
      (⟨dims ++ [endSize], commRank.map (residues 1 (dims ++ [endSize]))⟩ : InitInfo) = info →
      ∃ endSize, info.size = dims ++ [endSize] ∧ info.size.prod = commSize ∧
        info.rank = commRank.map (residues 1 info.size) := by
    rintro endSize hprod rfl
    exact ⟨endSize, rfl, by simpa using hprod, rfl⟩
  unfold initNodesInfo at h
  simp only [hacc] at h
  split_ifs at h with hs h1 h2 h3
  · exact absurd h (by simp [bind, Except.bind])
  · exact hend last (by simpa using h1) (by simpa [bind, Except.bind] using h)
  · exact absurd h (by simp [bind, Except.bind])
  · exact absurd h (by simp [bind, Except.bind])
  · have hdvd : dims.prod ∣ commSize := Nat.dvd_of_mod_eq_zero (by simpa using h3)
    exact hend _ (Nat.mul_div_cancel' hdvd) (by simpa [bind, Except.bind] using h)

/-! ## The count -/

theorem residues_zero (m : ℕ) (sizes : List ℕ) :
    residues m sizes 0 = List.replicate sizes.length 0 := by
  induction sizes generalizing m with
  | nil => rfl
  | cons s sizes ih =>
    rw [residues, ih, Nat.zero_div, Nat.zero_mod, List.length_cons, List.replicate_succ]

theorem nextRank_residues {sizes : List ℕ} {r : ℕ} (hr : r < sizes.prod) :
    nextRank sizes (residues 1 sizes r) =
      if r + 1 = sizes.prod then (false, List.replicate sizes.length 0)
      else (true, residues 1 sizes (r + 1)) := by
  induction sizes generalizing r with
  | nil =>
    rw [List.prod_nil] at hr
    rw [List.prod_nil, if_pos (by omega)]
    rfl
  | cons s sizes ih =>
    rw [List.prod_cons] at hr ⊢
    have hs : 0 < s := Nat.pos_of_mul_pos_right (Nat.zero_lt_of_lt hr)
    have hq : r / s < sizes.prod := Nat.div_lt_of_lt_mul hr
    have hx := Nat.mod_lt r hs
    rw [← Nat.div_add_mod' r s] at hr ⊢
    generalize r / s = q at *
    generalize r % s = x at *
    rw [residues_cons hx, nextRank]
    by_cases hc : x + 1 = s
    · -- the digit starts again and hands on the carry
      have hnext : q * s + x + 1 = (q + 1) * s := by rw [add_one_mul]; omega
      rw [if_pos hc, ih hq, hnext, mul_comm s]
      by_cases hlast : q + 1 = sizes.prod
      · rw [if_pos hlast, hlast, if_pos rfl, List.length_cons, List.replicate_succ]
      · have hne : ¬(q + 1) * s = sizes.prod * s := fun heq =>
          hlast (Nat.eq_of_mul_eq_mul_right hs heq)
        have hstep := residues_cons hs sizes (q + 1)
        rw [add_zero] at hstep
        rw [if_neg hlast, if_neg hne, hstep]
    · have hx' : x + 1 < s := by omega
      have hne : ¬q * s + x + 1 = s * sizes.prod := by
        have hle := Nat.mul_le_mul_right s (Nat.succ_le_of_lt hq)
        rw [Nat.succ_mul, mul_comm sizes.prod] at hle
        omega
      rw [if_neg hc, if_neg hne, add_assoc, residues_cons hx']

namespace NodesDesc

variable {n : NodesDesc}

theorem calcRankArray_eq_infoRank (hpos : ∀ s ∈ n.sizes, 0 < s) {r : ℕ} (hr : r < n.commSize) :
    calcRankArray n r = n.infoRank r := by
  obtain ⟨hin, hval⟩ := calcRankArray_spec hpos hr
  rw [calcLinearRank_eq] at hval
  rw [infoRank, ← hval, residues_value (hval.symm ▸ hin), hval]

theorem commSize_pos (hpos : ∀ s ∈ n.sizes, 0 < s) : 0 < n.commSize :=
  Nat.pos_of_ne_zero fun h0 => by
    have hmem := List.prod_eq_zero_iff.mp h0
    exact absurd (hpos 0 hmem) (lt_irrefl 0)

theorem getNextRank_calcRankArray (hpos : ∀ s ∈ n.sizes, 0 < s) {r : ℕ} (hr : r < n.commSize) :
    getNextRank n (calcRankArray n r) =
      if r + 1 = n.commSize then (false, List.replicate n.sizes.length 0)
      else (true, calcRankArray n (r + 1)) := by
  rw [getNextRank, calcRankArray_eq_infoRank hpos hr, infoRank, nextRank_residues hr,
    ← commSize]
  by_cases hlast : r + 1 = n.commSize
  · rw [if_pos hlast, if_pos hlast]
  · rw [if_neg hlast, if_neg hlast, calcRankArray_eq_infoRank hpos (by omega), infoRank]

theorem calcRankArray_zero (hpos : ∀ s ∈ n.sizes, 0 < s) :
    calcRankArray n 0 = List.replicate n.sizes.length 0 := by
  rw [calcRankArray_eq_infoRank hpos (commSize_pos hpos), infoRank, residues_zero]

theorem nextRankLoop_from (hpos : ∀ s ∈ n.sizes, 0 < s) (k : ℕ) {fuel r : ℕ}
    (hr : r + (k + 1) = n.commSize) (hfuel : k < fuel) :
    nextRankLoop n fuel (calcRankArray n r) =
      some ((List.range' r (k + 1)).map (calcRankArray n), List.replicate n.sizes.length 0) := by
  induction k generalizing r fuel with
  | zero =>
    obtain ⟨fuel, rfl⟩ := Nat.exists_eq_succ_of_ne_zero (Nat.ne_of_gt hfuel)
    rw [nextRankLoop, getNextRank_calcRankArray hpos (by omega), if_pos (by omega),
      List.range'_one]
    rfl
  | succ k ih =>
    obtain ⟨fuel, rfl⟩ := Nat.exists_eq_succ_of_ne_zero (Nat.ne_of_gt (Nat.zero_lt_of_lt hfuel))
    rw [nextRankLoop, getNextRank_calcRankArray hpos (by omega), if_neg (by omega)]
    simp only [if_true]
    rw [ih (by omega) (by omega), List.range'_succ, List.map_cons]
    rfl

theorem nextRankLoop_zero (hpos : ∀ s ∈ n.sizes, 0 < s) {fuel : ℕ} (hfuel : n.commSize ≤ fuel) :
    nextRankLoop n fuel (List.replicate n.sizes.length 0) =
      some ((List.range n.commSize).map (calcRankArray n), List.replicate n.sizes.length 0) := by
  have h0 := commSize_pos hpos
  rw [← calcRankArray_zero hpos, nextRankLoop_from hpos (n.commSize - 1) (by omega) (by omega),
    Nat.sub_add_cancel h0, ← List.range_eq_range', calcRankArray_zero hpos]

/-- Ranks and coordinates of a node set correspond, and the count runs through them in order. -/
structure Counted (n : NodesDesc) : Prop where
  linear_of_array : ∀ r < n.commSize,
    InRange (calcRankArray n r) n.sizes ∧ calcLinearRank n (calcRankArray n r) = r
  array_of_linear : ∀ cs, InRange cs n.sizes →
    calcLinearRank n cs < n.commSize ∧ calcRankArray n (calcLinearRank n cs) = cs
  next : ∀ r < n.commSize, getNextRank n (calcRankArray n r) =
    if r + 1 = n.commSize then (false, List.replicate n.sizes.length 0)
    else (true, calcRankArray n (r + 1))
  loop : ∀ fuel ≥ n.commSize, ∃ visited,
    nextRankLoop n fuel (List.replicate n.sizes.length 0) =
        some (visited, List.replicate n.sizes.length 0) ∧
      visited.map (calcLinearRank n) = List.range n.commSize ∧ visited.Nodup ∧
      ∀ cs, cs ∈ visited ↔ InRange cs n.sizes

theorem counted (hpos : ∀ s ∈ n.sizes, 0 < s) : n.Counted where
  linear_of_array := fun _ hr => calcRankArray_spec hpos hr
  array_of_linear := fun _ hcs => ⟨calcLinearRank_lt hcs, calcRankArray_calcLinearRank hcs⟩
  next := fun _ hr => getNextRank_calcRankArray hpos hr
  loop := fun fuel hfuel => by
    have hlinear : ((List.range n.commSize).map (calcRankArray n)).map (calcLinearRank n) =
        List.range n.commSize := by
      rw [List.map_map]
      refine (List.map_congr_left fun r hr => ?_).trans (List.map_id _)
      exact (calcRankArray_spec hpos (List.mem_range.mp hr)).2
    have hnodup : (List.range n.commSize).Nodup := List.nodup_range
    rw [← hlinear] at hnodup
    refine ⟨_, nextRankLoop_zero hpos hfuel, hlinear, hnodup.of_map _, fun cs => ?_⟩
    rw [List.mem_map]
    constructor
    · rintro ⟨r, hr, rfl⟩
      exact (calcRankArray_spec hpos (List.mem_range.mp hr)).1
    · intro hcs
      exact ⟨_, List.mem_range.mpr (calcLinearRank_lt hcs), calcRankArray_calcLinearRank hcs⟩

/-- The sizes, place values and ranks of every node set that is accepted fit each other. -/
theorem initNodesInfo_counted {commSize commRank : ℕ} (hrank : commRank < commSize)
    {dims : List ℕ} {last : ℕ} {isStatic : Bool} {info : InitInfo}
    (h : initNodesInfo commSize (some commRank) dims last isStatic = .ok info)
    (addr : ℕ) (attr : NodesAttr) :
    (NodesDesc.mk addr attr info.size).commSize = commSize ∧
      (NodesDesc.mk addr attr info.size).multipliers = initMultipliers dims ∧
      (NodesDesc.mk addr attr info.size).Counted ∧
      info.rank = some (calcRankArray ⟨addr, attr, info.size⟩ commRank) := by
  obtain ⟨endSize, hsize, hprod, hinfo⟩ := initNodesInfo_ok h
  have hpos : ∀ s ∈ info.size, 0 < s := by
    intro s hs
    by_contra h0
    obtain rfl : s = 0 := by omega
    rw [List.prod_eq_zero hs] at hprod
    omega
  refine ⟨hprod, ?_, @counted ⟨addr, attr, info.size⟩ hpos, ?_⟩
  · rw [multipliers, hsize, places_append_singleton, initMultipliers]
  · rw [hinfo, Option.map_some, @calcRankArray_eq_infoRank ⟨addr, attr, info.size⟩ hpos commRank
      (hrank.trans_eq hprod.symm), infoRank]

/-- Twelve processes, the third dimension found from their number. -/
theorem initNodesInfo_counted_twelve : (NodesDesc.mk 0 .entire [2, 3, 2]).Counted :=
  (@initNodesInfo_counted 12 7 (by decide) [2, 3] 0 false ⟨[2, 3, 2], some [1, 0, 1]⟩ (by decide)
    0 .entire).2.2.1

end NodesDesc

end OmniCompiler.Xmp
