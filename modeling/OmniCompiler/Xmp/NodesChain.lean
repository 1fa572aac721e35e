import OmniCompiler.Arithmetic.Climb
import OmniCompiler.Xmp.NodesNamed

/-!
# Searches along inherited node sets (`xmp_nodes.c`)

The functions that follow `inherit_nodes` are written on the chain of descriptors from a node set
upwards. On a chain that is cut the search may have to go on: the answer is then `none`.
-/
namespace OmniCompiler.Xmp

open MixedRadix

/-- One entry of `inherit_info`; `size` is the extent of the inherited node set. -/
structure InheritInfo where
  shrink : Bool
  lower : ℤ
  upper : ℤ
  stride : ℤ
  size : ℤ
  deriving DecidableEq, Repr

/-- `_XMP_nodes_t` on the executing process. `addr` stands for the address, `inherit` for that of
`inherit_nodes`; `rank` holds `info[i].rank`, which is not set on a process outside. -/
structure NodesType where
  addr : ℕ
  onRefId : ℕ
  attr : NodesAttr
  commSize : ℕ
  sizes : List ℕ
  rank : List ℤ
  inherit : Option ℕ
  inheritInfo : List InheritInfo
  deriving DecidableEq, Repr

def compareNodes (worldSize : ℕ) (a b : NodesType) : Bool :=
  if a.onRefId = b.onRefId then true
  else if a.commSize = worldSize ∧ a.commSize = b.commSize then true
  else if a.sizes ≠ b.sizes then false
  else if a.inherit ≠ b.inherit then false
  else if a.inherit = none then true
  else (a.inheritInfo.zip b.inheritInfo).all fun d =>
    d.1.shrink = d.2.shrink &&
      (d.1.shrink || (d.1.lower = d.2.lower && d.1.upper = d.2.upper && d.1.stride = d.2.stride))

namespace NodesType

/-- `_XMP_calc_linear_rank`, for any integers as coordinates. -/
def calcLinearRank (n : NodesType) (rankArray : List ℤ) : ℤ :=
  ((rankArray.zip n.sizes).foldl
    (fun (acc : ℤ × ℤ) c => (acc.1 + c.1 * acc.2, acc.2 * (c.2 : ℤ))) (0, 1)).1

/-- `_XMP_calc_rank_array`, for any integer as rank. -/
def calcRankArray (n : NodesType) (linearRank : ℤ) : List ℤ :=
  ((places 1 n.sizes).foldr
    (fun (m : ℕ) (st : ℤ × List ℤ) => (st.1.tmod m, st.1.tdiv m :: st.2)) (linearRank, [])).2

/-- Coordinates in the inherited node set, with `fill` in the shrunk dimensions. -/
def inheritRankArray (fill : ℤ) : List InheritInfo → List ℤ → List ℤ
  | [], _ => []
  | info :: infos, rankArray =>
    if info.shrink then fill :: inheritRankArray fill infos rankArray
    else (info.stride * rankArray.headD 0 + info.lower) ::
      inheritRankArray fill infos rankArray.tail

/-- `_XMP_nodes_ref_t`; the entries for shrunk dimensions are `_XMP_N_UNSPECIFIED_RANK`. -/
structure Ref where
  nodes : ℕ
  ref : List ℤ
  shrinkNodesSize : ℤ

def unspecifiedRank : ℤ := -2

def initNodesRef (n : NodesType) (rankArray : List ℤ) : Ref where
  nodes := n.addr
  ref := rankArray
  shrinkNodesSize := (rankArray.zip n.sizes).foldl
    (fun (acc : ℤ) c => if c.1 = unspecifiedRank then acc * c.2 else acc) 1

/-- The common form of the two searches for a node set that compares equal to the target. -/
def climb {β : Type} (worldSize : ℕ) (target : NodesType) (fill : ℤ)
    (found : NodesType → List ℤ → β) :
    Chain NodesType → List ℤ → Option (Except String β)
  | .root n, ranks =>
    if compareNodes worldSize n target then some (.ok (found n ranks))
    else some (.error "unsupported case: gmove")
  | .cut n, ranks =>
    if compareNodes worldSize n target then some (.ok (found n ranks)) else none
  | .link n parent, ranks =>
    if compareNodes worldSize n target then some (.ok (found n ranks))
    else climb worldSize target fill found parent (inheritRankArray fill n.inheritInfo ranks)

def calcLinearRankOnTargetNodes (worldSize : ℕ) (n : Chain NodesType) (rankArray : List ℤ)
    (target : NodesType) : Option (Except String ℤ) :=
  climb worldSize target 0 calcLinearRank n rankArray

def createNodesRefForTargetNodes (worldSize : ℕ) (n : Chain NodesType) (rankArray : List ℤ)
    (target : NodesType) : Option (Except String Ref) :=
  climb worldSize target unspecifiedRank initNodesRef n rankArray

/-- The two tests at the start of `_XMP_calc_coord_on_target_nodes2`. -/
def matchesNodes (n target : NodesType) : Bool :=
  n.addr = target.addr || (n.attr = .entire && target.attr = .entire)

def matchedCoord (n : NodesType) (ncoord : List ℤ) (target : NodesType) : List ℤ :=
  if n.addr = target.addr then ncoord else target.calcRankArray (n.calcLinearRank ncoord)

/-- The rank in a node set of the process with coordinates `pcoord` in the inherited node set. The
place value is multiplied by the extents of the inherited node set. -/
def targetRank (infos : List InheritInfo) (pcoord : List ℤ) : ℤ :=
  ((infos.zip pcoord).foldl (fun (st : ℤ × ℤ) d =>
    if d.1.shrink then st
    else (st.1 + st.2 * (d.2 - d.1.lower).tdiv d.1.stride, st.2 * d.1.size)) (0, 1)).1

/-- `_XMP_calc_coord_on_target_nodes2`: `some none` is the answer `false`. -/
def calcCoordOnTargetNodes2 (n : NodesType) (ncoord : List ℤ) :
    Chain NodesType → Option (Option (List ℤ))
  | .root target =>
    some (if matchesNodes n target then some (matchedCoord n ncoord target) else none)
  | .cut target =>
    if matchesNodes n target then some (some (matchedCoord n ncoord target)) else none
  | .link target parent =>
    if matchesNodes n target then some (some (matchedCoord n ncoord target))
    else
      match calcCoordOnTargetNodes2 n ncoord parent with
      | some (some pcoord) =>
        some (some (target.calcRankArray (targetRank target.inheritInfo pcoord)))
      | r => r

/-- `multiplier[i]` of `_XMP_calc_coord_on_target_nodes`. -/
def multipliers : List InheritInfo → List ℤ
  | [] => []
  | _ :: infos => infos.scanl (fun m info => m * info.size) 1

def maxDim : ℕ := 7

/-- What ends the program on the way up. The loop starts one entry past the end of `inherit_info`
and `multiplier`: `pastEnd` is `none` when the field `shrink` found there is not zero, and else the
multiplier found there. With the largest number of dimensions it also stores past the end of
`pcoord`. -/
def pastEndError (pastEnd : ℕ → Option ℤ) (n : NodesType) : Option String :=
  if maxDim ≤ n.inheritInfo.length then some "store past the end of pcoord"
  else if pastEnd n.addr = some 0 then some "division by zero"
  else none

/-- The coordinates in the inherited node set, from a multiplier past the end that is not zero. -/
def parentCoord (pastEnd : Option ℤ) (n : NodesType) (ncoord : List ℤ) (parentRank : List ℤ) :
    List ℤ :=
  let rank := n.calcLinearRank ncoord
  let j := match pastEnd with
    | none => rank
    | some m => rank.tmod m
  (((n.inheritInfo.zip (multipliers n.inheritInfo)).zip parentRank).foldr
    (fun (d : (InheritInfo × ℤ) × ℤ) (st : ℤ × List ℤ) =>
      if d.1.1.shrink then (st.1, d.2 :: st.2)
      else (st.1.tmod d.1.2, (d.1.1.stride * st.1.tdiv d.1.2 + d.1.1.lower) :: st.2)) (j, [])).2

def first : Chain NodesType → NodesType
  | .root n => n
  | .cut n => n
  | .link n _ => n

def calcCoordOnTargetNodes (pastEnd : ℕ → Option ℤ) (target : Chain NodesType) :
    Chain NodesType → List ℤ → Option (Except String (Option (List ℤ)))
  | .root n, ncoord => (calcCoordOnTargetNodes2 n ncoord target).map .ok
  | .cut n, ncoord =>
    match calcCoordOnTargetNodes2 n ncoord target with
    | some none => (pastEndError pastEnd n).map .error
    | r => r.map .ok
  | .link n parent, ncoord =>
    match calcCoordOnTargetNodes2 n ncoord target with
    | some none =>
      match pastEndError pastEnd n with
      | some e => some (.error e)
      | none => calcCoordOnTargetNodes pastEnd target parent
        (parentCoord (pastEnd n.addr) n ncoord (first parent).rank)
    | r => r.map .ok

/-! ## When the target is found -/

theorem coord2_of_any {n : NodesType} (ncoord : List ℤ) {c : Chain NodesType}
    (h : c.any (matchesNodes n) = true) :
    ∃ x, calcCoordOnTargetNodes2 n ncoord c = some (some x) := by
  induction c with
  | root t =>
    rw [Chain.any] at h
    exact ⟨_, by rw [calcCoordOnTargetNodes2, if_pos h]⟩
  | cut t =>
    rw [Chain.any] at h
    exact ⟨_, by rw [calcCoordOnTargetNodes2, if_pos h]⟩
  | link t c ih =>
    by_cases ht : matchesNodes n t = true
    · exact ⟨_, by rw [calcCoordOnTargetNodes2, if_pos ht]⟩
    · obtain ⟨x, hx⟩ := ih (by simpa [Chain.any, ht] using h)
      exact ⟨_, by rw [calcCoordOnTargetNodes2, if_neg ht, hx]⟩

theorem coord2_of_not_any {n : NodesType} (ncoord : List ℤ) {c : Chain NodesType}
    (h : c.any (matchesNodes n) = false) :
    calcCoordOnTargetNodes2 n ncoord c = if c.complete = true then some none else none := by
  induction c with
  | root t =>
    rw [Chain.any] at h
    rw [calcCoordOnTargetNodes2, if_neg (by simp [h]), Chain.complete, if_pos rfl]
  | cut t =>
    rw [Chain.any] at h
    rw [calcCoordOnTargetNodes2, if_neg (by simp [h]), Chain.complete, if_neg (by simp)]
  | link t c ih =>
    rw [Chain.any, Bool.or_eq_false_iff] at h
    rw [calcCoordOnTargetNodes2, if_neg (by simp [h.1]), ih h.2, Chain.complete]
    cases c.complete <;> rfl

theorem any_of_first {c : Chain NodesType} {p : NodesType → Bool} (h : p (first c) = true) :
    c.any p = true := by
  cases c <;> simp_all [first, Chain.any]

end NodesType

end OmniCompiler.Xmp
