import OmniCompiler.Arithmetic.MixedRadix
import OmniCompiler.Xmp.Template

/-!
# Ranks and coordinates of nodes (`xmp_nodes.c`)

The linear rank of a node has its coordinates as digits, the first dimension varying
fastest. Node arrays over all processes number them alike whatever their shapes.
-/
namespace OmniCompiler.Xmp

open MixedRadix

inductive NodesAttr where
  | entire
  | executing
  | primary
  | equivalence
  deriving DecidableEq, Repr

/-- The part of `_XMP_nodes_t` that numbers the nodes. Two descriptors are the same object
when they agree in `addr` too; `info[i].multiplier` is the place value of dimension `i`. -/
structure NodesDesc where
  addr : ℕ
  attr : NodesAttr
  sizes : List ℕ
  deriving DecidableEq

namespace NodesDesc

def commSize (n : NodesDesc) : ℕ := n.sizes.prod

def multipliers (n : NodesDesc) : List ℕ := places 1 n.sizes

end NodesDesc

def calcRankArray (n : NodesDesc) (linearRank : ℕ) : List ℕ := (digits n.multipliers linearRank).2

def calcLinearRank (n : NodesDesc) (rankArray : List ℕ) : ℕ :=
  ((rankArray.zip n.sizes).foldl (fun acc c => (acc.1 + c.1 * acc.2, acc.2 * c.2)) (0, 1)).1

/-- `none` stands for node sets related only through their ancestors, which the search
through `inherit_nodes` resolves. -/
def calcCoordOnTargetNodes (n : NodesDesc) (ncoord : List ℕ) (targetN : NodesDesc) :
    Option (List ℕ) :=
  if n = targetN then some ncoord
  else if n.attr = .entire ∧ targetN.attr = .entire then
    some (calcRankArray targetN (calcLinearRank n ncoord))
  else none

/-- The node set consists of the executing nodes: it is their descriptor, or both are node
arrays over all processes. -/
def NodesDesc.OnExecuting (gmvNodes targetN : NodesDesc) : Prop :=
  gmvNodes = targetN ∨
    gmvNodes.attr = .entire ∧ targetN.attr = .entire ∧ targetN.commSize = gmvNodes.commSize

instance (gmvNodes targetN : NodesDesc) : Decidable (gmvNodes.OnExecuting targetN) :=
  inferInstanceAs (Decidable (_ ∨ _))

theorem calcLinearRank_foldl (cs sizes : List ℕ) (r m : ℕ) :
    ((cs.zip sizes).foldl (fun acc c => (acc.1 + c.1 * acc.2, acc.2 * c.2)) (r, m)).1 =
      r + value m sizes cs := by
  induction cs generalizing sizes r m with
  | nil => cases sizes <;> simp [value]
  | cons c cs ih =>
    cases sizes with
    | nil => simp [value]
    | cons s sizes => simp [value, ih, add_assoc]

theorem calcLinearRank_eq (n : NodesDesc) (cs : List ℕ) :
    calcLinearRank n cs = value 1 n.sizes cs := by
  rw [calcLinearRank, calcLinearRank_foldl, zero_add]

theorem calcRankArray_calcLinearRank {n : NodesDesc} {cs : List ℕ} (h : InRange cs n.sizes) :
    calcRankArray n (calcLinearRank n cs) = cs := by
  have := digits_value h one_pos
  rw [zero_add] at this
  rw [calcRankArray, NodesDesc.multipliers, calcLinearRank_eq, this]

theorem calcLinearRank_lt {n : NodesDesc} {cs : List ℕ} (h : InRange cs n.sizes) :
    calcLinearRank n cs < n.commSize := by
  have := value_lt h one_pos
  rwa [zero_add, one_mul, ← calcLinearRank_eq] at this

theorem calcRankArray_spec {n : NodesDesc} (hpos : ∀ s ∈ n.sizes, 0 < s) {r : ℕ}
    (hr : r < n.commSize) :
    InRange (calcRankArray n r) n.sizes ∧ calcLinearRank n (calcRankArray n r) = r := by
  obtain ⟨a, ha, cs, hcs, hx⟩ := exists_value hpos one_pos (by rwa [one_mul])
  obtain rfl : a = 0 := by omega
  rw [zero_add, ← calcLinearRank_eq] at hx
  have hcs' : calcRankArray n r = cs := by
    rw [hx, calcRankArray_calcLinearRank hcs]
  rw [hcs']
  exact ⟨hcs, hx.symm⟩

/-- The coordinates of a rank do not depend on the node array it is counted in. -/
theorem calcCoordOnTargetNodes_eq {gmvNodes targetN : NodesDesc}
    (h : gmvNodes.OnExecuting targetN) (hpos : ∀ s ∈ gmvNodes.sizes, 0 < s) {r : ℕ}
    (hr : r < gmvNodes.commSize) :
    calcCoordOnTargetNodes gmvNodes (calcRankArray gmvNodes r) targetN =
      some (calcRankArray targetN r) := by
  unfold calcCoordOnTargetNodes
  rcases h with rfl | ⟨h1, h2, -⟩
  · rw [if_pos rfl]
  · split_ifs with heq hattr
    · rw [heq]
    · rw [(calcRankArray_spec hpos hr).2]
    · exact absurd ⟨h1, h2⟩ hattr

end OmniCompiler.Xmp
