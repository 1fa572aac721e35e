import OmniCompiler.Xmp.MathFunction

/-!
# Node and template descriptors (`xmp_data_struct.h`)

One value of `Template d n` is the descriptor as it stands on one executing node:
`nodes->info[j].rank` differs from node to node, everything else is replicated.
Bounds and sizes are the source's integer fields; the invariants that the
constructors check (`lower ≤ upper`, `rank < size`) are carried by the types, and so
are the ranges of the `int` fields and of the `int` copies they are computed from.
-/
namespace OmniCompiler.Xmp

open MachineInt

/-- `_XMP_nodes_info_t`: extent of one node dimension and the executing node's
coordinate in it. A rank exists, so the extent is positive. -/
structure NodesInfo where
  size : ℕ
  rank : Fin size
  size_lt : size < 2 ^ 31

/-- `_XMP_nodes_t` with `n` dimensions. The ranks are read only on members. -/
structure Nodes (n : ℕ) where
  isMember : Bool
  info : Fin n → NodesInfo

namespace Nodes

variable {n : ℕ}

/-- The same node set as seen from the node with coordinate `r` in dimension `j`. -/
def onRank (nodes : Nodes n) (j : Fin n) (r : Fin (nodes.info j).size) : Nodes n :=
  { nodes with info := Function.update nodes.info j { nodes.info j with rank := r } }

@[simp] theorem onRank_isMember (nodes : Nodes n) (j : Fin n) (r : Fin (nodes.info j).size) :
    (nodes.onRank j r).isMember = nodes.isMember := rfl

@[simp] theorem onRank_info (nodes : Nodes n) (j : Fin n) (r : Fin (nodes.info j).size) :
    (nodes.onRank j r).info j = ⟨(nodes.info j).size, r, (nodes.info j).size_lt⟩ := by
  simp [onRank]

end Nodes

/-- `_XMP_template_info_t`, with whatever bounds the program gives. -/
structure TemplateBounds where
  serLower : ℤ
  serUpper : ℤ
  serSize : ℤ
  deriving DecidableEq

/-- One dimension of `_XMP_calc_template_size`, which copies the bounds to `int`. -/
def calcTemplateSize (serLower serUpper : ℤ) : Except String TemplateBounds :=
  let lower := toInt serLower
  let upper := toInt serUpper
  if lower > upper then
    .error "the lower bound of template should be less than or equal to the upper bound"
  else .ok ⟨serLower, serUpper, toULL (toInt (upper - lower + 1))⟩

/-- `_XMP_template_info_t` of a fixed dimension whose size `_XMP_calc_template_size` computes
without loss: neither the copies of the bounds nor their count leave the range of `int`. -/
structure TemplateInfo where
  serLower : ℤ
  serUpper : ℤ
  lower_le_upper : serLower ≤ serUpper
  lower_inInt : InInt serLower
  upper_inInt : InInt serUpper
  count_inInt : InInt (serUpper - serLower + 1)

namespace TemplateInfo

def serSize (ti : TemplateInfo) : ℤ := ti.serUpper - ti.serLower + 1

def bounds (ti : TemplateInfo) : TemplateBounds := ⟨ti.serLower, ti.serUpper, ti.serSize⟩

theorem serSize_pos (ti : TemplateInfo) : 0 < ti.serSize := by
  have := ti.lower_le_upper
  unfold serSize
  omega

theorem serSize_lt (ti : TemplateInfo) : ti.serSize < 2 ^ 31 := ti.count_inInt.2

theorem calcTemplateSize_eq (ti : TemplateInfo) :
    calcTemplateSize ti.serLower ti.serUpper = .ok ti.bounds := by
  have hpos := ti.serSize_pos
  have hlt := ti.serSize_lt
  unfold serSize at hpos hlt
  rw [calcTemplateSize, toInt_of_inInt ti.lower_inInt, toInt_of_inInt ti.upper_inInt,
    toInt_of_inInt ti.count_inInt, toULL_of_nonneg hpos.le (by omega),
    if_neg (by have := ti.lower_le_upper; omega)]
  rfl

end TemplateInfo

inductive DistManner where
  | duplication
  | block
  | cyclic
  | blockCyclic
  | gblock
  deriving DecidableEq, Repr, Inhabited

/-- `_XMP_template_chunk_t`. `ontoNodesIndex = none` is `_XMP_N_NO_ONTO_NODES`, and
`mappingArray` is indexed like the C pointer. -/
structure TemplateChunk (n : ℕ) where
  parLower : ℤ
  parUpper : ℤ
  parWidth : ℤ
  parStride : ℤ
  parChunkWidth : ℤ
  distManner : DistManner
  mappingArray : ℕ → ℤ
  isRegularChunk : Bool
  ontoNodesIndex : Option (Fin n)
  ontoNodesInfo : Option NodesInfo
  deriving Inhabited

/-- `chunk->onto_nodes_info->size`; read only where the pointer is set. -/
def TemplateChunk.nodesSize {n : ℕ} (chunk : TemplateChunk n) : ℤ :=
  chunk.ontoNodesInfo.elim 0 fun ni => ni.size

/-- `chunk->onto_nodes_info->rank`; read only where the pointer is set. -/
def TemplateChunk.nodesRank {n : ℕ} (chunk : TemplateChunk n) : ℕ :=
  chunk.ontoNodesInfo.elim 0 fun ni => ni.rank

/-- `_XMP_template_t` with `d` dimensions, distributed onto a node set with `n`. -/
structure Template (d n : ℕ) where
  isFixed : Bool
  isDistributed : Bool
  isOwner : Bool
  ontoNodes : Nodes n
  chunk : Fin d → TemplateChunk n
  info : Fin d → TemplateInfo

/-- A template dimension from its bounds and their ranges. -/
abbrev TemplateInfo.fixed (lower upper : ℤ)
    (h : lower ≤ upper ∧ InInt lower ∧ InInt upper ∧ InInt (upper - lower + 1)) : TemplateInfo :=
  ⟨lower, upper, h.1, h.2.1, h.2.2.1, h.2.2.2⟩

/-- A one-dimensional template `t(lower:upper)` before its distribution. -/
def lineTemplate (lower upper : ℤ)
    (h : lower ≤ upper ∧ InInt lower ∧ InInt upper ∧ InInt (upper - lower + 1)) (nodes : Nodes 1) :
    Template 1 1 where
  isFixed := true
  isDistributed := false
  isOwner := false
  ontoNodes := nodes
  chunk := fun _ => default
  info := fun _ => .fixed lower upper h

/-- The node set `p(P)` as seen from its first node. -/
def lineNodes (P : ℕ) (h : 0 < P ∧ P < 2 ^ 31) : Nodes 1 where
  isMember := true
  info := fun _ => ⟨P, ⟨0, h.1⟩, h.2⟩

/-- `_XMP_init_template_chunk`. The chunks come from the allocator and hold
whatever was there. -/
def initTemplateChunk {d n : ℕ} (template : Template d n) (nodes : Nodes n)
    (fresh : Fin d → TemplateChunk n) : Template d n :=
  { template with
    isDistributed := true
    isOwner := nodes.isMember
    ontoNodes := nodes
    chunk := fresh }

end OmniCompiler.Xmp
