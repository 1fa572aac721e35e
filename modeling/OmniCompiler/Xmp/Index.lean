import OmniCompiler.Arithmetic.Indexing
import OmniCompiler.Xmp.Ownership

/-!
# Local and global template indices (`xmpf_index.c`)

`_XMP_G2L` numbers the indices a rank owns and `_XMP_L2G` inverts the numbering. On a
duplicated dimension both are the identity. On a block-cyclic dimension `_XMP_G2L` divides by
the product of two `int`s, which has to be one.
-/
namespace OmniCompiler.Xmp

open MachineInt BlockCyclic Indexing

variable {d n : ℕ}

/-- `_XMP_L2G`. The products of the block-cyclic case are at most the offset of the result. -/
def l2g (localIdx : ℤ) (t : Template d n) (templateIndex : Fin d) : ℤ :=
  let chunk := t.chunk templateIndex
  let base := (t.info templateIndex).serLower
  match chunk.distManner with
  | .duplication => localIdx
  | .block => base + chunk.nodesRank * chunk.parChunkWidth + localIdx
  | .cyclic => base + chunk.nodesRank + chunk.nodesSize * localIdx
  | .blockCyclic =>
    let w := toInt chunk.parWidth
    base + chunk.nodesRank * w + localIdx.tdiv w * w * chunk.nodesSize + localIdx.tmod w
  | .gblock => localIdx + chunk.mappingArray chunk.nodesRank

/-- `_XMP_G2L`. The local index is 0-origin. `none` is an overflow or a division by zero. -/
def g2l (globalIdx : ℤ) (t : Template d n) (templateIndex : Fin d) : Option ℤ :=
  let chunk := t.chunk templateIndex
  let base := (t.info templateIndex).serLower
  match chunk.distManner with
  | .duplication => some globalIdx
  | .block => some (globalIdx - base - chunk.nodesRank * chunk.parChunkWidth)
  | .cyclic => some ((globalIdx - base).tdiv chunk.nodesSize)
  | .blockCyclic => do
    let off := toInt (globalIdx - base)
    let w := toInt chunk.parWidth
    let cycle ← cint (chunk.nodesSize * w)
    let cycles ← cdiv off cycle
    some (cycles * w + off.tmod w)
  | .gblock => some (globalIdx - chunk.mappingArray chunk.nodesRank)

section

variable {ti : TemplateInfo} {ni : NodesInfo} {t : Template d n} {i : Fin d} {w : ℤ}

theorem BlockChunk.g2l_eq (h : BlockChunk ti ni t i) (g : ℤ) :
    g2l g t i = some (g - (t.chunk i).parLower) := by
  simp only [g2l, h.manner, h.info, h.chunkWidth, h.lower, TemplateChunk.nodesRank, h.nodesInfo,
    Option.elim_some]
  ring_nf

theorem BlockChunk.l2g_eq (h : BlockChunk ti ni t i) (l : ℤ) :
    l2g l t i = (t.chunk i).parLower + l := by
  simp only [l2g, h.manner, h.info, h.chunkWidth, h.lower, TemplateChunk.nodesRank, h.nodesInfo,
    Option.elim_some]

theorem GblockChunk.g2l_eq {m : ℕ → ℤ} (h : GblockChunk m ti ni t i) (g : ℤ) :
    g2l g t i = some (g - rsumArray ti.serLower m ni.rank) := by
  simp [g2l, h.manner, h.mapping, TemplateChunk.nodesRank, h.nodesInfo]

theorem GblockChunk.l2g_eq {m : ℕ → ℤ} (h : GblockChunk m ti ni t i) (l : ℤ) :
    l2g l t i = rsumArray ti.serLower m ni.rank + l := by
  simp [l2g, h.manner, h.mapping, TemplateChunk.nodesRank, h.nodesInfo, add_comm]

theorem TemplateInfo.Contains.offset_inInt {g : ℤ} (hg : ti.Contains g) :
    InInt (g - ti.serLower) := by
  obtain ⟨h0, h1⟩ := hg
  have hN := ti.serUpper_eq
  have hlt := ti.serSize_lt
  constructor <;> omega

theorem CyclicChunk.g2l_eq (h : CyclicChunk w ti ni t i) (hw : 0 < w)
    (hs : InInt (ni.size * w)) {g : ℤ} (hg : ti.Contains g) :
    g2l g t i = some (localIndex w ni.size (g - ti.serLower)) := by
  have hx : 0 ≤ g - ti.serLower := by have := hg.1; omega
  have hcycle : (ni.size : ℤ) * w ≠ 0 := (mul_pos ni.size_pos hw).ne'
  simp only [g2l, h.manner, h.info, h.width, TemplateChunk.nodesSize, h.nodesInfo, Option.elim_some]
  by_cases h1 : w = 1
  · simp [h1, localIndex, Int.tdiv_eq_ediv_of_nonneg hx]
  · simp only [h1, if_false, toInt_of_inInt hg.offset_inInt, toInt_of_inInt (ni.width_inInt hw hs),
      cint_of_inInt hs, cdiv_of_ne_zero hcycle, Option.bind_eq_bind, Option.bind_some, localIndex,
      Int.tdiv_eq_ediv_of_nonneg hx, Int.tmod_eq_emod_of_nonneg hx]

theorem CyclicChunk.l2g_eq (h : CyclicChunk w ti ni t i) (hw : 0 < w)
    (hs : InInt (ni.size * w)) {l : ℤ} (hl : 0 ≤ l) :
    l2g l t i = ti.serLower + globalIndex w ni.size ni.rank l := by
  simp only [l2g, h.manner, h.info, h.width, TemplateChunk.nodesSize, TemplateChunk.nodesRank,
    h.nodesInfo, Option.elim_some, toInt_of_inInt (ni.width_inInt hw hs)]
  by_cases h1 : w = 1
  · simp only [h1, if_true, globalIndex, Int.ediv_one, Int.emod_one]
    ring
  · simp only [h1, if_false, globalIndex, Int.tdiv_eq_ediv_of_nonneg hl,
      Int.tmod_eq_emod_of_nonneg hl]
    ring

end

/-- `_XMP_G2L` has a result on the set, numbers it in order and without gaps, and `_XMP_L2G`
is the inverse numbering. -/
def Numbered (t : Template d n) (i : Fin d) (S : Set ℤ) : Prop :=
  ∃ f : ℤ → ℤ, (∀ g ∈ S, g2l g t i = some (f g)) ∧ IsIndexing S f (l2g · t i)

section

variable {ti : TemplateInfo} {ni : NodesInfo} {t : Template d n} {i : Fin d} {w : ℤ}

theorem isIndexing_offset {S : Set ℤ} {a b : ℤ} (hS : ∀ g, g ∈ S ↔ a ≤ g ∧ g ≤ b) {f h : ℤ → ℤ}
    (hf : ∀ g, f g = g - a) (hh : ∀ l, h l = a + l) : IsIndexing S f h := by
  refine isIndexing_of_downClosed ?_ ?_ ?_ ?_ ?_
  · exact (Set.finite_Icc a b).subset fun g hg => (hS g).mp hg
  · intro x _ y _ hxy
    simp only [hf]
    omega
  · intro g hg
    have := (hS g).mp hg
    rw [hf]
    omega
  · intro g _
    rw [hh, hf]
    omega
  · intro g hg l h0 hl
    have := (hS g).mp hg
    rw [hf] at hl
    rw [hS, hf, hh]
    omega

theorem CyclicChunk.numbered (h : CyclicChunk w ti ni t i) (hw : 0 < w)
    (hs : InInt (ni.size * w)) : Numbered t i (chunkSet t i) := by
  have hP := ni.size_pos
  have hr0 : (0 : ℤ) ≤ ni.rank := by positivity
  have hr1 : (ni.rank : ℤ) < ni.size := by exact_mod_cast ni.rank.isLt
  have hmem := h.mem_chunkSet hw hs
  refine ⟨fun g => localIndex w ni.size (g - ti.serLower),
    fun g hg => h.g2l_eq hw hs ((hmem g).mp hg).1, isIndexing_of_downClosed ?_ ?_ ?_ ?_ ?_⟩
  · exact (Set.finite_Icc ti.serLower ti.serUpper).subset fun g hg => ((hmem g).mp hg).1
  · intro x hx y hy hxy
    obtain ⟨-, hxo⟩ := (hmem x).mp hx
    obtain ⟨-, hyo⟩ := (hmem y).mp hy
    dsimp only
    rw [localIndex_lt_iff hw hP (hxo.trans hyo.symm)]
    omega
  · intro g hg
    obtain ⟨⟨h0, -⟩, -⟩ := (hmem g).mp hg
    exact localIndex_nonneg hw hP (by omega)
  · intro g hg
    obtain ⟨⟨h0, -⟩, ho⟩ := (hmem g).mp hg
    have hnn := localIndex_nonneg (x := g - ti.serLower) hw hP (by omega)
    rw [h.l2g_eq hw hs hnn, ← ho, globalIndex_localIndex hw]
    ring
  · intro g hg l hl0 hl
    obtain ⟨⟨h0, h1⟩, ho⟩ := (hmem g).mp hg
    have hle := (globalIndex_strictMono hw hP ni.rank).monotone hl
    rw [← ho, globalIndex_localIndex hw, ho] at hle
    have hnn := globalIndex_nonneg hw hP hr0 hl0
    rw [h.l2g_eq hw hs hl0, hmem, add_sub_cancel_left, owner_globalIndex hw hr0 hr1,
      localIndex_globalIndex hw hr0 hr1]
    exact ⟨⟨⟨by omega, by omega⟩, rfl⟩, rfl⟩

theorem BlockChunk.numbered (h : BlockChunk ti ni t i) : Numbered t i (chunkSet t i) := by
  refine ⟨fun g => g - (t.chunk i).parLower, fun g _ => h.g2l_eq g, ?_⟩
  rw [chunkSet]
  split_ifs with hown
  · refine isIndexing_offset (b := min (t.chunk i).parUpper (t.info i).serUpper) (fun g => ?_)
      (fun _ => rfl) h.l2g_eq
    rw [h.stride, h.width, mem_tripletSet_one, le_min_iff]
  · refine isIndexing_offset (a := (t.chunk i).parLower) (b := (t.chunk i).parLower - 1)
      (fun g => ?_) (fun _ => rfl) h.l2g_eq
    simp only [Set.mem_empty_iff_false, false_iff]
    omega

theorem GblockChunk.numbered {m : ℕ → ℤ} (h : GblockChunk m ti ni t i) :
    Numbered t i (chunkSet t i) := by
  refine ⟨fun g => g - rsumArray ti.serLower m ni.rank, fun g _ => h.g2l_eq g,
    isIndexing_offset (b := min (rsumArray ti.serLower m (ni.rank + 1) - 1) ti.serUpper)
      (fun g => ?_) (fun _ => rfl) h.l2g_eq⟩
  rw [h.mem_chunkSet, Owned, and_assoc, le_min_iff, Int.le_sub_one_iff]

/-- Where the product overflows, no index of the template has a local index. -/
theorem CyclicChunk.g2l_eq_none (h : CyclicChunk w ti ni t i) (hw : InInt w)
    (hs : ¬ InInt (ni.size * w)) (g : ℤ) : g2l g t i = none := by
  have h1 : w ≠ 1 := by
    rintro rfl
    exact hs ni.stride_one
  simp only [g2l, h.manner, h.info, h.width, h1, if_false, TemplateChunk.nodesSize, h.nodesInfo,
    Option.elim_some, toInt_of_inInt hw, cint_of_not_inInt hs, Option.bind_eq_bind,
    Option.bind_none]

end

/-- Indices owned by rank `r` of a node dimension. -/
def ownedSet (ti : TemplateInfo) (nodes : NodesInfo) (r : Fin nodes.size) (fmt : DistFormat) :
    Set ℤ :=
  {g | ti.Contains g ∧ Owned ti ⟨nodes.size, r, nodes.size_lt⟩ fmt g}

/-- The width is in the range of `int`, the type in which `_XMP_L2G` and `_XMP_G2L` read it. -/
def DistFormat.WidthInInt : DistFormat → Prop
  | .blockCyclic w => InInt w
  | .duplication | .block | .cyclic | .gblock _ => True

theorem Distributed.chunkSet_eq_ownedSet {t : Template d n} {i : Fin d} {nodes : Nodes n}
    {j : Fin n} {fmt : DistFormat} {tr : Fin (nodes.info j).size → Template d n}
    (hfmt : fmt.Regular ∨ ∃ m, fmt = .gblock (some m))
    (hm : fmt.NonnegMapping (nodes.info j).size) (hs : fmt.StrideInInt (nodes.info j).size)
    (h : Distributed t i nodes j fmt tr) (r : Fin (nodes.info j).size) :
    chunkSet (tr r) i = ownedSet (t.info i) (nodes.info j) r fmt := by
  ext g
  rcases hfmt with hreg | ⟨m, rfl⟩
  · match fmt with
    | .block => exact (h.block r).mem_chunkSet g
    | .cyclic => exact (h.cyclic r).mem_chunkSet one_pos (nodes.info j).stride_one g
    | .blockCyclic w => exact (h.blockCyclic hreg r).mem_chunkSet hreg hs g
  · exact (h.gblock r).mem_chunkSet_of_nonneg (hm m rfl) g

/-- On every rank `_XMP_G2L` numbers the owned indices without gaps and in order, and
`_XMP_L2G` is the inverse numbering, as long as the stride of the chunk is an `int`. The rank's
chunk is the set meant by the format. With a longer stride only a rank without indices is left. -/
theorem g2l_numbered_iff {t : Template d n} {i : Fin d} {nodes : Nodes n} {j : Fin n}
    {fmt : DistFormat} {tr : Fin (nodes.info j).size → Template d n}
    (hfmt : fmt.Regular ∨ ∃ m, fmt = .gblock (some m)) (h : Distributed t i nodes j fmt tr)
    (r : Fin (nodes.info j).size) :
    (fmt.StrideInInt (nodes.info j).size → Numbered (tr r) i (chunkSet (tr r) i) ∧
      (fmt.NonnegMapping (nodes.info j).size →
        chunkSet (tr r) i = ownedSet (t.info i) (nodes.info j) r fmt)) ∧
      (fmt.WidthInInt → ¬ fmt.StrideInInt (nodes.info j).size →
        (Numbered (tr r) i (ownedSet (t.info i) (nodes.info j) r fmt) ↔
          ownedSet (t.info i) (nodes.info j) r fmt = ∅)) := by
  refine ⟨fun hs => ⟨?_, fun hm => h.chunkSet_eq_ownedSet hfmt hm hs r⟩, fun hwidth hs => ?_⟩
  · rcases hfmt with hreg | ⟨m, rfl⟩
    · match fmt with
      | .block => exact (h.block r).numbered
      | .cyclic => exact (h.cyclic r).numbered one_pos (nodes.info j).stride_one
      | .blockCyclic w => exact (h.blockCyclic hreg r).numbered hreg hs
    · exact (h.gblock r).numbered
  · match fmt with
    | .blockCyclic w =>
      have hreg : (DistFormat.blockCyclic w).Regular := by
        rcases hfmt with hreg | ⟨m, hm⟩
        · exact hreg
        · cases hm
      have hnone := (h.blockCyclic hreg r).g2l_eq_none hwidth hs
      constructor
      · rintro ⟨f, hf, -⟩
        refine Set.eq_empty_iff_forall_notMem.mpr fun g hg => ?_
        have := hf g hg
        rw [hnone] at this
        cases this
      · intro hempty
        rw [hempty]
        exact ⟨id, fun g hg => hg.elim, isIndexing_empty _ _⟩
    | .duplication => exact absurd trivial hs
    | .block => exact absurd trivial hs
    | .cyclic => exact absurd trivial hs
    | .gblock _ => exact absurd trivial hs

/-- Rank 1 of three owns the blocks `-2..-1` and `4..5` of `t(-4:5)` under `cyclic(2)`. -/
theorem g2l_numbered_ragged :
    let nodes := lineNodes 3 (by decide)
    let t := lineTemplate (-4) 5 (by decide) nodes
    let tr : Fin 3 → Template 1 1 := fun r =>
      distTemplateBlockCyclic (initTemplateChunk t (nodes.onRank 0 r) fun _ => default) 0 0 2
    Numbered (tr 1) 0 (ownedSet (t.info 0) (nodes.info 0) (1 : Fin 3) (.blockCyclic 2)) := by
  intro nodes t tr
  have h : Distributed t 0 nodes 0 (.blockCyclic 2) tr := ⟨rfl, fun _ => ⟨fun _ => default, rfl⟩⟩
  obtain ⟨hidx, hset⟩ := (g2l_numbered_iff (Or.inl (by decide)) h (1 : Fin 3)).1 (by decide)
  have hmap : (DistFormat.blockCyclic 2).NonnegMapping 3 := fun m hm => nomatch hm
  exact hset hmap ▸ hidx

/-- Four nodes with blocks of `2 ^ 30` elements: the product by which `_XMP_G2L` divides is out of
range, and already the first index has no local index. -/
theorem g2l_wide_blocks :
    let nodes := lineNodes 4 (by decide)
    let t := lineTemplate 0 9 (by decide) nodes
    let tr : Fin 4 → Template 1 1 := fun r =>
      distTemplateBlockCyclic (initTemplateChunk t (nodes.onRank 0 r) fun _ => default) 0 0 (2 ^ 30)
    ¬ Numbered (tr 0) 0
      (ownedSet (t.info 0) (nodes.info 0) (0 : Fin 4) (.blockCyclic (2 ^ 30))) := by
  intro nodes t tr
  rintro ⟨f, hf, -⟩
  have hnone : g2l 0 (tr 0) 0 = none := by decide
  have hfirst := hf 0 ⟨by decide, by decide⟩
  rw [hnone] at hfirst
  cases hfirst

end OmniCompiler.Xmp
