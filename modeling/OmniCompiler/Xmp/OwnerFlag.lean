import OmniCompiler.Arithmetic.SmallFin
import OmniCompiler.Xmp.Ownership

/-!
# The ownership flag over a whole `distribute` directive

A directive calls `_XMP_init_template_chunk` and then one `_XMP_dist_template_*` function
for each dimension. All calls share `is_owner`: four of the functions can only clear it,
`_XMP_dist_template_GBLOCK` assigns it.
-/
namespace OmniCompiler.Xmp

open MachineInt BlockCyclic SmallFin

variable {d n : ℕ}

/-- One call of a `distribute` directive. -/
structure DistCall (d n : ℕ) where
  templateIndex : Fin d
  nodesIndex : Fin n
  fmt : DistFormat

/-- The calls of a directive, in order. -/
def distTemplates (t : Template d n) (calls : List (DistCall d n)) : Except String (Template d n) :=
  calls.foldlM (fun t c => distTemplate t c.templateIndex c.nodesIndex c.fmt) t

namespace DistCall

/-- The executing node owns at least one index of the dimension. -/
def Owns (info : Fin d → TemplateInfo) (nodes : Nodes n) (c : DistCall d n) : Prop :=
  ∃ g, (info c.templateIndex).Contains g ∧
    Owned (info c.templateIndex) (nodes.info c.nodesIndex) c.fmt g

/-- The call is a general block distribution that sets the flag on a member. -/
def Sets (info : Fin d → TemplateInfo) (nodes : Nodes n) (c : DistCall d n) : Prop :=
  ∃ m, c.fmt = .gblock (some m) ∧ m (nodes.info c.nodesIndex).rank ≠ 0 ∧
    rsumArray (info c.templateIndex).serLower m (nodes.info c.nodesIndex).rank ≤
      (info c.templateIndex).serUpper

/-- The width of a block-cyclic dimension is positive. -/
def WidthPos (c : DistCall d n) : Prop := ∀ w, c.fmt = .blockCyclic w → 0 < w

end DistCall

/-- Some call sets the flag on a node that owns nothing in the dimension of that call or of
an earlier one, and no later call clears it again. -/
def Reclaims (info : Fin d → TemplateInfo) (nodes : Nodes n) (calls : List (DistCall d n)) : Prop :=
  ∃ pre c post, calls = pre ++ c :: post ∧ c.Sets info nodes ∧ (∀ c' ∈ post, c'.Owns info nodes) ∧
    ∃ c' ∈ pre ++ [c], ¬ c'.Owns info nodes

/-! ## One call -/

theorem owns_block {ti : TemplateInfo} {ni : NodesInfo} :
    (∃ g, ti.Contains g ∧ Owned ti ni .block g) ↔
      (ni.rank : ℤ) * ceilDiv ti.serSize ni.size < ti.serSize := by
  have hW := ceilDiv_pos ti.serSize_pos ni.size_pos
  have hr : (0 : ℤ) ≤ ni.rank * ceilDiv ti.serSize ni.size := by positivity
  have hN := ti.serUpper_eq
  simp only [owned_block_iff, TemplateInfo.Contains]
  constructor
  · rintro ⟨g, ⟨h0, h1⟩, h2, h3⟩
    omega
  · intro hlt
    exact ⟨ti.serLower + ni.rank * ceilDiv ti.serSize ni.size, by omega, by omega⟩

theorem owns_cyclic {ti : TemplateInfo} {ni : NodesInfo} {w : ℤ} (hw : 0 < w) :
    (∃ g, ti.Contains g ∧ owner w ni.size (g - ti.serLower) = ni.rank) ↔
      (ni.rank : ℤ) * w < ti.serSize := by
  have hP := ni.size_pos
  have hr0 : (0 : ℤ) ≤ ni.rank := by positivity
  have hr1 : (ni.rank : ℤ) < ni.size := by exact_mod_cast ni.rank.isLt
  have hrw : (0 : ℤ) ≤ ni.rank * w := by positivity
  have hN := ti.serUpper_eq
  constructor
  · rintro ⟨g, ⟨h0, h1⟩, ho⟩
    obtain ⟨k, j, hk, hj0, hj1, hg⟩ :=
      (owner_eq_iff_of_nonneg hw hr0 hr1 (show 0 ≤ g - ti.serLower by omega)).mp ho
    have : 0 ≤ k * ni.size * w := by positivity
    linarith
  · intro hlt
    refine ⟨ti.serLower + ni.rank * w, ⟨by omega, by omega⟩, ?_⟩
    exact (owner_eq_iff hw hr0 hr1 _).mpr ⟨0, 0, le_rfl, hw, by ring⟩

/-- A node with an index in the dimension has the flag set by a general block call. -/
theorem DistCall.Owns.sets {info : Fin d → TemplateInfo} {nodes : Nodes n} {c : DistCall d n}
    {m : ℕ → ℤ} (hfmt : c.fmt = .gblock (some m)) (h : c.Owns info nodes) :
    c.Sets info nodes := by
  obtain ⟨g, ⟨-, h1⟩, ho⟩ := h
  rw [hfmt, Owned, rsumArray] at ho
  exact ⟨m, hfmt, by omega, by omega⟩

def flagAfter (info : Fin d → TemplateInfo) (nodes : Nodes n) (b : Prop) (c : DistCall d n) :
    Prop :=
  match c.fmt with
  | .gblock (some _) => c.Sets info nodes
  | .duplication | .block | .cyclic | .blockCyclic _ | .gblock none => b ∧ c.Owns info nodes

/-- What the calls say about `t'` beyond its chunks. -/
structure FlagStep (t t' : Template d n) (c : DistCall d n) : Prop where
  info : t'.info = t.info
  ontoNodes : t'.ontoNodes = t.ontoNodes
  member : t.ontoNodes.isMember = true →
    (t'.isOwner = true ↔ flagAfter t.info t.ontoNodes (t.isOwner = true) c)
  nonMember : t.ontoNodes.isMember = false → t.isOwner = false → t'.isOwner = false

theorem distTemplateCyclicWidth_flag (t : Template d n) (i : Fin d) (j : Fin n) {w : ℤ}
    (hw : 0 < w) (hm : t.ontoNodes.isMember = true) :
    (distTemplateCyclicWidth t i j w).isOwner = true ↔ t.isOwner = true ∧
      ∃ g, (t.info i).Contains g ∧
        owner w (t.ontoNodes.info j).size (g - (t.info i).serLower) =
          (t.ontoNodes.info j).rank := by
  rw [owns_cyclic hw, ← (cyclicMembers_spec _ _ hw (t.chunk i).parLower (t.chunk i).parUpper).1]
  simp only [distTemplateCyclicWidth, Template.setChunk_isOwner, hm, if_true, Bool.and_eq_true]

theorem distTemplateBlock_flag (t : Template d n) (i : Fin d) (j : Fin n)
    (hm : t.ontoNodes.isMember = true) :
    (distTemplateBlock t i j).isOwner = true ↔ t.isOwner = true ∧
      ∃ g, (t.info i).Contains g ∧ Owned (t.info i) (t.ontoNodes.info j) .block g := by
  have hW := ceilDiv_pos (t.info i).serSize_pos (t.ontoNodes.info j).size_pos
  rw [owns_block, ← (blockMembers_spec _ _ hW (t.chunk i).parUpper).1]
  simp only [distTemplateBlock, Template.setChunk_isOwner, hm, if_true, Bool.and_eq_true]

theorem distTemplate_flag {t t' : Template d n} {c : DistCall d n} (hw : c.WidthPos)
    (h : distTemplate t c.templateIndex c.nodesIndex c.fmt = .ok t') : FlagStep t t' c := by
  obtain ⟨i, j, fmt⟩ := c
  match fmt with
  | .duplication =>
    cases h
    refine ⟨rfl, rfl, fun _ => ?_, fun _ h => h⟩
    have hg : (t.info i).Contains (t.info i).serLower := ⟨le_rfl, (t.info i).lower_le_upper⟩
    exact ⟨fun h => ⟨h, _, hg, trivial⟩, fun h => h.1⟩
  | .block =>
    cases h
    exact ⟨rfl, rfl, distTemplateBlock_flag t i j, fun _ h => by simp [distTemplateBlock, h]⟩
  | .cyclic =>
    cases h
    exact ⟨rfl, rfl, distTemplateCyclicWidth_flag t i j one_pos,
      fun _ h => by simp [distTemplateCyclic, distTemplateCyclicWidth, h]⟩
  | .blockCyclic w =>
    cases h
    exact ⟨rfl, rfl, distTemplateCyclicWidth_flag t i j (hw w rfl),
      fun _ h => by simp [distTemplateBlockCyclic, distTemplateCyclicWidth, h]⟩
  | .gblock none =>
    cases h
    refine ⟨rfl, rfl, fun _ => ?_, fun _ h => h⟩
    have hg : (t.info i).Contains (t.info i).serLower := ⟨le_rfl, (t.info i).lower_le_upper⟩
    exact ⟨fun h => ⟨h, _, hg, trivial⟩, fun h => h.1⟩
  | .gblock (some m) =>
    simp only [distTemplate, distTemplateGblock] at h
    split_ifs at h
    cases h
    have hspec := (gblockMembers_spec (t.info i) (t.ontoNodes.info j) m t.ontoNodes.isMember
      (t.chunk i).parLower (t.chunk i).parUpper).1
    refine ⟨rfl, rfl, fun hm => ?_, fun hm _ => ?_⟩
    · rw [Template.setChunk_isOwner, hspec]
      simp [flagAfter, DistCall.Sets, hm]
    · rw [Template.setChunk_isOwner, ← Bool.not_eq_true, hspec]
      simp [hm]

/-! ## A whole directive -/

theorem distTemplates_flag {t t' : Template d n} {calls : List (DistCall d n)}
    (hw : ∀ c ∈ calls, c.WidthPos) (h : distTemplates t calls = .ok t') :
    (t.ontoNodes.isMember = true → (t'.isOwner = true ↔
        calls.foldl (flagAfter t.info t.ontoNodes) (t.isOwner = true))) ∧
      (t.ontoNodes.isMember = false → t.isOwner = false → t'.isOwner = false) := by
  induction calls generalizing t with
  | nil =>
    cases h
    exact ⟨fun _ => Iff.rfl, fun _ h => h⟩
  | cons c calls ih =>
    simp only [distTemplates, List.foldlM_cons, bind, Except.bind] at h
    split at h
    · cases h
    · next u hu =>
      have hstep := distTemplate_flag (hw c (by simp)) hu
      have hrest := ih (fun c' hc' => hw c' (by simp [hc'])) h
      rw [hstep.info, hstep.ontoNodes] at hrest
      refine ⟨fun hm => ?_, fun hm ho => hrest.2 hm (hstep.nonMember hm ho)⟩
      rw [List.foldl_cons, ← propext (hstep.member hm)]
      exact hrest.1 hm

section

variable {info : Fin d → TemplateInfo} {nodes : Nodes n} {b : Prop}

theorem flagAfter_of_owns {c : DistCall d n} (hb : b) (hc : c.Owns info nodes) :
    flagAfter info nodes b c := by
  unfold flagAfter
  split
  · next hfmt => exact hc.sets hfmt
  all_goals exact ⟨hb, hc⟩

theorem flagAfter_of_sets {c : DistCall d n} (hc : c.Sets info nodes) :
    flagAfter info nodes b c := by
  obtain ⟨m, hfmt, hm⟩ := hc
  simp only [flagAfter, hfmt]
  exact ⟨m, hfmt, hm⟩

theorem sets_or_owns_of_flagAfter {c : DistCall d n} (h : flagAfter info nodes b c) :
    c.Sets info nodes ∨ b ∧ c.Owns info nodes := by
  unfold flagAfter at h
  split at h
  · exact Or.inl h
  all_goals exact Or.inr h

theorem foldl_flagAfter_of_owns {calls : List (DistCall d n)} (hb : b)
    (h : ∀ c ∈ calls, c.Owns info nodes) : calls.foldl (flagAfter info nodes) b := by
  induction calls generalizing b with
  | nil => exact hb
  | cons c calls ih =>
    exact ih (flagAfter_of_owns hb (h c (by simp))) fun c' hc' => h c' (by simp [hc'])

/-- The flag survives through owned dimensions only, or starts anew at a general block
call and survives from there on. -/
theorem foldl_flagAfter_iff (calls : List (DistCall d n)) :
    calls.foldl (flagAfter info nodes) b ↔ (b ∧ ∀ c ∈ calls, c.Owns info nodes) ∨
      ∃ pre c post, calls = pre ++ c :: post ∧ c.Sets info nodes ∧
        ∀ c' ∈ post, c'.Owns info nodes := by
  constructor
  · induction calls using List.reverseRecOn with
    | nil =>
      intro h
      exact Or.inl ⟨h, by simp⟩
    | append_singleton calls c ih =>
      rw [List.foldl_concat]
      intro h
      rcases sets_or_owns_of_flagAfter h with hs | ⟨hrest, hc⟩
      · exact Or.inr ⟨calls, c, [], rfl, hs, by simp⟩
      · rcases ih hrest with ⟨hb, hall⟩ | ⟨pre, c', post, rfl, hs, hpost⟩
        · refine Or.inl ⟨hb, fun c' hc' => ?_⟩
          rcases List.mem_append.mp hc' with h1 | h1
          · exact hall c' h1
          · rwa [List.mem_singleton.mp h1]
        · refine Or.inr ⟨pre, c', post ++ [c], by simp, hs, fun c'' hc'' => ?_⟩
          rcases List.mem_append.mp hc'' with h1 | h1
          · exact hpost c'' h1
          · rwa [List.mem_singleton.mp h1]
  · rintro (⟨hb, hall⟩ | ⟨pre, c, post, rfl, hs, hpost⟩)
    · exact foldl_flagAfter_of_owns hb hall
    · rw [List.foldl_append, List.foldl_cons]
      exact foldl_flagAfter_of_owns (flagAfter_of_sets hs) hpost

end

/-- After a directive the flag says that the node is a member and owns something in every
dimension, unless a general block call takes it up again for a node that does not. -/
theorem isOwner_iff_owns_iff {t t' : Template d n} {nodes : Nodes n}
    {fresh : Fin d → TemplateChunk n} {calls : List (DistCall d n)}
    (hw : ∀ c ∈ calls, c.WidthPos)
    (h : distTemplates (initTemplateChunk t nodes fresh) calls = .ok t') :
    (t'.isOwner = true ↔ nodes.isMember = true ∧ ∀ c ∈ calls, c.Owns t.info nodes) ↔
      ¬ (nodes.isMember = true ∧ Reclaims t.info nodes calls) := by
  obtain ⟨hmem, hnon⟩ := distTemplates_flag hw h
  simp only [initTemplateChunk] at hmem hnon
  by_cases hm : nodes.isMember = true
  · rw [hmem hm, foldl_flagAfter_iff]
    simp only [hm, true_and]
    constructor
    · rintro hiff ⟨pre, c, post, rfl, hs, hpost, c', hc', hno⟩
      refine hno (hiff.mp (Or.inr ⟨pre, c, post, rfl, hs, hpost⟩) c' ?_)
      have : c' ∈ pre ∨ c' = c := by simpa using hc'
      simp only [List.mem_append, List.mem_cons]
      tauto
    · intro hno
      refine ⟨?_, Or.inl⟩
      rintro (hall | ⟨pre, c, post, rfl, hs, hpost⟩)
      · exact hall
      · intro c' hc'
        by_contra hc
        have hpre : c' ∈ pre ++ [c] := by
          have : c' ∈ pre ∨ c' = c ∨ c' ∈ post := by simpa using hc'
          simp only [List.mem_append, List.mem_singleton]
          rcases this with h1 | h1 | h1
          · exact Or.inl h1
          · exact Or.inr h1
          · exact absurd (hpost c' h1) hc
        exact hno ⟨pre, c, post, rfl, hs, hpost, c', hpre, hc⟩
  · rw [Bool.not_eq_true] at hm
    simp [hnon hm hm, hm]

theorem four_nodes_lt : 4 < 2 ^ 31 := by norm_num

theorem one_node_lt : 1 < 2 ^ 31 := by norm_num

/-- A `p(4,1)` node set as seen from its last node. -/
def planeNodes : Nodes 2 where
  isMember := true
  info := ![⟨4, 3, four_nodes_lt⟩, ⟨1, 0, one_node_lt⟩]

/-- A `t(0:2,0:4)` template. -/
def planeTemplate : Template 2 2 where
  isFixed := true
  isDistributed := false
  isOwner := false
  ontoNodes := planeNodes
  chunk := fun _ => default
  info := ![⟨0, 2, by decide, by decide, by decide, by decide⟩,
    ⟨0, 4, by decide, by decide, by decide, by decide⟩]

theorem planeNodes_not_owns :
    ¬ (⟨0, 0, .block⟩ : DistCall 2 2).Owns planeTemplate.info planeNodes := by
  intro h
  exact absurd (owns_block.mp h) (by decide)

/-- With the general block dimension distributed first, the cleared flag stays cleared. -/
theorem isOwner_iff_owns_block_last :
    let calls : List (DistCall 2 2) := [⟨1, 1, .gblock (some fun _ => 5)⟩, ⟨0, 0, .block⟩]
    ∀ t', distTemplates (initTemplateChunk planeTemplate planeNodes fun _ => default) calls =
        .ok t' →
      (t'.isOwner = true ↔ planeNodes.isMember = true ∧
        ∀ c ∈ calls, c.Owns planeTemplate.info planeNodes) := by
  intro calls t' h
  have hw : ∀ c ∈ calls, c.WidthPos := by
    intro c hc w hfmt
    rcases List.mem_pair.mp hc with rfl | rfl <;> cases hfmt
  refine (isOwner_iff_owns_iff hw h).mpr ?_
  rintro ⟨-, pre, c, post, heq, ⟨m, hfmt, -⟩, hpost, -⟩
  match pre with
  | [] =>
    obtain ⟨-, rfl⟩ : _ ∧ [⟨0, 0, .block⟩] = post := by simpa [calls] using heq
    exact planeNodes_not_owns (hpost _ (by simp))
  | [_] =>
    obtain ⟨-, rfl, -⟩ : _ ∧ ⟨0, 0, .block⟩ = c ∧ _ := by simpa [calls] using heq
    cases hfmt
  | _ :: _ :: _ => simp [calls] at heq

/-- The last of four nodes owns none of three indices. A general block second dimension
gives the flag back when it is distributed last, and not when it is distributed first. -/
theorem isOwner_depends_on_order :
    let dim0 : DistCall 2 2 := ⟨0, 0, .block⟩
    let dim1 : DistCall 2 2 := ⟨1, 1, .gblock (some fun _ => 5)⟩
    let start := initTemplateChunk planeTemplate planeNodes fun _ => default
    ((distTemplates start [dim0, dim1]).map Template.isOwner = .ok true ∧
      (distTemplates start [dim1, dim0]).map Template.isOwner = .ok false) ∧
      ¬ dim0.Owns planeTemplate.info planeNodes ∧
      ¬ ∀ t', distTemplates start [dim0, dim1] = .ok t' →
        (t'.isOwner = true ↔ planeNodes.isMember = true ∧
          ∀ c ∈ [dim0, dim1], c.Owns planeTemplate.info planeNodes) := by
  intro dim0 dim1 start
  have hno : ¬ dim0.Owns planeTemplate.info planeNodes := planeNodes_not_owns
  have hlast : (distTemplates start [dim1, dim0]).map Template.isOwner = .ok false := by
    simp only [start, dim0, dim1]
    decide
  refine ⟨⟨rfl, hlast⟩, hno, fun hall => ?_⟩
  obtain ⟨-, hown⟩ := (hall _ rfl).mp rfl
  exact hno (hown dim0 (by simp))

end OmniCompiler.Xmp
