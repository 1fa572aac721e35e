import OmniCompiler.Arithmetic.ForLoop
import OmniCompiler.Arithmetic.Progression
import OmniCompiler.Xmp.ArrayLayout
import OmniCompiler.Xmp.ArrayBuilt

/-!
# Tasks on a part of a template (`xmp_template.c`)

`_XMP_exec_task_TEMPLATE_PART_nocomm` decides without communication whether a node executes a task
on a reference to a template. Every distribution format has a test of its own for whether the node
owns an element of a referenced triplet.
-/
namespace OmniCompiler.Xmp

open MachineInt BlockCyclic ForLoop Progression SmallFin

variable {d n : ℕ}

/-- `lower : upper : stride` in one dimension of a reference. -/
structure RefTriplet where
  lower : ℤ
  upper : ℤ
  stride : ℤ
  deriving DecidableEq, Repr

def RefTriplet.elems (tr : RefTriplet) : Set ℤ := strided tr.lower tr.upper tr.stride

/-- The loop of `union_triplet` with the arguments it has chosen. A step that is not positive never
leaves the loop upwards: the variable falls until there is a hit or `int` overflows. -/
def commonElement (lb2 ub2 st2 lb3 st3 : ℤ) : Except String Bool :=
  if ub2 < lb2 then .ok false
  else if st3 = 0 then .error "division by zero"
  else if 0 < st2 then .ok ((loopValues lb2 (ub2 + 1) st2).any fun i => (i - lb3).tmod st3 = 0)
  else if (loopValues lb2 (-2 ^ 31 - 1) st2).any fun i => (i - lb3).tmod st3 = 0 then .ok true
  else .error "the loop does not end"

/-- `union_triplet`: whether the triplets have a common element. -/
def unionTriplet (lb0 ub0 st0 lb1 ub1 st1 : ℤ) : Except String Bool :=
  if ub0 < lb0 ∨ ub1 < lb0 then .ok false
  else
    let ub2 := if ub0 > ub1 then ub1 else ub0
    if lb0 > lb1 then commonElement lb0 ub2 st0 lb1 st1 else commonElement lb1 ub2 st1 lb0 st0

/-- The call of `union_triplet`, whose parameters are `int`s. -/
def meetsSection (tr : RefTriplet) (lower upper stride : ℤ) : Except String Bool :=
  unionTriplet (toInt tr.lower) (toInt tr.upper) (toInt tr.stride) (toInt lower) (toInt upper)
    (toInt stride)

/-- The search of a block-cyclic dimension over the offsets in a block, of which `left` are left.
The loop variable is named `i` as that of the dimensions is, so it also selects the triplet; where
there is none, the value that is read is not defined. -/
def searchOffsets (refs : Fin d → Option RefTriplet) (plb pub pst : ℤ) :
    ℕ → ℕ → Except String Bool
  | 0, _ => .ok false
  | left + 1, i =>
    if h : i < d then
      match refs ⟨i, h⟩ with
      | some tr =>
        match meetsSection tr (plb + i) pub pst with
        | .ok false => searchOffsets refs plb pub pst left (i + 1)
        | r => r
      | none => .error "uninitialized lower[i]"
    else .error "lower[i] out of range"

/-- The test of dimension `i`, for which `tr` is given. -/
def templatePartDim (t : Template d n) (refs : Fin d → Option RefTriplet) (i : Fin d)
    (tr : RefTriplet) : Except String Bool :=
  let chunk := t.chunk i
  let plb := chunk.parLower
  let pub := chunk.parUpper
  let pst := toInt chunk.parStride
  match chunk.distManner with
  | .duplication => .ok true
  | .block | .gblock => .ok (!(decide (pub < tr.lower) || decide (tr.upper < plb)))
  | .cyclic => meetsSection tr plb pub pst
  | .blockCyclic => searchOffsets refs plb pub pst chunk.parWidth.toNat 0

def templatePartDims (t : Template d n) (refs : Fin d → Option RefTriplet) :
    List (Fin d) → Except String Bool
  | [] => .ok true
  | i :: is =>
    match refs i with
    | none => templatePartDims t refs is
    | some tr =>
      match templatePartDim t refs i tr with
      | .ok true => templatePartDims t refs is
      | r => r

/-- `_XMP_exec_task_TEMPLATE_PART_nocomm`; no triplet is given for a shrunk dimension. -/
def execTaskTemplatePartNocomm (t : Template d n) (refs : Fin d → Option RefTriplet) :
    Except String Bool :=
  if t.isOwner then templatePartDims t refs (List.finRange d) else .ok false

/-! ## The tests -/

theorem commonElement_eq {lb2 ub2 st2 lb3 st3 : ℤ} (h2 : 0 < st2) (h3 : 0 < st3) :
    ∃ b, commonElement lb2 ub2 st2 lb3 st3 = .ok b ∧
      (b = true ↔ ∃ x, lb2 ≤ x ∧ x ≤ ub2 ∧ st2 ∣ x - lb2 ∧ st3 ∣ x - lb3) := by
  have hdvd : ∀ x : ℤ, x.tmod st3 = 0 ↔ st3 ∣ x := fun x =>
    ⟨Int.dvd_of_tmod_eq_zero, Int.tmod_eq_zero_of_dvd⟩
  unfold commonElement
  by_cases hempty : ub2 < lb2
  · rw [if_pos hempty]
    refine ⟨false, rfl, iff_of_false (by simp) ?_⟩
    rintro ⟨x, hl, hu, -⟩
    omega
  · rw [if_neg hempty, if_neg h3.ne', if_pos h2]
    refine ⟨_, rfl, ?_⟩
    simp only [List.any_eq_true, decide_eq_true_eq, mem_loopValues_of_pos h2, hdvd,
      Int.lt_add_one_iff, and_assoc]

/-- On triplets with positive strides `union_triplet` answers whether they meet. -/
theorem unionTriplet_eq {lb0 ub0 st0 lb1 ub1 st1 : ℤ} (h0 : 0 < st0) (h1 : 0 < st1) :
    ∃ b, unionTriplet lb0 ub0 st0 lb1 ub1 st1 = .ok b ∧
      (b = true ↔ (strided lb0 ub0 st0 ∩ strided lb1 ub1 st1).Nonempty) := by
  have hub : (if ub0 > ub1 then ub1 else ub0) = min ub0 ub1 := by
    split_ifs <;> omega
  unfold unionTriplet
  simp only [hub]
  split_ifs with hempty hlater
  · refine ⟨false, rfl, iff_of_false (by simp) ?_⟩
    rintro ⟨x, ⟨h2, h3, -⟩, h4, h5, -⟩
    omega
  · obtain ⟨b, hb, hiff⟩ := @commonElement_eq lb0 (min ub0 ub1) st0 lb1 st1 h0 h1
    refine ⟨b, hb, hiff.trans ⟨?_, ?_⟩⟩
    · rintro ⟨x, h2, h3, h4, h5⟩
      exact ⟨x, ⟨h2, by omega, h4⟩, by omega, by omega, h5⟩
    · rintro ⟨x, ⟨h2, h3, h4⟩, h5, h6, h7⟩
      exact ⟨x, h2, by omega, h4, h7⟩
  · obtain ⟨b, hb, hiff⟩ := @commonElement_eq lb1 (min ub0 ub1) st1 lb0 st0 h1 h0
    refine ⟨b, hb, hiff.trans ⟨?_, ?_⟩⟩
    · rintro ⟨x, h2, h3, h4, h5⟩
      exact ⟨x, ⟨by omega, by omega, h5⟩, h2, by omega, h4⟩
    · rintro ⟨x, ⟨h2, h3, h4⟩, h5, h6, h7⟩
      exact ⟨x, h5, by omega, h7, h4⟩

/-- The arguments of `union_triplet` are `int`s, its steps go up, and its loop reaches no end of the
range. -/
structure UnionInInt (lb0 ub0 st0 lb1 ub1 st1 : ℤ) : Prop where
  up : 0 < st0 ∧ 0 < st1
  steps : InInt st0 ∧ InInt st1
  lower : InInt lb0 ∧ InInt lb1
  upper : InInt ub0 ∧ InInt ub1
  next : InInt (ub0 + st0) ∧ InInt (ub1 + st1)
  span : InInt (ub0 - lb0) ∧ InInt (ub1 - lb1)

theorem meetsSection_eq {tr : RefTriplet} {lower upper stride : ℤ}
    (h : UnionInInt tr.lower tr.upper tr.stride lower upper stride) :
    ∃ b, meetsSection tr lower upper stride = .ok b ∧
      (b = true ↔ (tr.elems ∩ strided lower upper stride).Nonempty) := by
  rw [meetsSection, toInt_of_inInt h.lower.1, toInt_of_inInt h.upper.1, toInt_of_inInt h.steps.1,
    toInt_of_inInt h.lower.2, toInt_of_inInt h.upper.2, toInt_of_inInt h.steps.2]
  exact unionTriplet_eq h.up.1 h.up.2

section Search

variable (refs : Fin d → Option RefTriplet) (plb pub pst : ℤ)

/-- At block offset `j` a triplet is given for dimension `j`; it meets the elements from the offset
on just when `b` holds. -/
def OffsetAnswer (b : Bool) (j : ℕ) : Prop :=
  ∃ (h : j < d) (tr : RefTriplet), refs ⟨j, h⟩ = some tr ∧
    (b = true ↔ (tr.elems ∩ strided (plb + j) pub pst).Nonempty)

/-- What is passed to `union_triplet` at block offset `j` is in range. -/
def OffsetInInt (j : ℕ) : Prop :=
  ∀ (h : j < d) (tr : RefTriplet), refs ⟨j, h⟩ = some tr →
    UnionInInt tr.lower tr.upper tr.stride (plb + j) pub pst

variable {refs plb pub pst}

theorem OffsetAnswer.unique {b b' : Bool} {j : ℕ} (h : OffsetAnswer refs plb pub pst b j)
    (h' : OffsetAnswer refs plb pub pst b' j) : b = b' := by
  obtain ⟨hj, tr, htr, hb⟩ := h
  obtain ⟨_, tr', htr', hb'⟩ := h'
  rw [htr, Option.some.injEq] at htr'
  exact Bool.eq_iff_iff.mpr (hb.trans (htr' ▸ hb').symm)

theorem searchOffsets_succ {i : ℕ} (hint : OffsetInInt refs plb pub pst i) (left : ℕ) :
    (OffsetAnswer refs plb pub pst true i ∧
        searchOffsets refs plb pub pst (left + 1) i = .ok true) ∨
      (OffsetAnswer refs plb pub pst false i ∧ searchOffsets refs plb pub pst (left + 1) i =
        searchOffsets refs plb pub pst left (i + 1)) ∨
      ((∀ b, ¬ OffsetAnswer refs plb pub pst b i) ∧
        ∃ e, searchOffsets refs plb pub pst (left + 1) i = .error e) := by
  rw [searchOffsets]
  by_cases hd : i < d
  · rw [dif_pos hd]
    cases htr : refs ⟨i, hd⟩ with
    | none =>
      refine Or.inr (Or.inr ⟨?_, _, rfl⟩)
      rintro b ⟨_, tr, htr', -⟩
      rw [htr] at htr'
      cases htr'
    | some tr =>
      obtain ⟨b, hb, hiff⟩ := meetsSection_eq (hint hd tr htr)
      dsimp only
      rw [hb]
      cases b with
      | true => exact Or.inl ⟨⟨hd, tr, htr, hiff⟩, rfl⟩
      | false => exact Or.inr (Or.inl ⟨⟨hd, tr, htr, hiff⟩, rfl⟩)
  · rw [dif_neg hd]
    refine Or.inr (Or.inr ⟨?_, _, rfl⟩)
    rintro b ⟨hd', -⟩
    exact hd hd'

theorem searchOffsets_iff (left i : ℕ)
    (hint : ∀ j, i ≤ j → j < i + left → OffsetInInt refs plb pub pst j) :
    (searchOffsets refs plb pub pst left i = .ok true ↔ ∃ j, i ≤ j ∧ j < i + left ∧
      OffsetAnswer refs plb pub pst true j ∧
        ∀ j', i ≤ j' → j' < j → OffsetAnswer refs plb pub pst false j') ∧
    (searchOffsets refs plb pub pst left i = .ok false ↔
      ∀ j, i ≤ j → j < i + left → OffsetAnswer refs plb pub pst false j) := by
  induction left generalizing i with
  | zero =>
    constructor
    · refine iff_of_false (by simp [searchOffsets]) ?_
      rintro ⟨j, h0, h1, -⟩
      omega
    · exact iff_of_true rfl fun j h0 h1 => by omega
  | succ left ih =>
    obtain ⟨ihtrue, ihfalse⟩ := ih (i + 1) fun j h0 h1 => hint j (by omega) (by omega)
    rcases searchOffsets_succ (hint i le_rfl (by omega)) left with ⟨hhit, heq⟩ | ⟨hmiss, heq⟩ |
      ⟨hno, e, heq⟩ <;> rw [heq]
    · refine ⟨iff_of_true rfl ⟨i, le_rfl, by omega, hhit, fun j' h0 h1 => by omega⟩,
        iff_of_false (by simp) fun h => ?_⟩
      cases hhit.unique (h i le_rfl (by omega))
    · rw [ihtrue, ihfalse]
      constructor
      · constructor
        · rintro ⟨j, h0, h1, hhit, hbefore⟩
          refine ⟨j, by omega, by omega, hhit, fun j' h2 h3 => ?_⟩
          rcases h2.lt_or_eq with hlt | rfl
          · exact hbefore j' hlt h3
          · exact hmiss
        · rintro ⟨j, h0, h1, hhit, hbefore⟩
          rcases h0.lt_or_eq with hlt | rfl
          · exact ⟨j, hlt, by omega, hhit, fun j' h2 h3 => hbefore j' (by omega) h3⟩
          · cases hhit.unique hmiss
      · constructor
        · intro h j h0 h1
          rcases h0.lt_or_eq with hlt | rfl
          · exact h j hlt (by omega)
          · exact hmiss
        · exact fun h j h0 h1 => h j (by omega) (by omega)
    · refine ⟨iff_of_false (by simp) ?_, iff_of_false (by simp) fun h =>
        hno _ (h i le_rfl (by omega))⟩
      rintro ⟨j, h0, h1, hhit, hbefore⟩
      rcases h0.lt_or_eq with hlt | rfl
      · exact hno _ (hbefore i le_rfl hlt)
      · exact hno _ hhit

end Search

/-! ## One dimension -/

section Dim

variable (t : Template d n) (refs : Fin d → Option RefTriplet) (i : Fin d) (tr : RefTriplet)

/-- What the chunk and the triplets tell of the test of dimension `i` (`b` for an element found):
the interval of the triplet overlaps the chunk, the triplet meets the chunk, or, at the first offset
in a block whose triplet meets the elements from there on, one is given for all dimensions up to
it. -/
def DimAnswer (b : Bool) : Prop :=
  let chunk := t.chunk i
  match chunk.distManner, b with
  | .duplication, b => b = true
  | .block, b | .gblock, b => b = true ↔ tr.lower ≤ chunk.parUpper ∧ chunk.parLower ≤ tr.upper
  | .cyclic, b => b = true ↔
      (tr.elems ∩ strided chunk.parLower chunk.parUpper chunk.parStride).Nonempty
  | .blockCyclic, true => ∃ j < chunk.parWidth.toNat,
      OffsetAnswer refs chunk.parLower chunk.parUpper chunk.parStride true j ∧
        ∀ j' < j, OffsetAnswer refs chunk.parLower chunk.parUpper chunk.parStride false j'
  | .blockCyclic, false => ∀ j < chunk.parWidth.toNat,
      OffsetAnswer refs chunk.parLower chunk.parUpper chunk.parStride false j

/-- What the test of dimension `i` passes to `union_triplet` is in range. -/
def DimInInt : Prop :=
  let chunk := t.chunk i
  match chunk.distManner with
  | .duplication | .block | .gblock => True
  | .cyclic => UnionInInt tr.lower tr.upper tr.stride chunk.parLower chunk.parUpper chunk.parStride
  | .blockCyclic => InInt chunk.parStride ∧ ∀ j < chunk.parWidth.toNat,
      OffsetInInt refs chunk.parLower chunk.parUpper chunk.parStride j

variable {t refs i tr}

theorem templatePartDim_iff (hint : DimInInt t refs i tr) (b : Bool) :
    templatePartDim t refs i tr = .ok b ↔ DimAnswer t refs i tr b := by
  unfold DimInInt at hint
  dsimp only at hint
  unfold templatePartDim DimAnswer
  dsimp only
  have hoverlap : (.ok (!(decide ((t.chunk i).parUpper < tr.lower) ||
      decide (tr.upper < (t.chunk i).parLower))) : Except String Bool) = .ok b ↔
      (b = true ↔ tr.lower ≤ (t.chunk i).parUpper ∧ (t.chunk i).parLower ≤ tr.upper) := by
    rw [Except.ok.injEq]
    cases b <;> simp
  cases hm : (t.chunk i).distManner with
  | duplication => simp [eq_comm]
  | block => exact hoverlap
  | gblock => exact hoverlap
  | cyclic =>
    rw [hm] at hint
    obtain ⟨b', hb', hiff⟩ := meetsSection_eq hint
    dsimp only
    rw [toInt_of_inInt hint.steps.2, hb', Except.ok.injEq, ← hiff]
    exact eq_comm.trans Bool.eq_iff_iff
  | blockCyclic =>
    rw [hm] at hint
    have hsearch := searchOffsets_iff (t.chunk i).parWidth.toNat 0
      fun j _ hj => hint.2 j (by omega)
    dsimp only
    rw [toInt_of_inInt hint.1]
    cases b with
    | true => simpa only [zero_le, true_implies, true_and, zero_add] using hsearch.1
    | false => simpa only [zero_le, true_implies, zero_add] using hsearch.2

end Dim

/-! ## All dimensions -/

section Dims

variable (t : Template d n) (refs : Fin d → Option RefTriplet)

/-- Dimension `i` ends the run: its test finds nothing, and those of the dimensions before it do. -/
def FirstMiss (i : Fin d) : Prop :=
  (∃ tr, refs i = some tr ∧ DimAnswer t refs i tr false) ∧
    ∀ i' < i, ∀ tr', refs i' = some tr' → DimAnswer t refs i' tr' true

/-- What the tests pass to `union_triplet` is in range. -/
def RefsInInt : Prop := ∀ i tr, refs i = some tr → DimInInt t refs i tr

variable {t refs}

theorem templatePartDims_true (hint : RefsInInt t refs) (is : List (Fin d)) :
    templatePartDims t refs is = .ok true ↔
    ∀ i ∈ is, ∀ tr, refs i = some tr → DimAnswer t refs i tr true := by
  induction is with
  | nil => simp [templatePartDims]
  | cons i is ih =>
    rw [templatePartDims, List.forall_mem_cons]
    cases href : refs i with
    | none => simpa using ih
    | some tr =>
      have hdim := templatePartDim_iff (hint i tr href) true
      simp only [Option.some.injEq, forall_eq']
      rw [← hdim]
      cases htest : templatePartDim t refs i tr with
      | error e => simp
      | ok b =>
        cases b with
        | true => simpa using ih
        | false => simp

/-- The first element with `A` in a sorted list, all before it having `B`. -/
theorem exists_first_cons {α : Type*} [Preorder α] {A B : α → Prop} {i : α} {is : List α}
    (hlt : ∀ k ∈ is, i < k) : (∃ k ∈ i :: is, A k ∧ ∀ i' ∈ i :: is, i' < k → B i') ↔
      A i ∨ (B i ∧ ∃ k ∈ is, A k ∧ ∀ i' ∈ is, i' < k → B i') := by
  constructor
  · rintro ⟨k, hk, hA, hB⟩
    rcases List.mem_cons.mp hk with rfl | hmem
    · exact Or.inl hA
    · exact Or.inr ⟨hB i (List.mem_cons_self ..) (hlt k hmem), k, hmem, hA,
        fun i' hi' => hB i' (List.mem_cons_of_mem _ hi')⟩
  · rintro (hA | ⟨hBi, k, hmem, hA, hB⟩)
    · refine ⟨i, List.mem_cons_self .., hA, fun i' hi' hless => ?_⟩
      rcases List.mem_cons.mp hi' with rfl | hmem
      · exact absurd hless (lt_irrefl _)
      · exact absurd (hless.trans (hlt i' hmem)) (lt_irrefl _)
    · refine ⟨k, List.mem_cons_of_mem _ hmem, hA, fun i' hi' hless => ?_⟩
      rcases List.mem_cons.mp hi' with rfl | hmem'
      · exact hBi
      · exact hB i' hmem' hless

theorem templatePartDims_false (hint : RefsInInt t refs) {is : List (Fin d)}
    (hsorted : is.Pairwise (· < ·)) :
    templatePartDims t refs is = .ok false ↔
      ∃ i ∈ is, (∃ tr, refs i = some tr ∧ DimAnswer t refs i tr false) ∧
        ∀ i' ∈ is, i' < i → ∀ tr', refs i' = some tr' → DimAnswer t refs i' tr' true := by
  induction is with
  | nil => simp [templatePartDims]
  | cons i is ih =>
    obtain ⟨hlt, hsorted⟩ := List.pairwise_cons.mp hsorted
    rw [exists_first_cons hlt, ← ih hsorted, templatePartDims]
    cases href : refs i with
    | none => simp
    | some tr =>
      simp only [Option.some.injEq, exists_eq_left', forall_eq',
        ← templatePartDim_iff (hint i tr href)]
      cases htest : templatePartDim t refs i tr with
      | error e => simp
      | ok b => cases b <;> simp

theorem execTaskTemplatePartNocomm_true (hint : RefsInInt t refs) :
    execTaskTemplatePartNocomm t refs = .ok true ↔
    t.isOwner = true ∧ ∀ i tr, refs i = some tr → DimAnswer t refs i tr true := by
  unfold execTaskTemplatePartNocomm
  split_ifs with howner
  · rw [templatePartDims_true hint]
    simp [howner]
  · simp [howner]

theorem execTaskTemplatePartNocomm_false (hint : RefsInInt t refs) :
    execTaskTemplatePartNocomm t refs = .ok false ↔
    t.isOwner = false ∨ ∃ i, FirstMiss t refs i := by
  unfold execTaskTemplatePartNocomm
  split_ifs with howner
  · rw [templatePartDims_false hint (List.pairwise_lt_finRange d)]
    simp [howner, FirstMiss]
  · simp [howner]

end Dims

/-! ## The tests on a distributed template -/

/-- The `distribute` directive of a template: the format of each dimension and the dimension of the
nodes it is distributed onto. -/
structure DistFormats (d n : ℕ) where
  nodesIndex : Fin d → Fin n
  fmt : Fin d → DistFormat
  width_pos : ∀ i w, fmt i = .blockCyclic w → 0 < w
  mapping_given : ∀ i, fmt i ≠ .gblock none

/-- The triplet has a positive stride and lies in the template dimension. -/
structure RefTriplet.Within (ti : TemplateInfo) (tr : RefTriplet) : Prop where
  lower : ti.serLower ≤ tr.lower
  upper : tr.upper ≤ ti.serUpper
  stride_pos : 0 < tr.stride

/-- The chunk covers `g`, as far as its format tells from its bounds. -/
def TemplateChunk.Covers (chunk : TemplateChunk n) (g : ℤ) : Prop :=
  match chunk.distManner with
  | .block | .gblock => chunk.parLower ≤ g ∧ g ≤ chunk.parUpper
  | .cyclic => 0 < chunk.parStride ∧ g ∈ strided chunk.parLower chunk.parUpper chunk.parStride
  | .duplication | .blockCyclic => True

namespace DistFormats

variable (formats : DistFormats d n)

def calls : List (DistCall d n) :=
  (List.finRange d).map fun i => ⟨i, formats.nodesIndex i, formats.fmt i⟩

/-- The strides of the chunks are in the range of `int`. -/
def StrideInInt (nodes : Nodes n) : Prop :=
  ∀ i, (formats.fmt i).StrideInInt (nodes.info (formats.nodesIndex i)).size

/-- The node owns an element of the triplet in dimension `i`. -/
def OwnsTriplet (info : Fin d → TemplateInfo) (nodes : Nodes n) (i : Fin d)
    (tr : RefTriplet) : Prop :=
  nodes.isMember = true ∧
    ∃ g ∈ tr.elems, Owned (info i) (nodes.info (formats.nodesIndex i)) (formats.fmt i) g

def OwnsReference (info : Fin d → TemplateInfo) (nodes : Nodes n)
    (refs : Fin d → Option RefTriplet) :
    Prop :=
  ∀ i tr, refs i = some tr → formats.OwnsTriplet info nodes i tr

variable {formats} {t t' : Template d n} {nodes : Nodes n} {fresh : Fin d → TemplateChunk n}
variable {refs : Fin d → Option RefTriplet} {i : Fin d} {tr : RefTriplet}

theorem chunk_written (h : distTemplates (initTemplateChunk t nodes fresh) formats.calls = .ok t')
    (i : Fin d) : ∃ u u' : Template d n, u.info i = t.info i ∧ u.ontoNodes = nodes ∧
      distTemplate u i (formats.nodesIndex i) (formats.fmt i) = .ok u' ∧
      t'.chunk i = u'.chunk i := by
  have hnodup : (formats.calls.map DistCall.templateIndex).Nodup := by
    simpa [calls, Function.comp_def] using List.nodup_finRange d
  obtain ⟨u, u', hinfo, hnodes, hok, hchunk⟩ := distTemplates_written hnodup h
    ⟨i, formats.nodesIndex i, formats.fmt i⟩ (List.mem_map.mpr ⟨i, List.mem_finRange i, rfl⟩)
  exact ⟨u, u', by rw [hinfo]; rfl, hnodes, hok, hchunk⟩

theorem tripletSet_subset_strided {lower upper stride cut : ℤ} (hstride : 0 < stride) :
    tripletSet lower upper stride 1 cut ⊆ strided lower upper stride := by
  rintro g ⟨k, j, hk, hj0, hj1, hle, rfl, -⟩
  obtain rfl : j = 0 := by omega
  have hpos : 0 ≤ k * stride := mul_nonneg hk hstride.le
  exact ⟨by omega, by omega, k, by ring⟩

theorem distTemplateCyclicWidth_covers {u : Template d n} {j : Fin n} {w g : ℤ} (hw : 0 < w)
    (hround : InInt ((u.ontoNodes.info j).size * w))
    (hm : u.ontoNodes.isMember = true) (hg : (u.info i).Contains g)
    (hown : owner w (u.ontoNodes.info j).size
    (g - (u.info i).serLower) = (u.ontoNodes.info j).rank) :
    ((distTemplateCyclicWidth u i j w).chunk i).Covers g := by
  have hspec := distTemplateCyclicWidth_chunk { u with isOwner := true } i j hw hm rfl
  have hmem := (hspec.mem_chunkSet hw hround g).mpr ⟨hg, hown⟩
  have hmanner := hspec.manner
  have hwidth := hspec.width
  have hstride := hspec.stride
  have hsame : (distTemplateCyclicWidth { u with isOwner := true } i j w).chunk i =
    (distTemplateCyclicWidth u i j w).chunk i := rfl
  rw [chunkSet] at hmem
  rw [hsame] at hmem hmanner hwidth hstride
  generalize (distTemplateCyclicWidth u i j w).chunk i = chunk at *
  unfold TemplateChunk.Covers
  rw [hmanner]
  by_cases hone : w = 1
  · have hpos : 0 < chunk.parStride := by
      rw [hstride]
      exact (toInt_of_inInt hround).symm ▸ mul_pos (u.ontoNodes.info j).size_pos hw
    rw [hwidth, hone] at hmem
    rw [if_pos hone]
    split_ifs at hmem
    · exact ⟨hpos, tripletSet_subset_strided hpos hmem⟩
    · exact hmem.elim
  · rw [if_neg hone]
    trivial

/-- The chunk of a node covers the elements that it owns, whatever the flag says. -/
theorem covers_of_owned (h : distTemplates (initTemplateChunk t nodes fresh) formats.calls = .ok t')
    (hstride : formats.StrideInInt nodes) (hm : nodes.isMember = true) {g : ℤ}
    (hg : (t.info i).Contains g)
    (hown : Owned (t.info i) (nodes.info (formats.nodesIndex i)) (formats.fmt i) g) :
    (t'.chunk i).Covers g := by
  obtain ⟨u, u', hinfo, rfl, hok, hchunk⟩ := formats.chunk_written h i
  rw [← hinfo] at hg hown
  rw [hchunk]
  cases hfmt : formats.fmt i with
  | duplication =>
    rw [hfmt] at hok
    cases hok
    simp [TemplateChunk.Covers, distTemplateDuplication]
  | block =>
    rw [hfmt] at hok hown
    cases hok
    have hspec := distTemplateBlock_chunk { u with isOwner := true } i (formats.nodesIndex i) hm rfl
    have hmem := (hspec.mem_chunkSet g).mpr ⟨hg, hown⟩
    have hmanner : ((distTemplateBlock u i (formats.nodesIndex i)).chunk i).distManner = .block :=
      hspec.manner
    rw [chunkSet] at hmem
    split_ifs at hmem
    · rw [hspec.stride, hspec.width, mem_tripletSet_one] at hmem
      unfold TemplateChunk.Covers
      rw [hmanner]
      exact ⟨hmem.1, hmem.2.1⟩
    · exact hmem.elim
  | cyclic =>
    rw [hfmt] at hok hown
    cases hok
    exact distTemplateCyclicWidth_covers one_pos
      (mul_one (_ : ℤ) ▸ (u.ontoNodes.info _).size_inInt) hm hg hown
  | blockCyclic w =>
    rw [hfmt] at hok hown
    cases hok
    have hround := hstride i
    rw [hfmt] at hround
    exact distTemplateCyclicWidth_covers (formats.width_pos i w hfmt) hround hm hg hown
  | gblock m =>
    cases m with
    | none => exact absurd hfmt (formats.mapping_given i)
    | some m =>
      rw [hfmt] at hok hown
      have hspec := distTemplateGblock_chunk hm hok
      have hmem := (hspec.mem_chunkSet g).mpr ⟨hown, hg.2⟩
      rw [chunkSet] at hmem
      split_ifs at hmem
      · rw [hspec.stride, hspec.width, mem_tripletSet_one] at hmem
        unfold TemplateChunk.Covers
        rw [hspec.manner]
        exact ⟨hmem.1, hmem.2.1⟩
      · exact hmem.elim

/-- Outside block-cyclic dimensions the test of a dimension finds what the node owns. -/
theorem OwnsTriplet.answer (hstride : formats.StrideInInt nodes)
    (h : distTemplates (initTemplateChunk t nodes fresh) formats.calls = .ok t')
    (hwithin : tr.Within (t.info i)) (hown : formats.OwnsTriplet t.info nodes i tr)
    (hbc : (t'.chunk i).distManner ≠ .blockCyclic) :
    DimAnswer t' refs i tr true := by
  obtain ⟨hm, g, helem, howned⟩ := hown
  have hge := hwithin.lower
  have hle := hwithin.upper
  have hcovers := covers_of_owned h hstride hm ⟨hge.trans helem.1, helem.2.1.trans hle⟩ howned
  have hoverlap : (t'.chunk i).parLower ≤ g ∧ g ≤ (t'.chunk i).parUpper →
      tr.lower ≤ (t'.chunk i).parUpper ∧ (t'.chunk i).parLower ≤ tr.upper := fun hg =>
    ⟨helem.1.trans hg.2, hg.1.trans helem.2.1⟩
  unfold TemplateChunk.Covers at hcovers
  unfold DimAnswer
  dsimp only
  cases hmanner : (t'.chunk i).distManner with
  | duplication => rfl
  | block =>
    rw [hmanner] at hcovers
    exact iff_of_true rfl (hoverlap hcovers)
  | gblock =>
    rw [hmanner] at hcovers
    exact iff_of_true rfl (hoverlap hcovers)
  | cyclic =>
    rw [hmanner] at hcovers
    exact iff_of_true rfl ⟨g, helem, hcovers.2⟩
  | blockCyclic => exact absurd hmanner hbc

end DistFormats

/-! ## The whole call -/

section Nocomm

variable {formats : DistFormats d n} {t t' : Template d n} {nodes : Nodes n}
variable {refs : Fin d → Option RefTriplet}

/-- The call answers on this node whether it owns an element in every dimension that is not
shrunk. -/
def NocommRight (formats : DistFormats d n) (t t' : Template d n) (nodes : Nodes n)
    (refs : Fin d → Option RefTriplet) : Prop :=
  ∃ b, execTaskTemplatePartNocomm t' refs = .ok b ∧
    (b = true ↔ formats.OwnsReference t.info nodes refs)

/-- A node that owns its part of the reference has the flag set, and in every block-cyclic dimension
some offset in a block suits the triplet of the dimension of that number, as do none before it. A
node that does not either has the flag cleared, or there is a first dimension in which the interval
of the triplet or the triplet itself passes by the chunk, or every offset in a block does. -/
def NocommCond (formats : DistFormats d n) (t t' : Template d n) (nodes : Nodes n)
    (refs : Fin d → Option RefTriplet) : Prop :=
  (formats.OwnsReference t.info nodes refs ∧ t'.isOwner = true ∧
    ∀ i tr, refs i = some tr → (t'.chunk i).distManner = .blockCyclic →
      DimAnswer t' refs i tr true) ∨
  (¬ formats.OwnsReference t.info nodes refs ∧ (t'.isOwner = false ∨ ∃ i, FirstMiss t' refs i))

/-- A one-dimensional template in blocks. -/
def blockFormats : DistFormats 1 1 where
  nodesIndex := fun _ => 0
  fmt := fun _ => .block
  width_pos := by simp
  mapping_given := by simp

/-- The second of three nodes that hold nine elements. -/
def secondNode : Nodes 1 := (lineNodes 3 (by decide)).onRank 0 (1 : Fin 3)

def secondTemplate : Template 1 1 := lineTemplate 0 8 (by decide) secondNode

/-- The template on that node after its distribution. -/
def secondBlock : Template 1 1 :=
  distTemplateBlock (initTemplateChunk secondTemplate secondNode fun _ => default) 0 0

theorem secondBlock_manner (i : Fin 1) : (secondBlock.chunk i).distManner = .block := by
  decide +revert

end Nocomm

end OmniCompiler.Xmp
