import OmniCompiler.Concurrency.Interleaving

/-!
# Constant expressions (`c-const.c`)

`isConstExpr` keeps its answer in the node, in one bit for both values of `allowSymbolAddr`. A later
call that comes to the node returns this bit, whatever it was asked.
-/
namespace OmniCompiler.CFront

open Interleaving

/-- The codes that `isExprCodeChildOf` tells apart. -/
inductive ExprCode
  | addrOf
  | unaryOp
  | binaryOp
  | arrayRef
  | condExpr
  | functionCall
  | exprs
  | typename
  | bracedExpr
  | memberRef
  | pointsAt
  | other
  deriving DecidableEq

/-- The parents of a node, from the next one on, are known by their codes. The result are those from
the node that has been found, which `outParentExpr` is set to. -/
def isExprCodeChildOf (ec : ExprCode) : List ExprCode → Option (List ExprCode)
  | [] => none
  | pec :: parents =>
    if pec = ec then some (pec :: parents)
    else match pec with
      | .exprs | .typename | .bracedExpr | .memberRef | .pointsAt | .arrayRef =>
        isExprCodeChildOf ec parents
      | _ => none

inductive VarType
  | func
  | array
  | pointer
  | other
  deriving DecidableEq

/-- An identifier with `e_symType` and the type of the node. -/
inductive Ident
  | enumerator
  | symbol (type : VarType)
  deriving DecidableEq

namespace Ident

/-- The case `EC_IDENT`. -/
def isConst (allowSymbolAddr : Bool) (parents : List ExprCode) : Ident → Bool
  | .enumerator => true
  | .symbol type =>
    if allowSymbolAddr then
      match type with
      | .func => (isExprCodeChildOf .functionCall parents).isNone
      | .array =>
        match isExprCodeChildOf .arrayRef parents with
        | some pp =>
          (isExprCodeChildOf .arrayRef pp).isSome || (isExprCodeChildOf .addrOf parents).isSome
        | none => true
      | .pointer => true
      | .other => (isExprCodeChildOf .addrOf parents).isSome
    else false

/-- The node of a function that is found constant gets the type of a pointer. -/
def setType (allowSymbolAddr : Bool) (parents : List ExprCode) (x : Ident) : Ident :=
  if x = .symbol .func ∧ x.isConst allowSymbolAddr parents = true then .symbol .pointer else x

end Ident

/-- `e_isConstValueChcked` and `e_isConstValue`. -/
structure ConstBits where
  checked : Bool
  isConst : Bool
  deriving DecidableEq

def ConstBits.set (b : ConstBits) (r : Bool) : ConstBits := ⟨true, r || b.isConst⟩

inductive UnaryCode
  | addrOf
  | other
  deriving DecidableEq

def UnaryCode.code : UnaryCode → ExprCode
  | .addrOf => .addrOf
  | .other => .unaryOp

inductive BinaryCode
  | arrayRef
  | other
  deriving DecidableEq

def BinaryCode.code : BinaryCode → ExprCode
  | .arrayRef => .arrayRef
  | .other => .binaryOp

inductive CExpr
  | numberConst (b : ConstBits)
  | ident (b : ConstBits) (x : Ident)
  | unary (ec : UnaryCode) (b : ConstBits) (e : CExpr)
  | binary (ec : BinaryCode) (b : ConstBits) (e1 e2 : CExpr)
  | condExpr (b : ConstBits) (c e1 e2 : CExpr)
  deriving DecidableEq

namespace CExpr

def isConstExpr (allowSymbolAddr : Bool) : List ExprCode → CExpr → Bool × CExpr
  | _, .numberConst b =>
    if b.checked then (b.isConst, .numberConst b) else (true, .numberConst (b.set true))
  | parents, .ident b x =>
    if b.checked then (b.isConst, .ident b x)
    else
      let r := x.isConst allowSymbolAddr parents
      (r, .ident (b.set r) (x.setType allowSymbolAddr parents))
  | parents, .unary ec b e =>
    if b.checked then (b.isConst, .unary ec b e)
    else
      let r := isConstExpr allowSymbolAddr (ec.code :: parents) e
      (r.1, .unary ec (b.set r.1) r.2)
  | parents, .binary ec b e1 e2 =>
    if b.checked then (b.isConst, .binary ec b e1 e2)
    else
      let r1 := isConstExpr allowSymbolAddr (ec.code :: parents) e1
      if r1.1 then
        let r2 := isConstExpr allowSymbolAddr (ec.code :: parents) e2
        (r2.1, .binary ec (b.set r2.1) r1.2 r2.2)
      else (false, .binary ec (b.set false) r1.2 e2)
  | parents, .condExpr b c e1 e2 =>
    if b.checked then (b.isConst, .condExpr b c e1 e2)
    else
      -- the loop over the operands is skipped
      let r := isConstExpr allowSymbolAddr (.condExpr :: parents) c
      (r.1, .condExpr (b.set r.1) r.2 e1 e2)

/-! ## Queries on sub-expressions -/

def operand : CExpr → ℕ → Option (ExprCode × CExpr)
  | .unary ec _ e, 0 => some (ec.code, e)
  | .binary ec _ e1 _, 0 => some (ec.code, e1)
  | .binary ec _ _ e2, 1 => some (ec.code, e2)
  | .condExpr _ c _ _, 0 => some (.condExpr, c)
  | .condExpr _ _ e1 _, 1 => some (.condExpr, e1)
  | .condExpr _ _ _ e2, 2 => some (.condExpr, e2)
  | _, _ => none

def setOperand : CExpr → ℕ → CExpr → CExpr
  | .unary ec b _, 0, e' => .unary ec b e'
  | .binary ec b _ e2, 0, e' => .binary ec b e' e2
  | .binary ec b e1 _, 1, e' => .binary ec b e1 e'
  | .condExpr b _ e1 e2, 0, e' => .condExpr b e' e1 e2
  | .condExpr b c _ e2, 1, e' => .condExpr b c e' e2
  | .condExpr b c e1 _, 2, e' => .condExpr b c e1 e'
  | e, _, _ => e

/-- The sub-expression at a place, with the codes around it. -/
def subExpr : List ExprCode → CExpr → List ℕ → Option (List ExprCode × CExpr)
  | parents, e, [] => some (parents, e)
  | parents, e, i :: path => (e.operand i).bind fun c => subExpr (c.1 :: parents) c.2 path

/-- A call of `isConstExpr` on the sub-expression at a place. -/
def query (allowSymbolAddr : Bool) : List ExprCode → CExpr → List ℕ → Option (Bool × CExpr)
  | parents, e, [] => some (isConstExpr allowSymbolAddr parents e)
  | parents, e, i :: path => (e.operand i).bind fun c =>
    (query allowSymbolAddr (c.1 :: parents) c.2 path).map fun r => (r.1, e.setOperand i r.2)

/-- Nothing has been checked. -/
def Fresh : CExpr → Prop
  | .numberConst b => b = ⟨false, false⟩
  | .ident b _ => b = ⟨false, false⟩
  | .unary _ b e => b = ⟨false, false⟩ ∧ e.Fresh
  | .binary _ b e1 e2 => b = ⟨false, false⟩ ∧ e1.Fresh ∧ e2.Fresh
  | .condExpr b c e1 e2 => b = ⟨false, false⟩ ∧ c.Fresh ∧ e1.Fresh ∧ e2.Fresh

end CExpr

structure ConstQuery where
  path : List ℕ
  allowSymbolAddr : Bool

/-- One query on the tree, which has the codes `outer` around it. -/
def constStep (outer : List ExprCode) (q : ConstQuery) (e : CExpr) : Option CExpr :=
  (e.query q.allowSymbolAddr outer q.path).map Prod.snd

/-! ## Identifiers and remembered answers -/

structure Leaf where
  isEnum : Bool
  isFit : Bool
  fit_of_enum : isEnum = true → isFit = true

def Leaf.isConst (l : Leaf) (allowSymbolAddr : Bool) : Bool :=
  if allowSymbolAddr then l.isFit else l.isEnum

def Ident.leaf (parents : List ExprCode) (x : Ident) : Leaf where
  isEnum := x = .enumerator
  isFit := x.isConst true parents
  fit_of_enum := by
    intro h
    rw [of_decide_eq_true h, isConst]

namespace CExpr

/-- The identifiers outside the second and third operands of conditional expressions. -/
def lookedAt : List ExprCode → CExpr → List Leaf
  | _, .numberConst _ => []
  | parents, .ident _ x => [x.leaf parents]
  | parents, .unary ec _ e => lookedAt (ec.code :: parents) e
  | parents, .binary ec _ e1 e2 =>
    lookedAt (ec.code :: parents) e1 ++ lookedAt (ec.code :: parents) e2
  | parents, .condExpr _ c _ _ => lookedAt (.condExpr :: parents) c

def remembered : CExpr → List Bool
  | .numberConst b => if b.checked then [b.isConst] else []
  | .ident b _ => if b.checked then [b.isConst] else []
  | .unary _ b e => if b.checked then [b.isConst] else e.remembered
  | .binary _ b e1 e2 =>
    if b.checked then [b.isConst] else e1.remembered ++ e2.remembered
  | .condExpr b c _ _ => if b.checked then [b.isConst] else c.remembered

def unremembered : List ExprCode → CExpr → List Leaf
  | _, .numberConst _ => []
  | parents, .ident b x => if b.checked then [] else [x.leaf parents]
  | parents, .unary ec b e => if b.checked then [] else unremembered (ec.code :: parents) e
  | parents, .binary ec b e1 e2 =>
    if b.checked then []
    else unremembered (ec.code :: parents) e1 ++ unremembered (ec.code :: parents) e2
  | parents, .condExpr b c _ _ =>
    if b.checked then [] else unremembered (.condExpr :: parents) c

/-- With symbol addresses, no outermost answer says that a part is not constant, or an identifier is
not constant anyway. Without them, only enumerators are looked at, or some identifier that is none
is not covered by an answer, or an answer says that a part is not constant. -/
def AnswersRight (allowSymbolAddr : Bool) (parents : List ExprCode) (e : CExpr) : Prop :=
  if allowSymbolAddr then
    false ∉ e.remembered ∨ ∃ l ∈ e.lookedAt parents, l.isFit = false
  else
    (∀ l ∈ e.lookedAt parents, l.isEnum = true) ∨ false ∈ e.remembered ∨
      ∃ l ∈ e.unremembered parents, l.isEnum = false

end CExpr

theorem Ident.isConst_eq (allowSymbolAddr : Bool) (parents : List ExprCode) (x : Ident) :
    x.isConst allowSymbolAddr parents = (x.leaf parents).isConst allowSymbolAddr := by
  cases allowSymbolAddr
  · cases x
    · rfl
    · rfl
  · rfl

theorem Ident.leaf_setType (allowSymbolAddr : Bool) (parents : List ExprCode) (x : Ident) :
    (x.setType allowSymbolAddr parents).leaf parents = x.leaf parents := by
  unfold setType
  split_ifs with h
  · obtain ⟨hx, hconst⟩ := h
    subst hx
    cases allowSymbolAddr
    · exact absurd hconst Bool.false_ne_true
    · simpa [leaf, isConst] using hconst
  · rfl

namespace CExpr

theorem isConstExpr_fst_iff (allowSymbolAddr : Bool) (parents : List ExprCode) (e : CExpr) :
    (e.isConstExpr allowSymbolAddr parents).1 = true ↔ (∀ m ∈ e.remembered, m = true) ∧
      ∀ l ∈ e.unremembered parents, l.isConst allowSymbolAddr = true := by
  induction e generalizing parents with
  | numberConst b =>
    rw [isConstExpr, remembered, unremembered]
    split_ifs <;> simp
  | ident b x =>
    rw [isConstExpr, remembered, unremembered]
    split_ifs <;> simp [Ident.isConst_eq]
  | unary ec b e ih =>
    rw [isConstExpr, remembered, unremembered]
    split_ifs
    · simp
    · exact ih _
  | binary ec b e1 e2 ih1 ih2 =>
    have h1 := ih1 (ec.code :: parents)
    have h2 := ih2 (ec.code :: parents)
    rw [isConstExpr, remembered, unremembered]
    split_ifs
    · simp
    · simp only [List.forall_mem_append]
      cases hfirst : (isConstExpr allowSymbolAddr (ec.code :: parents) e1).1 with
      | true =>
        obtain ⟨hanswers, hidents⟩ := h1.mp hfirst
        simp only [if_true, h2]
        tauto
      | false =>
        rw [hfirst] at h1
        simp only [Bool.false_eq_true, if_false, false_iff] at h1 ⊢
        tauto
  | condExpr b c e1 e2 ihc _ _ =>
    rw [isConstExpr, remembered, unremembered]
    split_ifs
    · simp
    · exact ihc _

theorem remembered_of_fresh {e : CExpr} (h : e.Fresh) : e.remembered = [] := by
  induction e with
  | numberConst b => rw [remembered, h]; rfl
  | ident b x => rw [remembered, h]; rfl
  | unary ec b e ih => rw [remembered, h.1, ih h.2]; rfl
  | binary ec b e1 e2 ih1 ih2 => rw [remembered, h.1, ih1 h.2.1, ih2 h.2.2]; rfl
  | condExpr b c e1 e2 ihc _ _ => rw [remembered, h.1, ihc h.2.1]; rfl

theorem unremembered_of_fresh {e : CExpr} (h : e.Fresh) (parents : List ExprCode) :
    e.unremembered parents = e.lookedAt parents := by
  induction e generalizing parents with
  | numberConst b => rfl
  | ident b x => rw [unremembered, h]; rfl
  | unary ec b e ih => rw [unremembered, h.1, ih h.2]; rfl
  | binary ec b e1 e2 ih1 ih2 => rw [unremembered, h.1, ih1 h.2.1, ih2 h.2.2]; rfl
  | condExpr b c e1 e2 ihc _ _ => rw [unremembered, h.1, ihc h.2.1]; rfl

theorem isConstExpr_fresh_iff {e : CExpr} (h : e.Fresh) (allowSymbolAddr : Bool)
    (parents : List ExprCode) : (e.isConstExpr allowSymbolAddr parents).1 = true ↔
      ∀ l ∈ e.lookedAt parents, l.isConst allowSymbolAddr = true := by
  rw [isConstExpr_fst_iff, remembered_of_fresh h, unremembered_of_fresh h]
  simp

/-! ## Invariant -/

def Justified (answer : Bool) (ls : List Leaf) : Prop :=
  if answer then ∀ l ∈ ls, l.isFit = true else ∃ l ∈ ls, l.isEnum = false

def BitsJustified (b : ConstBits) (ls : List Leaf) : Prop :=
  if b.checked then Justified b.isConst ls else b.isConst = false

def Inv : List ExprCode → CExpr → Prop
  | _, .numberConst b => BitsJustified b []
  | parents, .ident b x => BitsJustified b [x.leaf parents]
  | parents, .unary ec b e =>
    BitsJustified b (e.lookedAt (ec.code :: parents)) ∧ Inv (ec.code :: parents) e
  | parents, .binary ec b e1 e2 =>
    BitsJustified b (e1.lookedAt (ec.code :: parents) ++ e2.lookedAt (ec.code :: parents)) ∧
      Inv (ec.code :: parents) e1 ∧ Inv (ec.code :: parents) e2
  | parents, .condExpr b c e1 e2 => BitsJustified b (c.lookedAt (.condExpr :: parents)) ∧
      Inv (.condExpr :: parents) c ∧ Inv (.condExpr :: parents) e1 ∧ Inv (.condExpr :: parents) e2

theorem inv_of_fresh {e : CExpr} (h : e.Fresh) (parents : List ExprCode) : Inv parents e := by
  induction e generalizing parents with
  | numberConst b => rw [Inv, h]; rfl
  | ident b x => rw [Inv, h]; rfl
  | unary ec b e ih => rw [Inv, h.1]; exact ⟨rfl, ih h.2 _⟩
  | binary ec b e1 e2 ih1 ih2 => rw [Inv, h.1]; exact ⟨rfl, ih1 h.2.1 _, ih2 h.2.2 _⟩
  | condExpr b c e1 e2 ihc ih1 ih2 =>
    rw [Inv, h.1]
    exact ⟨rfl, ihc h.2.1 _, ih1 h.2.2.1 _, ih2 h.2.2.2 _⟩

structure Covered (answers : List Bool) (uncovered ls : List Leaf) : Prop where
  fit : (∀ m ∈ answers, m = true) → (∀ l ∈ uncovered, l.isFit = true) → ∀ l ∈ ls, l.isFit = true
  notEnum : false ∈ answers → ∃ l ∈ ls, l.isEnum = false
  subset : uncovered ⊆ ls

theorem Covered.node {b : ConstBits} {answers : List Bool} {uncovered ls : List Leaf}
    (hb : BitsJustified b ls) (h : b.checked = false → Covered answers uncovered ls) :
    Covered (if b.checked then [b.isConst] else answers)
      (if b.checked then [] else uncovered) ls := by
  rw [BitsJustified] at hb
  split_ifs at hb ⊢ with hchecked
  · rw [Justified] at hb
    refine ⟨?_, ?_, List.nil_subset ls⟩
    · intro hall _
      rwa [if_pos (hall b.isConst List.mem_cons_self)] at hb
    · intro hfalse
      rw [List.mem_singleton] at hfalse
      rwa [← hfalse, if_neg Bool.false_ne_true] at hb
  · exact h (Bool.eq_false_iff.mpr hchecked)

theorem Covered.append {answers answers' : List Bool} {uncovered uncovered' ls ls' : List Leaf}
    (h : Covered answers uncovered ls) (h' : Covered answers' uncovered' ls') :
    Covered (answers ++ answers') (uncovered ++ uncovered') (ls ++ ls') where
  fit := by
    intro hall hfit
    rw [List.forall_mem_append] at hall hfit ⊢
    exact ⟨h.fit hall.1 hfit.1, h'.fit hall.2 hfit.2⟩
  notEnum := by
    intro hfalse
    rcases List.mem_append.mp hfalse with hfalse | hfalse
    · obtain ⟨l, hl, hnot⟩ := h.notEnum hfalse
      exact ⟨l, List.mem_append_left _ hl, hnot⟩
    · obtain ⟨l, hl, hnot⟩ := h'.notEnum hfalse
      exact ⟨l, List.mem_append_right _ hl, hnot⟩
  subset := by
    intro l hl
    rcases List.mem_append.mp hl with hl | hl
    · exact List.mem_append_left _ (h.subset hl)
    · exact List.mem_append_right _ (h'.subset hl)

theorem Covered.leaves (ls : List Leaf) : Covered [] ls ls where
  fit := fun _ hfit => hfit
  notEnum := fun hfalse => absurd hfalse List.not_mem_nil
  subset := List.Subset.refl ls

theorem covered {parents : List ExprCode} {e : CExpr} (h : Inv parents e) :
    Covered e.remembered (e.unremembered parents) (e.lookedAt parents) := by
  induction e generalizing parents with
  | numberConst b =>
    have hnode := Covered.node h fun _ => Covered.leaves []
    rwa [ite_self] at hnode
  | ident b x => exact Covered.node h fun _ => Covered.leaves _
  | unary ec b e ih => exact Covered.node h.1 fun _ => ih h.2
  | binary ec b e1 e2 ih1 ih2 => exact Covered.node h.1 fun _ => (ih1 h.2.1).append (ih2 h.2.2)
  | condExpr b c e1 e2 ihc _ _ => exact Covered.node h.1 fun _ => ihc h.2.1

theorem fit_of_isConst {allowSymbolAddr : Bool} {l : Leaf} (h : l.isConst allowSymbolAddr = true) :
    l.isFit = true := by
  cases allowSymbolAddr
  · exact l.fit_of_enum h
  · exact h

theorem isConst_of_enum (allowSymbolAddr : Bool) {l : Leaf} (h : l.isEnum = true) :
    l.isConst allowSymbolAddr = true := by
  cases allowSymbolAddr
  · exact h
  · exact l.fit_of_enum h

/-- Whatever has been remembered, an answer is right for one of the two modes. -/
theorem justified_isConstExpr {parents : List ExprCode} {e : CExpr} (h : Inv parents e)
    (allowSymbolAddr : Bool) :
    Justified (e.isConstExpr allowSymbolAddr parents).1 (e.lookedAt parents) := by
  have hcovered := covered h
  have hanswer := isConstExpr_fst_iff allowSymbolAddr parents e
  rw [Justified]
  split_ifs with htrue
  · obtain ⟨hall, hopen⟩ := hanswer.mp htrue
    exact hcovered.fit hall fun l hl => fit_of_isConst (hopen l hl)
  · by_contra hnone
    push Not at hnone
    have henum : ∀ l ∈ e.lookedAt parents, l.isEnum = true := by simpa using hnone
    apply htrue
    apply hanswer.mpr
    constructor
    · intro m hm
      by_contra hfalse
      rw [Bool.not_eq_true] at hfalse
      obtain ⟨l, hl, hnot⟩ := hcovered.notEnum (hfalse ▸ hm)
      exact Bool.false_ne_true (hnot.symm.trans (henum l hl))
    · intro l hl
      exact isConst_of_enum allowSymbolAddr (henum l (hcovered.subset hl))

/-! ## Trees that differ in the bits -/

inductive Alike : List ExprCode → CExpr → CExpr → Prop
  | numberConst {parents b b'} : Alike parents (.numberConst b) (.numberConst b')
  | ident {parents b b' x x'} : Ident.leaf parents x' = Ident.leaf parents x →
      Alike parents (.ident b x) (.ident b' x')
  | unary {parents ec b b' e e'} : Alike (ec.code :: parents) e e' →
      Alike parents (.unary ec b e) (.unary ec b' e')
  | binary {parents ec b b' e1 e1' e2 e2'} : Alike (ec.code :: parents) e1 e1' →
      Alike (ec.code :: parents) e2 e2' →
      Alike parents (.binary ec b e1 e2) (.binary ec b' e1' e2')
  | condExpr {parents b b' c c' e1 e1' e2 e2'} : Alike (.condExpr :: parents) c c' →
      Alike (.condExpr :: parents) e1 e1' → Alike (.condExpr :: parents) e2 e2' →
      Alike parents (.condExpr b c e1 e2) (.condExpr b' c' e1' e2')

theorem Alike.refl (parents : List ExprCode) (e : CExpr) : Alike parents e e := by
  induction e generalizing parents with
  | numberConst b => exact .numberConst
  | ident b x => exact .ident rfl
  | unary ec b e ih => exact .unary (ih _)
  | binary ec b e1 e2 ih1 ih2 => exact .binary (ih1 _) (ih2 _)
  | condExpr b c e1 e2 ihc ih1 ih2 => exact .condExpr (ihc _) (ih1 _) (ih2 _)

theorem Alike.trans {parents : List ExprCode} {e f g : CExpr} (h : Alike parents e f)
    (h' : Alike parents f g) : Alike parents e g := by
  induction h generalizing g with
  | numberConst => cases h'; exact .numberConst
  | ident hx => cases h' with | ident hx' => exact .ident (hx'.trans hx)
  | unary _ ih => cases h' with | unary h => exact .unary (ih h)
  | binary _ _ ih1 ih2 => cases h' with | binary h1 h2 => exact .binary (ih1 h1) (ih2 h2)
  | condExpr _ _ _ ihc ih1 ih2 =>
    cases h' with | condExpr hc h1 h2 => exact .condExpr (ihc hc) (ih1 h1) (ih2 h2)

theorem Alike.lookedAt {parents : List ExprCode} {e f : CExpr} (h : Alike parents e f) :
    f.lookedAt parents = e.lookedAt parents := by
  induction h with
  | numberConst => rfl
  | ident hx => rw [CExpr.lookedAt, CExpr.lookedAt, hx]
  | unary _ ih => rw [CExpr.lookedAt, CExpr.lookedAt, ih]
  | binary _ _ ih1 ih2 => rw [CExpr.lookedAt, CExpr.lookedAt, ih1, ih2]
  | condExpr _ _ _ ihc _ _ => rw [CExpr.lookedAt, CExpr.lookedAt, ihc]

theorem alike_isConstExpr (allowSymbolAddr : Bool) (parents : List ExprCode) (e : CExpr) :
    Alike parents e (e.isConstExpr allowSymbolAddr parents).2 := by
  induction e generalizing parents with
  | numberConst b =>
    rw [isConstExpr]
    split_ifs <;> exact .numberConst
  | ident b x =>
    rw [isConstExpr]
    split_ifs
    · exact .ident rfl
    · exact .ident (Ident.leaf_setType allowSymbolAddr parents x)
  | unary ec b e ih =>
    rw [isConstExpr]
    split_ifs
    · exact .refl _ _
    · exact .unary (ih _)
  | binary ec b e1 e2 ih1 ih2 =>
    rw [isConstExpr]
    split_ifs
    · exact .refl _ _
    · dsimp only
      split_ifs
      · exact .binary (ih1 _) (ih2 _)
      · exact .binary (ih1 _) (.refl _ _)
  | condExpr b c e1 e2 ihc _ _ =>
    rw [isConstExpr]
    split_ifs
    · exact .refl _ _
    · exact .condExpr (ihc _) (.refl _ _) (.refl _ _)

theorem bitsJustified_set {b : ConstBits} {r : Bool} {ls ls' : List Leaf} (hb : BitsJustified b ls)
    (hchecked : ¬ b.checked = true) (hr : Justified r ls) (hls : ls' = ls) :
    BitsJustified (b.set r) ls' := by
  rw [BitsJustified, if_neg hchecked] at hb
  rw [BitsJustified, ConstBits.set, hb, Bool.or_false, hls]
  exact hr

theorem inv_isConstExpr {parents : List ExprCode} {e : CExpr} (h : Inv parents e)
    (allowSymbolAddr : Bool) : Inv parents (e.isConstExpr allowSymbolAddr parents).2 := by
  have hjust := justified_isConstExpr h allowSymbolAddr
  induction e generalizing parents with
  | numberConst b =>
    rw [isConstExpr] at hjust ⊢
    split_ifs at hjust ⊢ with hchecked
    · exact h
    · exact bitsJustified_set h hchecked hjust rfl
  | ident b x =>
    rw [isConstExpr] at hjust ⊢
    split_ifs at hjust ⊢ with hchecked
    · exact h
    · exact bitsJustified_set h hchecked hjust
        (congrArg (fun l => [l]) (Ident.leaf_setType allowSymbolAddr parents x))
  | unary ec b e ih =>
    have hinv := ih h.2 (justified_isConstExpr h.2 allowSymbolAddr)
    rw [isConstExpr] at hjust ⊢
    split_ifs at hjust ⊢ with hchecked
    · exact h
    · exact ⟨bitsJustified_set h.1 hchecked hjust (alike_isConstExpr _ _ e).lookedAt, hinv⟩
  | binary ec b e1 e2 ih1 ih2 =>
    have hinv1 := ih1 h.2.1 (justified_isConstExpr h.2.1 allowSymbolAddr)
    have hinv2 := ih2 h.2.2 (justified_isConstExpr h.2.2 allowSymbolAddr)
    have hlook1 := (alike_isConstExpr allowSymbolAddr (ec.code :: parents) e1).lookedAt
    have hlook2 := (alike_isConstExpr allowSymbolAddr (ec.code :: parents) e2).lookedAt
    rw [isConstExpr] at hjust ⊢
    split_ifs at hjust ⊢ with hchecked
    · exact h
    · dsimp only at hjust ⊢
      split_ifs at hjust ⊢
      · exact ⟨bitsJustified_set h.1 hchecked hjust (congrArg₂ (· ++ ·) hlook1 hlook2),
          hinv1, hinv2⟩
      · exact ⟨bitsJustified_set h.1 hchecked hjust (congrArg₂ (· ++ ·) hlook1 rfl), hinv1, h.2.2⟩
  | condExpr b c e1 e2 ihc _ _ =>
    have hinv := ihc h.2.1 (justified_isConstExpr h.2.1 allowSymbolAddr)
    rw [isConstExpr] at hjust ⊢
    split_ifs at hjust ⊢ with hchecked
    · exact h
    · exact ⟨bitsJustified_set h.1 hchecked hjust (alike_isConstExpr _ _ c).lookedAt, hinv, h.2.2⟩

/-! ## Queries -/

theorem operand_numberConst (b : ConstBits) (i : ℕ) : (CExpr.numberConst b).operand i = none := rfl

theorem operand_ident (b : ConstBits) (x : Ident) (i : ℕ) : (CExpr.ident b x).operand i = none :=
  rfl

theorem operand_of_alike {parents : List ExprCode} {e f : CExpr} (h : Alike parents e f) {i : ℕ}
    {c : ExprCode} {f' : CExpr} (hf : f.operand i = some (c, f')) :
    ∃ e', e.operand i = some (c, e') ∧ Alike (c :: parents) e' f' := by
  cases h with
  | numberConst => exact absurd hf (by simp [operand_numberConst])
  | ident => exact absurd hf (by simp [operand_ident])
  | unary h1 =>
    match i, hf with
    | 0, rfl => exact ⟨_, rfl, h1⟩
  | binary h1 h2 =>
    match i, hf with
    | 0, rfl => exact ⟨_, rfl, h1⟩
    | 1, rfl => exact ⟨_, rfl, h2⟩
  | condExpr hc h1 h2 =>
    match i, hf with
    | 0, rfl => exact ⟨_, rfl, hc⟩
    | 1, rfl => exact ⟨_, rfl, h1⟩
    | 2, rfl => exact ⟨_, rfl, h2⟩

theorem alike_setOperand {parents : List ExprCode} {e : CExpr} {i : ℕ} {c : ExprCode} {f g : CExpr}
    (hf : e.operand i = some (c, f)) (h : Alike (c :: parents) f g) :
    Alike parents e (e.setOperand i g) := by
  cases e with
  | numberConst => exact absurd hf (by simp [operand_numberConst])
  | ident => exact absurd hf (by simp [operand_ident])
  | unary =>
    match i, hf with
    | 0, rfl => exact .unary h
  | binary =>
    match i, hf with
    | 0, rfl => exact .binary h (.refl _ _)
    | 1, rfl => exact .binary (.refl _ _) h
  | condExpr =>
    match i, hf with
    | 0, rfl => exact .condExpr h (.refl _ _) (.refl _ _)
    | 1, rfl => exact .condExpr (.refl _ _) h (.refl _ _)
    | 2, rfl => exact .condExpr (.refl _ _) (.refl _ _) h

theorem inv_operand {parents : List ExprCode} {e : CExpr} (hinv : Inv parents e) {i : ℕ}
    {c : ExprCode} {f : CExpr} (hf : e.operand i = some (c, f)) : Inv (c :: parents) f := by
  cases e with
  | numberConst => exact absurd hf (by simp [operand_numberConst])
  | ident => exact absurd hf (by simp [operand_ident])
  | unary =>
    match i, hf with
    | 0, rfl => exact hinv.2
  | binary =>
    match i, hf with
    | 0, rfl => exact hinv.2.1
    | 1, rfl => exact hinv.2.2
  | condExpr =>
    match i, hf with
    | 0, rfl => exact hinv.2.1
    | 1, rfl => exact hinv.2.2.1
    | 2, rfl => exact hinv.2.2.2

theorem inv_setOperand {parents : List ExprCode} {e : CExpr} (hinv : Inv parents e) {i : ℕ}
    {c : ExprCode} {f g : CExpr} (hf : e.operand i = some (c, f)) (h : Alike (c :: parents) f g)
    (hg : Inv (c :: parents) g) : Inv parents (e.setOperand i g) := by
  cases e with
  | numberConst => exact absurd hf (by simp [operand_numberConst])
  | ident => exact absurd hf (by simp [operand_ident])
  | unary =>
    match i, hf with
    | 0, rfl =>
      rw [Inv, ← h.lookedAt] at hinv
      exact ⟨hinv.1, hg⟩
  | binary =>
    match i, hf with
    | 0, rfl =>
      rw [Inv, ← h.lookedAt] at hinv
      exact ⟨hinv.1, hg, hinv.2.2⟩
    | 1, rfl =>
      rw [Inv, ← h.lookedAt] at hinv
      exact ⟨hinv.1, hinv.2.1, hg⟩
  | condExpr =>
    match i, hf with
    | 0, rfl =>
      rw [Inv, ← h.lookedAt] at hinv
      exact ⟨hinv.1, hg, hinv.2.2⟩
    | 1, rfl => exact ⟨hinv.1, hinv.2.1, hg, hinv.2.2.2⟩
    | 2, rfl => exact ⟨hinv.1, hinv.2.1, hinv.2.2.1, hg⟩

theorem fresh_operand {e : CExpr} (h : e.Fresh) {i : ℕ} {c : ExprCode} {f : CExpr}
    (hf : e.operand i = some (c, f)) : f.Fresh := by
  cases e with
  | numberConst => exact absurd hf (by simp [operand_numberConst])
  | ident => exact absurd hf (by simp [operand_ident])
  | unary =>
    match i, hf with
    | 0, rfl => exact h.2
  | binary =>
    match i, hf with
    | 0, rfl => exact h.2.1
    | 1, rfl => exact h.2.2
  | condExpr =>
    match i, hf with
    | 0, rfl => exact h.2.1
    | 1, rfl => exact h.2.2.1
    | 2, rfl => exact h.2.2.2

theorem subExpr_of_alike {parents : List ExprCode} {e f : CExpr} (h : Alike parents e f)
    {path : List ℕ} {parents' : List ExprCode} {f' : CExpr}
    (hf : f.subExpr parents path = some (parents', f')) :
    ∃ e', e.subExpr parents path = some (parents', e') ∧ Alike parents' e' f' := by
  induction path generalizing parents e f with
  | nil =>
    obtain ⟨rfl, rfl⟩ := Prod.mk.inj (Option.some.inj hf)
    exact ⟨e, rfl, h⟩
  | cons i path ih =>
    rw [subExpr, Option.bind_eq_some_iff] at hf
    obtain ⟨⟨c, f1⟩, hop, hsub⟩ := hf
    obtain ⟨e1, hop', halike⟩ := operand_of_alike h hop
    obtain ⟨e', hsub', halike'⟩ := ih halike hsub
    exact ⟨e', by rw [subExpr, hop', Option.bind_some, hsub'], halike'⟩

theorem fresh_subExpr {parents parents' : List ExprCode} {e f : CExpr} (h : e.Fresh)
    {path : List ℕ} (hf : e.subExpr parents path = some (parents', f)) : f.Fresh := by
  induction path generalizing parents e with
  | nil =>
    obtain ⟨rfl, rfl⟩ := Prod.mk.inj (Option.some.inj hf)
    exact h
  | cons i path ih =>
    rw [subExpr, Option.bind_eq_some_iff] at hf
    obtain ⟨⟨c, e1⟩, hop, hsub⟩ := hf
    exact ih (fresh_operand h hop) hsub

theorem inv_subExpr {parents parents' : List ExprCode} {e f : CExpr} (h : Inv parents e)
    {path : List ℕ} (hf : e.subExpr parents path = some (parents', f)) : Inv parents' f := by
  induction path generalizing parents e with
  | nil =>
    obtain ⟨rfl, rfl⟩ := Prod.mk.inj (Option.some.inj hf)
    exact h
  | cons i path ih =>
    rw [subExpr, Option.bind_eq_some_iff] at hf
    obtain ⟨⟨c, e1⟩, hop, hsub⟩ := hf
    exact ih (inv_operand h hop) hsub

theorem query_fst (allowSymbolAddr : Bool) (parents : List ExprCode) (e : CExpr) (path : List ℕ) :
    (e.query allowSymbolAddr parents path).map Prod.fst =
      (e.subExpr parents path).map fun t => (t.2.isConstExpr allowSymbolAddr t.1).1 := by
  induction path generalizing parents e with
  | nil => rfl
  | cons i path ih =>
    rw [query, subExpr]
    cases e.operand i with
    | none => rfl
    | some c =>
      rw [Option.bind_some, Option.bind_some, ← ih, Option.map_map]
      rfl

theorem query_snd {allowSymbolAddr : Bool} {parents : List ExprCode} {e f : CExpr} {path : List ℕ}
    (hinv : Inv parents e) (h : (e.query allowSymbolAddr parents path).map Prod.snd = some f) :
    Alike parents e f ∧ Inv parents f := by
  induction path generalizing parents e f with
  | nil =>
    obtain rfl := Option.some.inj h
    exact ⟨alike_isConstExpr _ _ _, inv_isConstExpr hinv _⟩
  | cons i path ih =>
    rw [query, Option.map_bind, Option.bind_eq_some_iff] at h
    obtain ⟨⟨c, e1⟩, hop, hmap⟩ := h
    rw [Function.comp_apply, Option.map_map, Option.map_eq_some_iff] at hmap
    obtain ⟨r, hr, rfl⟩ := hmap
    obtain ⟨halike, hinv'⟩ := ih (inv_operand hinv hop) (by rw [hr]; rfl)
    exact ⟨alike_setOperand hop halike, inv_setOperand hinv hop halike hinv'⟩

/-- Whether the answers and the identifiers give what the identifiers alone give. -/
theorem isConstExpr_eq_iff {parents : List ExprCode} {e e₀ : CExpr} (hinv : Inv parents e)
    (hfresh : e₀.Fresh) (halike : Alike parents e₀ e) (allowSymbolAddr : Bool) :
    (e.isConstExpr allowSymbolAddr parents).1 = (e₀.isConstExpr allowSymbolAddr parents).1 ↔
      AnswersRight allowSymbolAddr parents e := by
  have hcovered := covered hinv
  rw [Bool.eq_iff_iff, isConstExpr_fst_iff, isConstExpr_fresh_iff hfresh, ← halike.lookedAt]
  have hanswers : (∀ m ∈ e.remembered, m = true) ↔ false ∉ e.remembered := by
    constructor
    · intro hall hfalse
      exact Bool.false_ne_true (hall false hfalse)
    · intro hnot m hm
      cases m with
      | true => rfl
      | false => exact absurd hm hnot
  cases allowSymbolAddr with
  | true =>
    -- an answer that says constant is never wrong
    constructor
    · intro hsame
      by_cases hfit : ∀ l ∈ e.lookedAt parents, l.isFit = true
      · exact Or.inl (hanswers.mp (hsame.mpr hfit).1)
      · push Not at hfit
        exact Or.inr (by simpa using hfit)
    · intro hright
      constructor
      · intro ⟨hall, hopen⟩
        exact hcovered.fit hall hopen
      · intro hfit
        rcases hright with hnot | ⟨l, hl, hunfit⟩
        · exact ⟨hanswers.mpr hnot, fun l hl => hfit l (hcovered.subset hl)⟩
        · exact absurd (hunfit.symm.trans (hfit l hl)) Bool.false_ne_true
  | false =>
    -- an answer that says not constant is never wrong
    constructor
    · intro hsame
      by_cases hall : ∀ m ∈ e.remembered, m = true
      · by_cases hopen : ∀ l ∈ e.unremembered parents, l.isEnum = true
        · exact Or.inl (hsame.mp ⟨hall, hopen⟩)
        · push Not at hopen
          exact Or.inr (Or.inr (by simpa using hopen))
      · exact Or.inr (Or.inl (by simpa [hanswers] using hall))
    · intro hright
      constructor
      · intro ⟨hall, hopen⟩
        rcases hright with henum | hfalse | ⟨l, hl, hnot⟩
        · exact henum
        · exact absurd hfalse (hanswers.mp hall)
        · exact absurd (hnot.symm.trans (hopen l hl)) Bool.false_ne_true
      · intro henum
        refine ⟨hanswers.mpr ?_, fun l hl => henum l (hcovered.subset hl)⟩
        intro hfalse
        obtain ⟨l, hl, hnot⟩ := hcovered.notEnum hfalse
        exact Bool.false_ne_true (hnot.symm.trans (henum l hl))

end CExpr

/-- In every run of queries a query is answered as on a fresh copy of the tree if and only if the
answers that earlier queries have left in its sub-expression are right for it. -/
theorem query_eq_fresh_iff {outer : List ExprCode} {e₀ e : CExpr} (hfresh : e₀.Fresh)
    (h : Reachable (fun e => e = e₀) (constStep outer) e) {q : ConstQuery}
    {parents : List ExprCode} {f : CExpr} (hq : e.subExpr outer q.path = some (parents, f)) :
    (e.query q.allowSymbolAddr outer q.path).map Prod.fst =
        (e₀.query q.allowSymbolAddr outer q.path).map Prod.fst ↔
      f.AnswersRight q.allowSymbolAddr parents := by
  have hinv : CExpr.Alike outer e₀ e ∧ CExpr.Inv outer e := by
    apply h.invariant
    · intro e he
      subst he
      exact ⟨.refl _ _, CExpr.inv_of_fresh hfresh outer⟩
    · intro q e e' ⟨halike, hinv⟩ hstep
      obtain ⟨halike', hinv'⟩ := CExpr.query_snd hinv hstep
      exact ⟨halike.trans halike', hinv'⟩
  obtain ⟨f₀, hq₀, halike⟩ := CExpr.subExpr_of_alike hinv.1 hq
  rw [CExpr.query_fst, CExpr.query_fst, hq, hq₀, Option.map_some, Option.map_some,
    Option.some_inj]
  exact CExpr.isConstExpr_eq_iff (CExpr.inv_subExpr hinv.2 hq) (CExpr.fresh_subExpr hfresh hq₀)
    halike q.allowSymbolAddr

/-- `&x + 1` for a variable `x`. -/
def addrPlusOne : CExpr :=
  .binary .other ⟨false, false⟩
    (.unary .addrOf ⟨false, false⟩ (.ident ⟨false, false⟩ (.symbol .other)))
    (.numberConst ⟨false, false⟩)

theorem fresh_addrPlusOne : addrPlusOne.Fresh := ⟨rfl, ⟨rfl, rfl⟩, rfl⟩

/-- The second operand has been asked for; the whole is answered right. -/
theorem query_eq_fresh_addrPlusOne : ∃ e,
    run (constStep [.other]) [⟨[1], false⟩] addrPlusOne = some e ∧
    (e.query true [.other] []).map Prod.fst = (addrPlusOne.query true [.other] []).map Prod.fst :=
  ⟨_, rfl, (query_eq_fresh_iff (q := ⟨[], true⟩) fresh_addrPlusOne
    (reachable_of_run [⟨[1], false⟩] rfl rfl) rfl).mpr (Or.inl (by decide))⟩

/-- When `&x` has been asked for with symbol addresses, it is answered constant without them. -/
theorem query_ne_fresh : ∃ e, Reachable (fun e => e = addrPlusOne) (constStep [.other]) e ∧
    (e.query false [.other] [0]).map Prod.fst = some true ∧
    (addrPlusOne.query false [.other] [0]).map Prod.fst = some false :=
  ⟨_, reachable_of_run [⟨[0], true⟩] rfl rfl, rfl, rfl⟩

end OmniCompiler.CFront
