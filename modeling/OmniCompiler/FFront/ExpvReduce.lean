import OmniCompiler.FFront.PowerInt
import Mathlib.Data.Rat.Defs
import Mathlib.Tactic

/-!
# Reduction of Fortran expressions (`expv_reduce` in `F-opt-expv.c`)

Expressions of integer constants, integer variables and real variables without kinds. Integers are
unbounded and reals are rational numbers where an expression is evaluated; the front end computes
with 64-bit integers. A numeric constant need not be an `INT_CONSTANT`: `0 - 5` becomes the
negation of one. Of such a node `expv_numeric_const_reduce` reads an integer value that it does
not have.
-/
namespace OmniCompiler.FFront

open MachineInt

/-! ## Expressions -/

/-- `TYPE_INT` and `TYPE_REAL`. -/
inductive BasicType
  | int
  | real
  deriving DecidableEq

/-- `MUL_EXPR`, `DIV_EXPR`, `PLUS_EXPR`, `MINUS_EXPR` and `POWER_EXPR`. -/
inductive BinaryCode
  | mul
  | div
  | plus
  | minus
  | power
  deriving DecidableEq

/-- Every node has its `EXPV_TYPE`. -/
inductive Expv
  | intConstant (tp : BasicType) (value : ℤ)
  | var (tp : BasicType) (name : String)
  | unaryMinus (tp : BasicType) (left : Expv)
  | binary (code : BinaryCode) (tp : BasicType) (left right : Expv)
  deriving DecidableEq

namespace Expv

def tp : Expv → BasicType
  | intConstant tp _ | var tp _ | unaryMinus tp _ | binary _ tp _ _ => tp

/-- The value of an `INT_CONSTANT`. -/
def intValue? : Expv → Option ℤ
  | intConstant _ value => some value
  | _ => none

/-- `IS_NUMERIC_CONST_V`; a variable is not a parameter. -/
def isConstant : Expv → Bool
  | intConstant _ _ => true
  | var _ _ => false
  | unaryMinus _ left => left.isConstant
  | binary _ _ left right => left.isConstant && right.isConstant

/-- `(PLUS x c)` with a constant `c`. -/
def addend? : Expv → Option (Expv × ℤ)
  | binary .plus _ left (intConstant _ value) => some (left, value)
  | _ => none

end Expv

def expvConstant0 : Expv := .intConstant .int 0

def expvConstant1 : Expv := .intConstant .int 1

def BinaryCode.foldResult : BinaryCode → ℤ → ℤ → ℤ
  | mul, a, b => toLL (a * b)
  | div, a, b => toLL (a.tdiv b)
  | plus, a, b => toLL (a + b)
  | minus, a, b => toLL (a - b)
  | power, a, b => powerII a b

/-! ## `expv_numeric_const_reduce` -/

section NumericConst

variable (code : BinaryCode) (tp : BasicType) (left right : Expv)

/-- `expv_reduce_conv_const` returns: the type is the one of `v`, or an `INT_CONSTANT` becomes real,
which is not used then. The assertions fail for every other constant. -/
def Converts (v : Expv) : Prop := v.tp = tp ∨ tp = .real ∧ v.intValue?.isSome

instance : DecidablePred (Converts tp) := fun _ => inferInstanceAs (Decidable (_ ∨ _))

/-- `expv_numeric_const_reduce` with two operands; `none` is a failed assertion, or the pointer to
the operands of a node is read as its integer value. -/
def numericConstReduce : Option Expv :=
  if ¬ (Converts tp left ∧ Converts tp right) then none
  else if tp = .real ∨ code = .power ∨ code = .div ∧ right.intValue? = some 0 then
    some (.binary code tp left right)
  else left.intValue?.bind fun a => right.intValue?.map fun b =>
    .intConstant tp (code.foldResult a b)

/-- `expv_numeric_const_reduce` for `UNARY_MINUS_EXPR`. -/
def numericConstReduceMinus : Option Expv :=
  if ¬ Converts tp left then none
  else if tp = .real then some (.unaryMinus tp left)
  else left.intValue?.map fun a => .intConstant tp (toLL (-a))

def reconstruct : Option Expv :=
  if left.isConstant && right.isConstant then numericConstReduce code tp left right
  else some (.binary code tp left right)

end NumericConst

/-! ## `expv_reduce` -/

section Reduce

variable (tp : BasicType) (left right : Expv)

def reduceMul : Option Expv :=
  if left.intValue? = some 0 ∨ right.intValue? = some 0 then some expvConstant0
  else if left.intValue? = some 1 then some right
  else if right.intValue? = some 1 then some left
  else
    match left.intValue?, right.intValue? with
    | some a, some b => some (.intConstant tp (toLL (a * b)))
    | _, _ => reconstruct .mul tp left right

/-- `v` is the expression before the reduction of its operands. -/
def reduceDiv (v : Expv) : Option Expv :=
  if left.intValue? = some 0 then some expvConstant0
  else if right.intValue? = some 0 then some v
  else if right.intValue? = some 1 then some left
  else
    match left.intValue?, right.intValue? with
    | some a, some b => some (.intConstant tp (toLL (a.tdiv b)))
    | _, _ => reconstruct .div tp left right

def reducePlus : Option Expv :=
  if left.intValue? = some 0 then some right
  else if right.intValue? = some 0 then some left
  else
    match left.intValue?, right.intValue?, left.addend? with
    | some a, some b, _ => some (.intConstant tp (toLL (a + b)))
    | none, some b, some (x, a) =>
      some (.binary .plus tp x (.intConstant right.tp (toLL (b + a))))
    | _, _, _ => reconstruct .plus tp left right

def reduceMinus : Option Expv :=
  if left.intValue? = some 0 then some (.unaryMinus tp right)
  else if right.intValue? = some 0 then some left
  else
    match left.intValue?, right.intValue? with
    | some a, some b => some (.intConstant tp (toLL (a - b)))
    | _, _ => reconstruct .minus tp left right

def reducePower : Option Expv :=
  if left.intValue? = some 0 then some expvConstant0
  else if right.intValue? = some 0 then some expvConstant1
  else if left.intValue? = some 1 then some expvConstant1
  else if right.intValue? = some 1 then some left
  else
    match left.intValue?, right.intValue? with
    | some a, some b => some (.intConstant tp (powerII a b))
    | _, _ => reconstruct .power tp left right

def reduceUnaryMinus : Option Expv :=
  match left.intValue? with
  | some a => some (.intConstant tp (toLL (-a)))
  | none =>
    if left.isConstant then numericConstReduceMinus tp left else some (.unaryMinus tp left)

def reduceBinary (code : BinaryCode) (v : Expv) : Option Expv :=
  match code with
  | .mul => reduceMul tp left right
  | .div => reduceDiv tp left right v
  | .plus => reducePlus tp left right
  | .minus => reduceMinus tp left right
  | .power => reducePower tp left right

end Reduce

/-- `expv_reduce(v, FALSE)`. -/
def expvReduce : Expv → Option Expv
  | .intConstant tp value => some (.intConstant tp value)
  | .var tp name => some (.var tp name)
  | .unaryMinus tp left => (expvReduce left).bind fun left => reduceUnaryMinus tp left
  | .binary code tp left right =>
    (expvReduce left).bind fun l => (expvReduce right).bind fun r =>
      reduceBinary tp l r code (.binary code tp left right)

/-! ## Meaning of an expression -/

inductive Value
  | int (i : ℤ)
  | real (q : ℚ)
  deriving DecidableEq

namespace Value

def tp : Value → BasicType
  | int _ => .int
  | real _ => .real

def toReal : Value → ℚ
  | int i => i
  | real q => q

def neg : Value → Value
  | int i => int (-i)
  | real q => real (-q)

end Value

namespace BinaryCode

def intResult : BinaryCode → ℤ → ℤ → Option ℤ
  | mul, a, b => some (a * b)
  | div, a, b => if b = 0 then none else some (a.tdiv b)
  | plus, a, b => some (a + b)
  | minus, a, b => some (a - b)
  | power, a, b => intPower a b

def realResult : BinaryCode → ℚ → Value → Option ℚ
  | mul, a, y => some (a * y.toReal)
  | div, a, y => if y.toReal = 0 then none else some (a / y.toReal)
  | plus, a, y => some (a + y.toReal)
  | minus, a, y => some (a - y.toReal)
  | power, a, .int b => if a = 0 ∧ b < 0 then none else some (a ^ b)
  | power, _, .real _ => none

/-- An operation on integers is one of integers. -/
def result (code : BinaryCode) : Value → Value → Option Value
  | .int a, .int b => (code.intResult a b).map .int
  | .int a, .real b => (code.realResult a (.real b)).map .real
  | .real a, y => (code.realResult a y).map .real

end BinaryCode

/-- Values of the integer and the real variables. -/
structure Env where
  int : String → ℤ
  real : String → ℚ

/-- The value of an expression, where it is defined. -/
def eval (env : Env) : Expv → Option Value
  | .intConstant _ value => some (.int value)
  | .var .int name => some (.int (env.int name))
  | .var .real name => some (.real (env.real name))
  | .unaryMinus _ left => (eval env left).map Value.neg
  | .binary code _ left right =>
    (eval env left).bind fun x => (eval env right).bind fun y => code.result x y

def BasicType.promote : BasicType → BasicType → BasicType
  | .int, .int => .int
  | _, _ => .real

/-- A node has the type that its operands give it, and a constant is a 64-bit integer. -/
def Typed : Expv → Prop
  | .intConstant tp value => tp = .int ∧ InLL value
  | .var _ _ => True
  | .unaryMinus tp left => tp = left.tp ∧ Typed left
  | .binary _ tp left right => tp = left.tp.promote right.tp ∧ Typed left ∧ Typed right

/-! ## What a node becomes

The constants that the operands reduce to decide what becomes of a node.
-/

inductive Action
  | zero
  | one
  | left
  | right
  | negate
  | error
  | fold (a b : ℤ)
  | merge (a b : ℤ)
  | keep
  deriving DecidableEq

def foldOrKeep : Option ℤ → Option ℤ → Action
  | some a, some b => .fold a b
  | _, _ => .keep

def foldOrMerge : Option ℤ → Option ℤ → Option ℤ → Action
  | some a, some b, _ => .fold a b
  | none, some b, some c => .merge c b
  | _, _, _ => .keep

/-- `a` and `b` are the constants of the operands, and `c` is the constant of a left operand
`(PLUS x c)`. -/
def action (code : BinaryCode) (a b c : Option ℤ) : Action :=
  match code with
  | .mul =>
    if a = some 0 ∨ b = some 0 then .zero
    else if a = some 1 then .right
    else if b = some 1 then .left
    else foldOrKeep a b
  | .div =>
    if a = some 0 then .zero
    else if b = some 0 then .error
    else if b = some 1 then .left
    else foldOrKeep a b
  | .plus =>
    if a = some 0 then .right
    else if b = some 0 then .left
    else foldOrMerge a b c
  | .minus =>
    if a = some 0 then .negate
    else if b = some 0 then .left
    else foldOrKeep a b
  | .power =>
    if a = some 0 then .zero
    else if b = some 0 then .one
    else if a = some 1 then .one
    else if b = some 1 then .left
    else foldOrKeep a b

/-- What is known of the operands when a node becomes what `action` says. -/
def Action.Given (code : BinaryCode) (a b c : Option ℤ) : Action → Prop
  | zero => code = .mul ∧ (a = some 0 ∨ b = some 0) ∨ code = .div ∧ a = some 0 ∨
      code = .power ∧ a = some 0
  | one => code = .power ∧ (b = some 0 ∨ a = some 1)
  | left => (code = .mul ∨ code = .div ∨ code = .power) ∧ b = some 1 ∨
      (code = .plus ∨ code = .minus) ∧ b = some 0
  | right => code = .mul ∧ a = some 1 ∨ code = .plus ∧ a = some 0
  | negate => code = .minus ∧ a = some 0
  | error => code = .div ∧ b = some 0
  | fold a' b' => a = some a' ∧ b = some b' ∧ (code = .power → a' ≠ 0)
  | merge c' b' => code = .plus ∧ a = none ∧ c = some c' ∧ b = some b'
  | keep => a = none ∨ b = none

theorem foldOrKeep_given {code : BinaryCode} {a b c : Option ℤ} (h : code = .power → a ≠ some 0) :
    (foldOrKeep a b).Given code a b c := by
  cases a with
  | none => exact Or.inl rfl
  | some a =>
    cases b with
    | none => exact Or.inr rfl
    | some b => exact ⟨rfl, rfl, fun hc ha => h hc (by rw [ha])⟩

theorem foldOrMerge_given (a b c : Option ℤ) : (foldOrMerge a b c).Given .plus a b c := by
  cases a with
  | none =>
    cases b with
    | none => exact Or.inl rfl
    | some b =>
      cases c with
      | none => exact Or.inl rfl
      | some c => exact ⟨rfl, rfl, rfl, rfl⟩
  | some a =>
    cases b with
    | none => exact Or.inr rfl
    | some b => exact ⟨rfl, rfl, nofun⟩

theorem action_given (code : BinaryCode) (a b c : Option ℤ) :
    (action code a b c).Given code a b c := by
  cases code with
  | mul =>
    rw [action]
    split_ifs with h0 ha hb
    · exact Or.inl ⟨rfl, h0⟩
    · exact Or.inl ⟨rfl, ha⟩
    · exact Or.inl ⟨Or.inl rfl, hb⟩
    · exact foldOrKeep_given nofun
  | div =>
    rw [action]
    split_ifs with ha hb0 hb
    · exact Or.inr (Or.inl ⟨rfl, ha⟩)
    · exact ⟨rfl, hb0⟩
    · exact Or.inl ⟨Or.inr (Or.inl rfl), hb⟩
    · exact foldOrKeep_given nofun
  | plus =>
    rw [action]
    split_ifs with ha hb
    · exact Or.inr ⟨rfl, ha⟩
    · exact Or.inr ⟨Or.inl rfl, hb⟩
    · exact foldOrMerge_given a b c
  | minus =>
    rw [action]
    split_ifs with ha hb
    · exact ⟨rfl, ha⟩
    · exact Or.inr ⟨Or.inr rfl, hb⟩
    · exact foldOrKeep_given nofun
  | power =>
    rw [action]
    split_ifs with ha hb0 ha1 hb
    · exact Or.inr (Or.inr ⟨rfl, ha⟩)
    · exact ⟨rfl, Or.inl hb0⟩
    · exact ⟨rfl, Or.inr ha1⟩
    · exact Or.inl ⟨Or.inr (Or.inr rfl), hb⟩
    · exact foldOrKeep_given fun _ => ha

def perform (code : BinaryCode) (tp : BasicType) (left right v : Expv) : Action → Expv
  | .zero => expvConstant0
  | .one => expvConstant1
  | .left => left
  | .right => right
  | .negate => .unaryMinus tp right
  | .error => v
  | .fold a b => .intConstant tp (code.foldResult a b)
  | .merge c b =>
    match left.addend? with
    | some (x, _) => .binary .plus tp x (.intConstant right.tp (toLL (b + c)))
    | none => .binary .plus tp left right
  | .keep => .binary code tp left right

theorem reduceBinary_eq (code : BinaryCode) (tp : BasicType) (left right v : Expv) :
    reduceBinary tp left right code v =
      match action code left.intValue? right.intValue? (left.addend?.map Prod.snd) with
      | .keep => reconstruct code tp left right
      | act => some (perform code tp left right v act) := by
  cases code with
  | mul =>
    rw [reduceBinary, reduceMul, action]
    split_ifs
    · rfl
    · rfl
    · rfl
    · cases left.intValue? <;> cases right.intValue? <;> rfl
  | div =>
    rw [reduceBinary, reduceDiv, action]
    split_ifs
    · rfl
    · rfl
    · rfl
    · cases left.intValue? <;> cases right.intValue? <;> rfl
  | plus =>
    rw [reduceBinary, reducePlus, action]
    split_ifs
    · rfl
    · rfl
    · cases h : left.addend? with
      | none => cases left.intValue? <;> cases right.intValue? <;> rfl
      | some p =>
        cases left.intValue? with
        | none =>
          cases right.intValue? with
          | none => rfl
          | some b => simp only [Option.map_some, foldOrMerge, perform, h]
        | some a => cases right.intValue? <;> rfl
  | minus =>
    rw [reduceBinary, reduceMinus, action]
    split_ifs
    · rfl
    · rfl
    · cases left.intValue? <;> cases right.intValue? <;> rfl
  | power =>
    rw [reduceBinary, reducePower, action]
    split_ifs
    · rfl
    · rfl
    · rfl
    · rfl
    · cases left.intValue? <;> cases right.intValue? <;> rfl

/-- What an expression is reduced to, where no integer value is read that is not there. -/
def reduced : Expv → Expv
  | .intConstant tp value => .intConstant tp value
  | .var tp name => .var tp name
  | .unaryMinus tp left =>
    match (reduced left).intValue? with
    | some a => .intConstant tp (toLL (-a))
    | none => .unaryMinus tp (reduced left)
  | .binary code tp left right =>
    perform code tp (reduced left) (reduced right) (.binary code tp left right)
      (action code (reduced left).intValue? (reduced right).intValue?
        ((reduced left).addend?.map Prod.snd))

/-! ## Constants found in an expression -/

/-- The constant that an expression reduces to, the constant `c` if it reduces to `(PLUS x c)`, and
whether it reduces to a numeric constant. -/
structure Shape where
  const : Option ℤ
  addend : Option ℤ
  isConst : Bool

def shape : Expv → Shape
  | .intConstant _ value => ⟨some value, none, true⟩
  | .var _ _ => ⟨none, none, false⟩
  | .unaryMinus _ left =>
    ⟨(shape left).const.map fun a => toLL (-a), none, (shape left).isConst⟩
  | .binary code _ left right =>
    match action code (shape left).const (shape right).const (shape left).addend with
    | .zero => ⟨some 0, none, true⟩
    | .one => ⟨some 1, none, true⟩
    | .left => shape left
    | .right => shape right
    | .negate => ⟨none, none, (shape right).isConst⟩
    | .error => ⟨none, none, left.isConstant && right.isConstant⟩
    | .fold a b => ⟨some (code.foldResult a b), none, true⟩
    | .merge c b => ⟨none, some (toLL (b + c)), (shape left).isConst⟩
    | .keep => ⟨none, if code = .plus then (shape right).const else none,
        (shape left).isConst && (shape right).isConst⟩

theorem addend?_binary (code : BinaryCode) (tp : BasicType) (left right : Expv) :
    (Expv.binary code tp left right).addend?.map Prod.snd =
      if code = .plus then right.intValue? else none := by
  cases code with
  | plus => cases right <;> rfl
  | mul | div | minus | power => rfl

theorem addend?_eq_some {v : Expv} {p : Expv × ℤ} (h : v.addend? = some p) :
    ∃ tp tp', v = .binary .plus tp p.1 (.intConstant tp' p.2) := by
  cases v with
  | binary code tp left right =>
    cases code with
    | plus =>
      cases right with
      | intConstant tp' value =>
        obtain rfl := Option.some.inj h
        exact ⟨tp, tp', rfl⟩
      | var | unaryMinus | binary => cases h
    | mul | div | minus | power => cases h
  | intConstant | var | unaryMinus => cases h

theorem shape_eq (v : Expv) : (reduced v).intValue? = (shape v).const ∧
    (reduced v).addend?.map Prod.snd = (shape v).addend ∧
    (reduced v).isConstant = (shape v).isConst := by
  induction v with
  | intConstant tp value => exact ⟨rfl, rfl, rfl⟩
  | var tp name => exact ⟨rfl, rfl, rfl⟩
  | unaryMinus tp left ih =>
    rw [reduced, shape, ← ih.2.2, ih.1]
    cases ha : (shape left).const with
    | none => exact ⟨rfl, rfl, rfl⟩
    | some a =>
      refine ⟨rfl, rfl, ?_⟩
      cases hv : reduced left with
      | intConstant tp' value => rfl
      | var | unaryMinus | binary =>
        rw [← ih.1, hv] at ha
        cases ha
  | binary code tp left right ihl ihr =>
    rw [reduced, shape, ihl.1, ihl.2.1, ihr.1]
    have hgiven := action_given code (shape left).const (shape right).const (shape left).addend
    generalize action code (shape left).const (shape right).const (shape left).addend = act
      at hgiven ⊢
    cases act with
    | zero | one => exact ⟨rfl, rfl, rfl⟩
    | negate => exact ⟨rfl, rfl, ihr.2.2⟩
    | fold a b => exact ⟨rfl, rfl, rfl⟩
    | error =>
      obtain ⟨rfl, -⟩ := hgiven
      exact ⟨rfl, rfl, rfl⟩
    | left => exact ihl
    | right => exact ihr
    | merge c b =>
      obtain ⟨-, -, hc, -⟩ := hgiven
      obtain ⟨p, hp, -⟩ := Option.map_eq_some_iff.mp (ihl.2.1.trans hc)
      rw [perform, hp]
      refine ⟨rfl, rfl, ?_⟩
      rw [← ihl.2.2]
      obtain ⟨tp', tp'', hleft⟩ := addend?_eq_some hp
      rw [hleft]
      rfl
    | keep =>
      refine ⟨rfl, by rw [perform, addend?_binary, ihr.1], ?_⟩
      rw [← ihl.2.2, ← ihr.2.2]
      rfl

theorem reduce_of_const {v : Expv} {c : ℤ} (h : (shape v).const = some c) :
    reduced v = .intConstant (reduced v).tp c := by
  rw [← (shape_eq v).1] at h
  cases hv : reduced v with
  | intConstant tp value =>
    rw [hv] at h
    obtain rfl := Option.some.inj h
    rfl
  | var | unaryMinus | binary =>
    rw [hv] at h
    cases h

theorem reduce_of_addend {v : Expv} {c : ℤ} (h : (shape v).addend = some c) :
    ∃ tp x tp', reduced v = .binary .plus tp x (.intConstant tp' c) ∧
      (reduced v).addend? = some (x, c) := by
  rw [← (shape_eq v).2.1] at h
  obtain ⟨p, hp, rfl⟩ := Option.map_eq_some_iff.mp h
  obtain ⟨tp, tp', hv⟩ := addend?_eq_some hp
  exact ⟨tp, p.1, tp', hv, hp⟩

theorem isConst_of_const {v : Expv} {c : ℤ} (h : (shape v).const = some c) :
    (shape v).isConst = true := by
  rw [← (shape_eq v).2.2, reduce_of_const h]
  rfl

theorem inLL_const {v : Expv} (ht : Typed v) : (∀ c, (shape v).const = some c → InLL c) ∧
    ∀ c, (shape v).addend = some c → InLL c := by
  induction v with
  | intConstant tp value =>
    constructor
    · intro c hc
      obtain rfl := Option.some.inj hc
      exact ht.2
    · rintro c ⟨⟩
  | var tp name =>
    constructor
    · rintro c ⟨⟩
    · rintro c ⟨⟩
  | unaryMinus tp left ih =>
    constructor
    · intro c hc
      obtain ⟨a, -, rfl⟩ := Option.map_eq_some_iff.mp hc
      exact inLL_toLL _
    · rintro c ⟨⟩
  | binary code tp left right ihl ihr =>
    obtain ⟨-, hl, hr⟩ := ht
    rw [shape]
    cases action code (shape left).const (shape right).const (shape left).addend with
    | zero | one => exact ⟨fun c hc => by cases hc; decide, nofun⟩
    | negate | error => exact ⟨nofun, nofun⟩
    | left => exact ihl hl
    | right => exact ihr hr
    | fold a b =>
      refine ⟨?_, nofun⟩
      intro c hc
      obtain rfl := Option.some.inj hc
      cases code with
      | power => exact inLL_powerII a b
      | mul | div | plus | minus => exact inLL_toLL _
    | merge c b =>
      refine ⟨nofun, ?_⟩
      intro c' hc
      obtain rfl := Option.some.inj hc
      exact inLL_toLL _
    | keep =>
      refine ⟨nofun, ?_⟩
      intro c hc
      dsimp only at hc
      split_ifs at hc
      exact (ihr hr).1 c hc

/-! ## When the reduction keeps the meaning -/

def subexprs : Expv → List Expv
  | .intConstant tp value => [.intConstant tp value]
  | .var tp name => [.var tp name]
  | .unaryMinus tp left => .unaryMinus tp left :: subexprs left
  | .binary code tp left right => .binary code tp left right :: (subexprs left ++ subexprs right)

inductive Context
  | hole
  | unaryMinus (tp : BasicType) (c : Context)
  | left (code : BinaryCode) (tp : BasicType) (c : Context) (right : Expv)
  | right (code : BinaryCode) (tp : BasicType) (left : Expv) (c : Context)

def Context.fill (v : Expv) : Context → Expv
  | hole => v
  | .unaryMinus tp c => .unaryMinus tp (c.fill v)
  | .left code tp c y => .binary code tp (c.fill v) y
  | .right code tp x c => .binary code tp x (c.fill v)

/-- The reduction ends, it has the same type, and inside any expression it gives the same value,
where there is one. -/
def Kept (v : Expv) : Prop :=
  ∃ w, expvReduce v = some w ∧ w.tp = v.tp ∧ ∀ (c : Context) env x,
    eval env (c.fill v) = some x → eval env (c.fill w) = some x

def HasValue (v : Expv) : Prop := ∃ env x, eval env v = some x

/-- What has to hold at a node. -/
def Harmless : Expv → Prop
  | .intConstant _ _ | .var _ _ => True
  | .unaryMinus _ left =>
    (∀ a, (shape left).const = some a → HasValue left → InLL (-a)) ∧
      ((shape left).const = none → (shape left).isConst = false)
  | .binary code tp left right =>
    match action code (shape left).const (shape right).const (shape left).addend with
    | .zero => tp = .int ∧ (code = .power → ∀ env x, eval env left = some x →
        eval env right ≠ some (.int 0))
    | .one => tp = .int
    | .fold a b => HasValue (.binary code tp left right) → ∀ c, code.intResult a b = some c → InLL c
    | .merge c b => HasValue (.binary code tp left right) → InLL (b + c)
    | .keep => (shape left).isConst → (shape right).isConst → code = .power
    | _ => True

theorem eval_binary {env : Env} {code : BinaryCode} {tp : BasicType} {left right : Expv}
    {z : Value} :
    eval env (.binary code tp left right) = some z ↔
      ∃ x y, eval env left = some x ∧ eval env right = some y ∧ code.result x y = some z := by
  rw [eval, Option.bind_eq_some_iff]
  constructor
  · rintro ⟨x, hx, h⟩
    obtain ⟨y, hy, hz⟩ := Option.bind_eq_some_iff.mp h
    exact ⟨x, y, hx, hy, hz⟩
  · rintro ⟨x, y, hx, hy, hz⟩
    exact ⟨x, hx, Option.bind_eq_some_iff.mpr ⟨y, hy, hz⟩⟩

theorem eval_fill {u v : Expv} (h : ∀ env x, eval env u = some x → eval env v = some x)
    (c : Context) (env : Env) (x : Value) (hx : eval env (c.fill u) = some x) :
    eval env (c.fill v) = some x := by
  induction c generalizing x with
  | hole => exact h env x hx
  | unaryMinus tp c ih =>
    rw [Context.fill, eval, Option.map_eq_some_iff] at hx ⊢
    obtain ⟨y, hy, rfl⟩ := hx
    exact ⟨y, ih y hy, rfl⟩
  | left code tp c right ih =>
    rw [Context.fill, eval_binary] at hx ⊢
    obtain ⟨y, z, hy, hz, hx⟩ := hx
    exact ⟨y, z, ih y hy, hz, hx⟩
  | right code tp left c ih =>
    rw [Context.fill, eval_binary] at hx ⊢
    obtain ⟨y, z, hy, hz, hx⟩ := hx
    exact ⟨y, z, hy, ih z hz, hx⟩

/-! ## Results of the operations -/

section Results

variable {code : BinaryCode} {x y z : Value}

theorem tp_neg (x : Value) : x.neg.tp = x.tp := by
  cases x <;> rfl

theorem tp_result (h : code.result x y = some z) : z.tp = x.tp.promote y.tp := by
  cases x with
  | int a =>
    cases y with
    | int b =>
      obtain ⟨c, -, rfl⟩ := Option.map_eq_some_iff.mp h
      rfl
    | real b =>
      obtain ⟨c, -, rfl⟩ := Option.map_eq_some_iff.mp h
      rfl
  | real a =>
    obtain ⟨c, -, rfl⟩ := Option.map_eq_some_iff.mp h
    cases y <;> rfl

theorem eq_int_of_tp (h : z.tp = .int) : ∃ c, z = .int c := by
  cases z with
  | int c => exact ⟨c, rfl⟩
  | real q => cases h

theorem result_left {b : ℤ} (h : (code = .mul ∨ code = .div ∨ code = .power) ∧ b = 1 ∨
    (code = .plus ∨ code = .minus) ∧ b = 0) : code.result x (.int b) = some x := by
  cases x with
  | int a =>
    obtain ⟨rfl | rfl | rfl, rfl⟩ | ⟨rfl | rfl, rfl⟩ := h
    · simp [BinaryCode.result, BinaryCode.intResult]
    · simp [BinaryCode.result, BinaryCode.intResult]
    · simp [BinaryCode.result, BinaryCode.intResult, intPower]
    · simp [BinaryCode.result, BinaryCode.intResult]
    · simp [BinaryCode.result, BinaryCode.intResult]
  | real a =>
    obtain ⟨rfl | rfl | rfl, rfl⟩ | ⟨rfl | rfl, rfl⟩ := h
    · simp [BinaryCode.result, BinaryCode.realResult, Value.toReal]
    · simp [BinaryCode.result, BinaryCode.realResult, Value.toReal]
    · simp [BinaryCode.result, BinaryCode.realResult]
    · simp [BinaryCode.result, BinaryCode.realResult, Value.toReal]
    · simp [BinaryCode.result, BinaryCode.realResult, Value.toReal]

theorem result_right {a : ℤ} (h : code = .mul ∧ a = 1 ∨ code = .plus ∧ a = 0) :
    code.result (.int a) y = some y := by
  cases y with
  | int b =>
    obtain ⟨rfl, rfl⟩ | ⟨rfl, rfl⟩ := h
    · simp [BinaryCode.result, BinaryCode.intResult]
    · simp [BinaryCode.result, BinaryCode.intResult]
  | real b =>
    obtain ⟨rfl, rfl⟩ | ⟨rfl, rfl⟩ := h
    · simp [BinaryCode.result, BinaryCode.realResult, Value.toReal]
    · simp [BinaryCode.result, BinaryCode.realResult, Value.toReal]

theorem result_negate : BinaryCode.minus.result (.int 0) y = some y.neg := by
  cases y with
  | int b => simp [BinaryCode.result, BinaryCode.intResult, Value.neg]
  | real b => simp [BinaryCode.result, BinaryCode.realResult, Value.toReal, Value.neg]

theorem result_merge {w : Value} {b c : ℤ} (h : BinaryCode.plus.result w (.int c) = some x)
    (hz : BinaryCode.plus.result x (.int b) = some z) :
    BinaryCode.plus.result w (.int (b + c)) = some z := by
  cases w with
  | int a =>
    cases h
    cases hz
    simp only [BinaryCode.result, BinaryCode.intResult, Option.map_some, Option.some.injEq,
      Value.int.injEq]
    ring
  | real a =>
    cases h
    cases hz
    simp only [BinaryCode.result, BinaryCode.realResult, Value.toReal, Option.map_some,
      Option.some.injEq, Value.real.injEq]
    push_cast
    ring

theorem result_plus_cancel {w : Value} {b c : ℤ} (hb : BinaryCode.plus.result w (.int b) = some z)
    (hc : BinaryCode.plus.result w (.int c) = some z) : b = c := by
  cases w with
  | int a =>
    cases hb
    simpa [BinaryCode.result, BinaryCode.intResult] using hc.symm
  | real a =>
    cases hb
    simpa [BinaryCode.result, BinaryCode.realResult, Value.toReal] using hc.symm

theorem promote_eq_int {s t : BasicType} : s.promote t = .int ↔ s = .int ∧ t = .int := by
  cases s <;> cases t <;> simp [BasicType.promote]

theorem result_int (h : code.result x y = some z) (hz : z.tp = .int) :
    ∃ a b c, x = .int a ∧ y = .int b ∧ z = .int c ∧ code.intResult a b = some c := by
  rw [tp_result h, promote_eq_int] at hz
  obtain ⟨a, rfl⟩ := eq_int_of_tp hz.1
  obtain ⟨b, rfl⟩ := eq_int_of_tp hz.2
  obtain ⟨c, hc, rfl⟩ := Option.map_eq_some_iff.mp h
  exact ⟨a, b, c, rfl, rfl, rfl, hc⟩

theorem result_zero (h : code.result x y = some z) (hz : z.tp = .int)
    (hzero : code = .mul ∧ (x = .int 0 ∨ y = .int 0) ∨ code = .div ∧ x = .int 0 ∨
      code = .power ∧ x = .int 0 ∧ y ≠ .int 0) : z = .int 0 := by
  obtain ⟨a, b, c, rfl, rfl, rfl, hc⟩ := result_int h hz
  obtain ⟨rfl, ha | hb⟩ | ⟨rfl, ha⟩ | ⟨rfl, ha, hb⟩ := hzero
  · cases ha
    cases hc
    rw [zero_mul]
  · cases hb
    cases hc
    rw [mul_zero]
  · cases ha
    rw [BinaryCode.intResult] at hc
    split_ifs at hc
    cases hc
    rw [Int.zero_tdiv]
  · cases ha
    have hb0 : b ≠ 0 := fun h0 => hb (by rw [h0])
    rw [BinaryCode.intResult, intPower] at hc
    by_cases hpos : 0 ≤ b
    · rw [if_pos hpos] at hc
      cases hc
      rw [zero_pow (by omega)]
    · rw [if_neg hpos, if_pos rfl] at hc
      cases hc

theorem result_one (h : code.result x y = some z) (hz : z.tp = .int)
    (hone : code = .power ∧ (y = .int 0 ∨ x = .int 1)) : z = .int 1 := by
  obtain ⟨a, b, c, rfl, rfl, rfl, hc⟩ := result_int h hz
  obtain ⟨rfl, hb | ha⟩ := hone
  · cases hb
    cases hc
    rw [Int.toNat_zero, pow_zero]
  · cases ha
    rw [BinaryCode.intResult, intPower] at hc
    split_ifs at hc
    · cases hc
      rw [one_pow]
    · cases hc
      rw [one_pow]
      rfl

theorem foldResult_eq {a b c : ℤ} (hb : InLL b) (hpower : code = .power → a ≠ 0)
    (h : code.intResult a b = some c) : code.foldResult a b = toLL c := by
  cases code with
  | mul | plus | minus =>
    cases h
    rfl
  | div =>
    rw [BinaryCode.intResult] at h
    split_ifs at h
    cases h
    rfl
  | power => exact powerII_eq (hpower rfl) hb h

end Results

theorem eval_tp {v : Expv} (ht : Typed v) {env : Env} {x : Value} (h : eval env v = some x) :
    x.tp = v.tp := by
  induction v generalizing x with
  | intConstant tp value =>
    cases h
    exact ht.1.symm
  | var tp name =>
    cases tp <;>
      · cases h
        rfl
  | unaryMinus tp left ih =>
    rw [eval, Option.map_eq_some_iff] at h
    obtain ⟨y, hy, rfl⟩ := h
    rw [tp_neg, ih ht.2 hy]
    exact ht.1.symm
  | binary code tp left right ihl ihr =>
    obtain ⟨y, z, hy, hz, hx⟩ := eval_binary.mp h
    rw [tp_result hx, ihl ht.2.1 hy, ihr ht.2.2 hz]
    exact ht.1.symm

/-! ## From the nodes to the expression -/

theorem subexprs_left {code : BinaryCode} {tp : BasicType} {left right u : Expv}
    (h : u ∈ subexprs left) : u ∈ subexprs (.binary code tp left right) :=
  List.mem_cons_of_mem _ (List.mem_append_left _ h)

theorem subexprs_right {code : BinaryCode} {tp : BasicType} {left right u : Expv}
    (h : u ∈ subexprs right) : u ∈ subexprs (.binary code tp left right) :=
  List.mem_cons_of_mem _ (List.mem_append_right _ h)

theorem mem_subexprs_self (v : Expv) : v ∈ subexprs v := by
  cases v <;> exact List.mem_cons_self

theorem tp_of_isConstant {v : Expv} (ht : Typed v) (hc : v.isConstant = true) : v.tp = .int := by
  induction v with
  | intConstant tp value => exact ht.1
  | var tp name => cases hc
  | unaryMinus tp left ih => exact ht.1.trans (ih ht.2 hc)
  | binary code tp left right ihl ihr =>
    obtain ⟨hl, hr⟩ := Bool.and_eq_true_iff.mp hc
    exact ht.1.trans (promote_eq_int.mpr ⟨ihl ht.2.1 hl, ihr ht.2.2 hr⟩)

theorem isConst_tp {v : Expv} (ht : Typed v) (hh : ∀ u ∈ subexprs v, Harmless u)
    (hc : (shape v).isConst = true) : v.tp = .int := by
  induction v with
  | intConstant tp value => exact ht.1
  | var tp name => cases hc
  | unaryMinus tp left ih =>
    exact ht.1.trans (ih ht.2 (fun u hu => hh u (List.mem_cons_of_mem _ hu)) hc)
  | binary code tp left right ihl ihr =>
    have hall := ht
    obtain ⟨htp, htl, htr⟩ := ht
    have hl := ihl htl fun u hu => hh u (subexprs_left hu)
    have hr := ihr htr fun u hu => hh u (subexprs_right hu)
    have hlc : ∀ {c}, (shape left).const = some c → left.tp = .int :=
      fun h => hl (isConst_of_const h)
    have hrc : ∀ {c}, (shape right).const = some c → right.tp = .int :=
      fun h => hr (isConst_of_const h)
    have hnode := hh _ (mem_subexprs_self _)
    have hgiven := action_given code (shape left).const (shape right).const (shape left).addend
    rw [shape] at hc
    rw [Harmless] at hnode
    generalize action code (shape left).const (shape right).const (shape left).addend = act
      at hgiven hnode hc
    have hboth : left.tp = .int → right.tp = .int → tp = .int := by
      intro h₁ h₂
      exact htp.trans (promote_eq_int.mpr ⟨h₁, h₂⟩)
    cases act with
    | zero => exact hnode.1
    | one => exact hnode
    | left =>
      obtain ⟨-, hb⟩ | ⟨-, hb⟩ := hgiven
      · exact hboth (hl hc) (hrc hb)
      · exact hboth (hl hc) (hrc hb)
    | right =>
      obtain ⟨-, ha⟩ | ⟨-, ha⟩ := hgiven
      · exact hboth (hlc ha) (hr hc)
      · exact hboth (hlc ha) (hr hc)
    | fold a b => exact hboth (hlc hgiven.1) (hrc hgiven.2.1)
    | negate => exact hboth (hlc hgiven.2) (hr hc)
    | error => exact tp_of_isConstant hall hc
    | merge c b => exact hboth (hl hc) (hrc hgiven.2.2.2)
    | keep =>
      obtain ⟨h₁, h₂⟩ := Bool.and_eq_true_iff.mp hc
      exact hboth (hl h₁) (hr h₂)

def SameMeaning (u v : Expv) : Prop := u.tp = v.tp ∧ ∀ env x, eval env v = some x →
    eval env u = some x

theorem eval_of_const {v : Expv} {a : ℤ} {env : Env} {x : Value}
    (hsame : SameMeaning (reduced v) v) (hc : (shape v).const = some a)
    (hx : eval env v = some x) : x = .int a := by
  have hred := hsame.2 env x hx
  rw [reduce_of_const hc] at hred
  exact (Option.some.inj hred).symm

section Node

variable {code : BinaryCode} {tp : BasicType} {left right : Expv}

/-- A node whose operands keep their meaning keeps it if it is harmless. -/
theorem sameMeaning_binary (ht : Typed (.binary code tp left right))
    (hl : SameMeaning (reduced left) left) (hr : SameMeaning (reduced right) right)
    (hlc : ∀ {c}, (shape left).const = some c → left.tp = .int)
    (hrc : ∀ {c}, (shape right).const = some c → right.tp = .int)
    (hnode : Harmless (.binary code tp left right)) :
    SameMeaning (reduced (.binary code tp left right)) (.binary code tp left right) := by
  have htypes := ht
  obtain ⟨htp, htl, htr⟩ := ht
  have hgiven := action_given code (shape left).const (shape right).const (shape left).addend
  rw [Harmless] at hnode
  rw [reduced, (shape_eq left).1, (shape_eq right).1, (shape_eq left).2.1]
  generalize action code (shape left).const (shape right).const (shape left).addend = act
    at hgiven hnode ⊢
  have hint : ∀ {env x}, tp = .int → eval env (.binary code tp left right) = some x →
    x.tp = .int := by
    intro env x htpi hx
    rw [eval_tp htypes hx]
    exact htpi
  cases act with
  | zero =>
    refine ⟨hnode.1.symm, ?_⟩
    intro env z hz
    have hztp := hint hnode.1 hz
    obtain ⟨x, y, hx, hy, hres⟩ := eval_binary.mp hz
    rw [result_zero hres hztp]
    · rfl
    · obtain ⟨rfl, ha | hb⟩ | ⟨rfl, ha⟩ | ⟨rfl, ha⟩ := hgiven
      · exact Or.inl ⟨rfl, Or.inl (eval_of_const hl ha hx)⟩
      · exact Or.inl ⟨rfl, Or.inr (eval_of_const hr hb hy)⟩
      · exact Or.inr (Or.inl ⟨rfl, eval_of_const hl ha hx⟩)
      · refine Or.inr (Or.inr ⟨rfl, eval_of_const hl ha hx, ?_⟩)
        rintro rfl
        exact hnode.2 rfl env x hx hy
  | one =>
    refine ⟨hnode.symm, ?_⟩
    intro env z hz
    have hztp := hint hnode hz
    obtain ⟨x, y, hx, hy, hres⟩ := eval_binary.mp hz
    rw [result_one hres hztp]
    · rfl
    · obtain ⟨rfl, hb | ha⟩ := hgiven
      · exact ⟨rfl, Or.inl (eval_of_const hr hb hy)⟩
      · exact ⟨rfl, Or.inr (eval_of_const hl ha hx)⟩
  | left =>
    obtain ⟨b, hb, hneutral⟩ : ∃ b, (shape right).const = some b ∧
        ((code = .mul ∨ code = .div ∨ code = .power) ∧ b = 1 ∨
          (code = .plus ∨ code = .minus) ∧ b = 0) := by
      obtain ⟨hcode, hb⟩ | ⟨hcode, hb⟩ := hgiven
      · exact ⟨1, hb, Or.inl ⟨hcode, rfl⟩⟩
      · exact ⟨0, hb, Or.inr ⟨hcode, rfl⟩⟩
    constructor
    · show (reduced left).tp = tp
      rw [hl.1, htp, hrc hb]
      cases left.tp <;> rfl
    · intro env z hz
      obtain ⟨x, y, hx, hy, hres⟩ := eval_binary.mp hz
      rw [eval_of_const hr hb hy, result_left hneutral] at hres
      cases hres
      exact hl.2 env _ hx
  | right =>
    obtain ⟨a, ha, hneutral⟩ : ∃ a, (shape left).const = some a ∧
        (code = .mul ∧ a = 1 ∨ code = .plus ∧ a = 0) := by
      obtain ⟨hcode, ha⟩ | ⟨hcode, ha⟩ := hgiven
      · exact ⟨1, ha, Or.inl ⟨hcode, rfl⟩⟩
      · exact ⟨0, ha, Or.inr ⟨hcode, rfl⟩⟩
    constructor
    · show (reduced right).tp = tp
      rw [hr.1, htp, hlc ha]
      cases right.tp <;> rfl
    · intro env z hz
      obtain ⟨x, y, hx, hy, hres⟩ := eval_binary.mp hz
      rw [eval_of_const hl ha hx, result_right hneutral] at hres
      cases hres
      exact hr.2 env _ hy
  | negate =>
    obtain ⟨rfl, ha⟩ := hgiven
    refine ⟨rfl, ?_⟩
    intro env z hz
    obtain ⟨x, y, hx, hy, hres⟩ := eval_binary.mp hz
    rw [eval_of_const hl ha hx, result_negate] at hres
    cases hres
    rw [perform, eval, hr.2 env y hy]
    rfl
  | error => exact ⟨rfl, fun _ _ h => h⟩
  | fold a b =>
    obtain ⟨ha, hb, hpower⟩ := hgiven
    refine ⟨rfl, ?_⟩
    intro env z hz
    obtain ⟨x, y, hx, hy, hres⟩ := eval_binary.mp hz
    rw [eval_of_const hl ha hx, eval_of_const hr hb hy] at hres
    obtain ⟨c, hc, rfl⟩ := Option.map_eq_some_iff.mp hres
    rw [perform, foldResult_eq ((inLL_const htr).1 b hb) hpower hc,
      toLL_of_inLL (hnode ⟨env, _, hz⟩ c hc)]
    rfl
  | merge c b =>
    obtain ⟨rfl, -, hc, hb⟩ := hgiven
    obtain ⟨tp', w, tp'', hred, hadd⟩ := reduce_of_addend hc
    rw [perform, hadd]
    refine ⟨rfl, ?_⟩
    intro env z hz
    obtain ⟨x, y, hx, hy, hres⟩ := eval_binary.mp hz
    rw [eval_of_const hr hb hy] at hres
    have hredx := hl.2 env x hx
    rw [hred] at hredx
    obtain ⟨w', c', hw, hc', hsum⟩ := eval_binary.mp hredx
    cases hc'
    rw [toLL_of_inLL (hnode ⟨env, _, hz⟩)]
    exact eval_binary.mpr ⟨w', _, hw, rfl, result_merge hsum hres⟩
  | keep =>
    refine ⟨rfl, ?_⟩
    intro env z hz
    obtain ⟨x, y, hx, hy, hres⟩ := eval_binary.mp hz
    exact eval_binary.mpr ⟨x, y, hl.2 env x hx, hr.2 env y hy, hres⟩

/-- A node that keeps its meaning, as its operands do, and that can be read is harmless. -/
theorem harmless_binary (ht : Typed (.binary code tp left right))
    (hread : action code (shape left).const (shape right).const (shape left).addend = .keep →
      (shape left).isConst → (shape right).isConst → code = .power)
    (hl : SameMeaning (reduced left) left) (hr : SameMeaning (reduced right) right)
    (h : SameMeaning (reduced (.binary code tp left right)) (.binary code tp left right)) :
    Harmless (.binary code tp left right) := by
  obtain ⟨-, htl, htr⟩ := ht
  have hgiven := action_given code (shape left).const (shape right).const (shape left).addend
  rw [Harmless]
  rw [reduced, (shape_eq left).1, (shape_eq right).1, (shape_eq left).2.1] at h
  generalize action code (shape left).const (shape right).const (shape left).addend = act
    at hgiven h hread ⊢
  cases act with
  | zero =>
    refine ⟨h.1.symm, ?_⟩
    rintro rfl env x hx hy
    obtain ⟨⟨⟩, -⟩ | ⟨⟨⟩, -⟩ | ⟨-, ha⟩ := hgiven
    have hx0 := eval_of_const hl ha hx
    subst hx0
    have hval := h.2 env (.int 1) (eval_binary.mpr ⟨_, _, hx, hy, rfl⟩)
    cases hval
  | one => exact h.1.symm
  | fold a b =>
    obtain ⟨ha, hb, hpower⟩ := hgiven
    rintro ⟨env, z, hz⟩ c hc
    have hval := h.2 env z hz
    obtain ⟨x, y, hx, hy, hres⟩ := eval_binary.mp hz
    rw [eval_of_const hl ha hx, eval_of_const hr hb hy, BinaryCode.result, hc] at hres
    cases hres
    rw [perform, foldResult_eq ((inLL_const htr).1 b hb) hpower hc] at hval
    have heq : toLL c = c := Value.int.inj (Option.some.inj hval)
    rw [← heq]
    exact inLL_toLL c
  | merge c b =>
    obtain ⟨rfl, -, hc, hb⟩ := hgiven
    obtain ⟨tp', w, tp'', hred, hadd⟩ := reduce_of_addend hc
    rw [perform, hadd] at h
    rintro ⟨env, z, hz⟩
    have hval := h.2 env z hz
    obtain ⟨x, y, hx, hy, hres⟩ := eval_binary.mp hz
    rw [eval_of_const hr hb hy] at hres
    have hredx := hl.2 env x hx
    rw [hred] at hredx
    obtain ⟨w', c', hw, hc', hsum⟩ := eval_binary.mp hredx
    cases hc'
    obtain ⟨w'', c'', hw'', hc'', hsum''⟩ := eval_binary.mp hval
    cases hc''
    obtain rfl := Option.some.inj (hw.symm.trans hw'')
    have heq : b + c = toLL (b + c) := result_plus_cancel (result_merge hsum hres) hsum''
    rw [heq]
    exact inLL_toLL _
  | keep => exact hread rfl
  | left | right | negate | error => trivial

end Node

theorem sameMeaning_unaryMinus {tp : BasicType} {left : Expv}
    (hl : SameMeaning (reduced left) left) :
    SameMeaning (reduced (.unaryMinus tp left)) (.unaryMinus tp left) ↔
      ∀ a, (shape left).const = some a → HasValue left → InLL (-a) := by
  rw [reduced, (shape_eq left).1]
  cases ha : (shape left).const with
  | none =>
    refine ⟨nofun, fun _ => ⟨rfl, ?_⟩⟩
    intro env x hx
    obtain ⟨y, hy, rfl⟩ := Option.map_eq_some_iff.mp hx
    exact Option.map_eq_some_iff.mpr ⟨y, hl.2 env y hy, rfl⟩
  | some a =>
    constructor
    · rintro ⟨-, hval⟩ a' ha' ⟨env, y, hy⟩
      cases ha'
      have hneg := hval env y.neg (Option.map_eq_some_iff.mpr ⟨y, hy, rfl⟩)
      rw [eval_of_const hl ha hy] at hneg
      have heq : toLL (-a) = -a := Value.int.inj (Option.some.inj hneg)
      rw [← heq]
      exact inLL_toLL _
    · intro h
      refine ⟨rfl, ?_⟩
      intro env x hx
      obtain ⟨y, hy, rfl⟩ := Option.map_eq_some_iff.mp hx
      rw [eval_of_const hl ha hy]
      show some (Value.int (toLL (-a))) = some (Value.int (-a))
      rw [toLL_of_inLL (h a rfl ⟨env, y, hy⟩)]

theorem sameMeaning_of_harmless {v : Expv} (ht : Typed v) (hh : ∀ u ∈ subexprs v, Harmless u) :
    SameMeaning (reduced v) v := by
  induction v with
  | intConstant tp value => exact ⟨rfl, fun _ _ h => h⟩
  | var tp name => exact ⟨rfl, fun _ _ h => h⟩
  | unaryMinus tp left ih =>
    have hl := ih ht.2 fun u hu => hh u (List.mem_cons_of_mem _ hu)
    exact (sameMeaning_unaryMinus hl).mpr (hh _ (mem_subexprs_self _)).1
  | binary code tp left right ihl ihr =>
    have hhl : ∀ u ∈ subexprs left, Harmless u := fun u hu => hh u (subexprs_left hu)
    have hhr : ∀ u ∈ subexprs right, Harmless u := fun u hu => hh u (subexprs_right hu)
    exact sameMeaning_binary ht (ihl ht.2.1 hhl) (ihr ht.2.2 hhr)
      (fun h => isConst_tp ht.2.1 hhl (isConst_of_const h))
      (fun h => isConst_tp ht.2.2 hhr (isConst_of_const h)) (hh _ (mem_subexprs_self _))

/-! ## Reading the integer values -/

def Reads (code : BinaryCode) (tp : BasicType) (left right : Expv) : Prop :=
  left.isConstant = true → right.isConstant = true →
    (Converts tp left ∧ Converts tp right) ∧ (tp = .real ∨ code = .power)

theorem reconstruct_reads {code : BinaryCode} {tp : BasicType} {left right : Expv}
    (h : Reads code tp left right) :
    reconstruct code tp left right = some (.binary code tp left right) := by
  unfold reconstruct
  split_ifs with hconst
  · obtain ⟨hl, hr⟩ := Bool.and_eq_true_iff.mp hconst
    obtain ⟨hconv, htp⟩ := h hl hr
    rw [numericConstReduce, if_neg (not_not.mpr hconv),
      if_pos (htp.imp_right fun hpower => Or.inl hpower)]
  · rfl

theorem reads_of_reconstruct {code : BinaryCode} {tp : BasicType} {left right w : Expv}
    (hkeep : left.intValue? = none ∨ right.intValue? = none)
    (hdiv : ¬ (code = .div ∧ right.intValue? = some 0))
    (h : reconstruct code tp left right = some w) : Reads code tp left right := by
  intro hl hr
  rw [reconstruct, hl, hr, Bool.and_self, if_pos rfl, numericConstReduce] at h
  split_ifs at h with hconv hcode
  · refine ⟨hconv, ?_⟩
    obtain htp | hpower | hzero := hcode
    · exact Or.inl htp
    · exact Or.inr hpower
    · exact absurd hzero hdiv
  · obtain ⟨a, ha, hrest⟩ := Option.bind_eq_some_iff.mp h
    obtain ⟨b, hb, -⟩ := Option.map_eq_some_iff.mp hrest
    obtain hnone | hnone := hkeep
    · rw [ha] at hnone
      cases hnone
    · rw [hb] at hnone
      cases hnone

theorem keep_not_div {code : BinaryCode} {a b c : Option ℤ} (h : action code a b c = .keep) :
    ¬ (code = .div ∧ b = some 0) := by
  rintro ⟨rfl, rfl⟩
  rw [action] at h
  split_ifs at h
  all_goals contradiction

def ReadsNode : Expv → Prop
  | .intConstant _ _ | .var _ _ => True
  | .unaryMinus tp left => (shape left).const = none → (shape left).isConst = true →
      Converts tp (reduced left) ∧ tp = .real
  | .binary code tp left right =>
    action code (shape left).const (shape right).const (shape left).addend = .keep →
      Reads code tp (reduced left) (reduced right)

theorem expvReduce_unaryMinus (tp : BasicType) {left : Expv}
    (hl : expvReduce left = some (reduced left)) :
    (ReadsNode (.unaryMinus tp left) →
      expvReduce (.unaryMinus tp left) = some (reduced (.unaryMinus tp left))) ∧
    ∀ w, expvReduce (.unaryMinus tp left) = some w → ReadsNode (.unaryMinus tp left) := by
  rw [expvReduce, hl, Option.bind_some, reduced, reduceUnaryMinus, ReadsNode, (shape_eq left).1,
    (shape_eq left).2.2]
  cases ha : (shape left).const with
  | some a => exact ⟨fun _ => rfl, nofun⟩
  | none =>
    dsimp only
    cases (shape left).isConst with
    | false => exact ⟨fun _ => rfl, fun _ _ _ h => by cases h⟩
    | true =>
      rw [if_pos rfl, numericConstReduceMinus]
      constructor
      · intro h
        obtain ⟨hconv, htp⟩ := h rfl rfl
        rw [if_neg (not_not.mpr hconv), if_pos htp]
      · intro w h _ _
        split_ifs at h with hconv htp
        · exact ⟨hconv, htp⟩
        · rw [(shape_eq left).1, ha] at h
          cases h

theorem expvReduce_binary (code : BinaryCode) (tp : BasicType) {left right : Expv}
    (hl : expvReduce left = some (reduced left)) (hr : expvReduce right = some (reduced right)) :
    (ReadsNode (.binary code tp left right) →
      expvReduce (.binary code tp left right) = some (reduced (.binary code tp left right))) ∧
    ∀ w, expvReduce (.binary code tp left right) = some w →
      ReadsNode (.binary code tp left right) := by
  have hgiven := action_given code (shape left).const (shape right).const (shape left).addend
  have hdiv := @keep_not_div code (shape left).const (shape right).const (shape left).addend
  rw [expvReduce, hl, Option.bind_some, hr, Option.bind_some, reduceBinary_eq, reduced, ReadsNode,
    (shape_eq left).1, (shape_eq right).1, (shape_eq left).2.1]
  generalize action code (shape left).const (shape right).const (shape left).addend = act
    at hgiven hdiv ⊢
  cases act with
  | keep =>
    constructor
    · intro h
      exact reconstruct_reads (h rfl)
    · intro w h _
      apply reads_of_reconstruct _ _ h
      · rw [(shape_eq left).1, (shape_eq right).1]
        exact hgiven
      · rw [(shape_eq right).1]
        exact hdiv rfl
  | zero | one | left | right | negate | error => exact ⟨fun _ => rfl, fun _ _ h => by cases h⟩
  | fold a b => exact ⟨fun _ => rfl, fun _ _ h => by cases h⟩
  | merge c b => exact ⟨fun _ => rfl, fun _ _ h => by cases h⟩

theorem reduced_of_reads {v : Expv} (h : ∀ u ∈ subexprs v, ReadsNode u) :
    expvReduce v = some (reduced v) := by
  induction v with
  | intConstant tp value => rfl
  | var tp name => rfl
  | unaryMinus tp left ih =>
    have hl := ih fun u hu => h u (List.mem_cons_of_mem _ hu)
    exact (expvReduce_unaryMinus tp hl).1 (h _ (mem_subexprs_self _))
  | binary code tp left right ihl ihr =>
    have hl := ihl fun u hu => h u (subexprs_left hu)
    have hr := ihr fun u hu => h u (subexprs_right hu)
    exact (expvReduce_binary code tp hl hr).1 (h _ (mem_subexprs_self _))

theorem reads_of_expvReduce {v w : Expv} (h : expvReduce v = some w) :
    ∀ u ∈ subexprs v, ReadsNode u := by
  induction v generalizing w with
  | intConstant tp value =>
    intro u hu
    obtain rfl := List.mem_singleton.mp hu
    trivial
  | var tp name =>
    intro u hu
    obtain rfl := List.mem_singleton.mp hu
    trivial
  | unaryMinus tp left ih =>
    have hrun := h
    rw [expvReduce] at hrun
    obtain ⟨l, hl, -⟩ := Option.bind_eq_some_iff.mp hrun
    have hreads := ih hl
    intro u hu
    obtain rfl | hu := List.mem_cons.mp hu
    · exact (expvReduce_unaryMinus tp (reduced_of_reads hreads)).2 w h
    · exact hreads u hu
  | binary code tp left right ihl ihr =>
    have hrun := h
    rw [expvReduce] at hrun
    obtain ⟨l, hl, hrest⟩ := Option.bind_eq_some_iff.mp hrun
    obtain ⟨r, hr, -⟩ := Option.bind_eq_some_iff.mp hrest
    have hreadsl := ihl hl
    have hreadsr := ihr hr
    intro u hu
    obtain rfl | hu := List.mem_cons.mp hu
    · exact (expvReduce_binary code tp (reduced_of_reads hreadsl)
        (reduced_of_reads hreadsr)).2 w h
    · obtain hu | hu := List.mem_append.mp hu
      · exact hreadsl u hu
      · exact hreadsr u hu

theorem kept_iff {v : Expv} :
    Kept v ↔ (∀ u ∈ subexprs v, ReadsNode u) ∧ SameMeaning (reduced v) v := by
  constructor
  · rintro ⟨w, hw, htp, hval⟩
    have hreads := reads_of_expvReduce hw
    rw [reduced_of_reads hreads] at hw
    obtain rfl := Option.some.inj hw
    exact ⟨hreads, htp, hval .hole⟩
  · rintro ⟨hreads, hsame⟩
    exact ⟨reduced v, reduced_of_reads hreads, hsame.1, eval_fill hsame.2⟩

theorem reads_of_harmless {v : Expv} (ht : Typed v) (hh : ∀ u ∈ subexprs v, Harmless u) :
    ReadsNode v := by
  have hnode := hh v (mem_subexprs_self v)
  cases v with
  | intConstant tp value => trivial
  | var tp name => trivial
  | unaryMinus tp left =>
    intro hnone hconst
    rw [hnode.2 hnone] at hconst
    cases hconst
  | binary code tp left right =>
    intro hkeep hl hr
    rw [(shape_eq left).2.2] at hl
    rw [(shape_eq right).2.2] at hr
    rw [Harmless, hkeep] at hnode
    have hhl : ∀ u ∈ subexprs left, Harmless u := fun u hu => hh u (subexprs_left hu)
    have hhr : ∀ u ∈ subexprs right, Harmless u := fun u hu => hh u (subexprs_right hu)
    have hleft := isConst_tp ht.2.1 hhl hl
    have hright := isConst_tp ht.2.2 hhr hr
    have htp : tp = .int := ht.1.trans (promote_eq_int.mpr ⟨hleft, hright⟩)
    refine ⟨⟨Or.inl ?_, Or.inl ?_⟩, Or.inr (hnode hl hr)⟩
    · rw [(sameMeaning_of_harmless ht.2.1 hhl).1, hleft, htp]
    · rw [(sameMeaning_of_harmless ht.2.2 hhr).1, hright, htp]

theorem harmless_of_kept {v : Expv} (ht : Typed v) (h : ∀ u ∈ subexprs v, Kept u) :
    ∀ u ∈ subexprs v, Harmless u := by
  induction v with
  | intConstant tp value =>
    intro u hu
    obtain rfl := List.mem_singleton.mp hu
    trivial
  | var tp name =>
    intro u hu
    obtain rfl := List.mem_singleton.mp hu
    trivial
  | unaryMinus tp left ih =>
    have hsub := ih ht.2 fun u hu => h u (List.mem_cons_of_mem _ hu)
    have hl := (kept_iff.mp (h left (List.mem_cons_of_mem _ (mem_subexprs_self left)))).2
    obtain ⟨hreads, hsame⟩ := kept_iff.mp (h _ (mem_subexprs_self _))
    intro u hu
    obtain rfl | hu := List.mem_cons.mp hu
    · refine ⟨(sameMeaning_unaryMinus hl).mp hsame, ?_⟩
      intro hnone
      rw [← Bool.not_eq_true]
      intro hconst
      obtain ⟨-, htp⟩ := hreads _ (mem_subexprs_self _) hnone hconst
      have hint := isConst_tp ht.2 hsub hconst
      rw [← ht.1, htp] at hint
      cases hint
    · exact hsub u hu
  | binary code tp left right ihl ihr =>
    have hsubl := ihl ht.2.1 fun u hu => h u (subexprs_left hu)
    have hsubr := ihr ht.2.2 fun u hu => h u (subexprs_right hu)
    have hl := (kept_iff.mp (h left (subexprs_left (mem_subexprs_self left)))).2
    have hr := (kept_iff.mp (h right (subexprs_right (mem_subexprs_self right)))).2
    obtain ⟨hreads, hsame⟩ := kept_iff.mp (h _ (mem_subexprs_self _))
    intro u hu
    obtain rfl | hu := List.mem_cons.mp hu
    · apply harmless_binary ht _ hl hr hsame
      intro hkeep hlc hrc
      have hnode := hreads _ (mem_subexprs_self _) hkeep
      rw [Reads, (shape_eq left).2.2, (shape_eq right).2.2] at hnode
      refine (hnode hlc hrc).2.resolve_left ?_
      rw [ht.1, isConst_tp ht.2.1 hsubl hlc, isConst_tp ht.2.2 hsubr hrc]
      nofun
    · obtain hu | hu := List.mem_append.mp hu
      · exact hsubl u hu
      · exact hsubr u hu

theorem typed_of_mem {u v : Expv} (ht : Typed v) (h : u ∈ subexprs v) : Typed u := by
  induction v with
  | intConstant tp value =>
    obtain rfl := List.mem_singleton.mp h
    exact ht
  | var tp name =>
    obtain rfl := List.mem_singleton.mp h
    exact ht
  | unaryMinus tp left ih =>
    obtain rfl | h := List.mem_cons.mp h
    · exact ht
    · exact ih ht.2 h
  | binary code tp left right ihl ihr =>
    obtain rfl | h := List.mem_cons.mp h
    · exact ht
    · obtain h | h := List.mem_append.mp h
      · exact ihl ht.2.1 h
      · exact ihr ht.2.2 h

theorem subexprs_trans {t u v : Expv} (ht : t ∈ subexprs u) (hu : u ∈ subexprs v) :
    t ∈ subexprs v := by
  induction v with
  | intConstant tp value =>
    obtain rfl := List.mem_singleton.mp hu
    exact ht
  | var tp name =>
    obtain rfl := List.mem_singleton.mp hu
    exact ht
  | unaryMinus tp left ih =>
    obtain rfl | hu := List.mem_cons.mp hu
    · exact ht
    · exact List.mem_cons_of_mem _ (ih hu)
  | binary code tp left right ihl ihr =>
    obtain rfl | hu := List.mem_cons.mp hu
    · exact ht
    · obtain hu | hu := List.mem_append.mp hu
      · exact subexprs_left (ihl hu)
      · exact subexprs_right (ihr hu)

/-- The reduction keeps the meaning of an expression and of its parts exactly when every node is
harmless. -/
theorem expvReduce_kept_iff (v : Expv) (ht : Typed v) :
    (∀ u ∈ subexprs v, Kept u) ↔ ∀ u ∈ subexprs v, Harmless u := by
  constructor
  · exact harmless_of_kept ht
  · intro h u hu
    have hpart : ∀ w ∈ subexprs u, ∀ x ∈ subexprs w, Harmless x :=
      fun w hw x hx => h x (subexprs_trans (subexprs_trans hx hw) hu)
    have htu := typed_of_mem ht hu
    refine kept_iff.mpr ⟨?_, sameMeaning_of_harmless htu (hpart u (mem_subexprs_self u))⟩
    intro w hw
    exact reads_of_harmless (typed_of_mem htu hw) (hpart w hw)

/-- `(i + 1) + 2`. -/
def sumExpr : Expv :=
  .binary .plus .int (.binary .plus .int (.var .int "i") (.intConstant .int 1))
    (.intConstant .int 2)

theorem expvReduce_kept_iff_sum : Typed sumExpr ∧ expvReduce sumExpr =
    some (.binary .plus .int (.var .int "i") (.intConstant .int 3)) ∧
      ∀ u ∈ subexprs sumExpr, Kept u := by
  have ht : Typed sumExpr := by
    simp [sumExpr, Typed, Expv.tp, BasicType.promote, InLL]
  refine ⟨ht, by decide, (expvReduce_kept_iff sumExpr ht).mpr ?_⟩
  intro u hu
  simp only [sumExpr, subexprs, List.cons_append, List.nil_append, List.mem_cons,
    List.not_mem_nil, or_false] at hu
  obtain rfl | rfl | rfl | rfl | rfl := hu
  · intro _
    decide
  · intro hkeep
    cases hkeep
  all_goals trivial

/-- `(r * 0 + 1) / 2`. -/
def halfExpr : Expv :=
  .binary .div .real
    (.binary .plus .real (.binary .mul .real (.var .real "r") (.intConstant .int 0))
    (.intConstant .int 1)) (.intConstant .int 2)

/-- A real product with the constant zero becomes an integer, and the division one of integers. -/
theorem expvReduce_half : Typed halfExpr ∧ expvReduce halfExpr = some (.intConstant .real 0) ∧
    (∀ env, eval env halfExpr = some (.real (1 / 2))) ∧ ¬Kept halfExpr := by
  have hvalue : ∀ env, eval env halfExpr = some (.real (1 / 2)) := by
    intro env
    simp [halfExpr, eval, BinaryCode.result, BinaryCode.realResult, Value.toReal]
  refine ⟨?_, by decide, hvalue, ?_⟩
  · simp [halfExpr, Typed, Expv.tp, BasicType.promote, InLL]
  · rintro ⟨w, hw, -, hkept⟩
    obtain rfl : .intConstant .real 0 = w := Option.some.inj hw
    have hwrong := hkept .hole ⟨fun _ => 0, fun _ => 0⟩ (.real (1 / 2)) (hvalue _)
    cases hwrong

end OmniCompiler.FFront
