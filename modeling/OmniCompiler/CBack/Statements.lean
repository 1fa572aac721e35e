import OmniCompiler.CBack.Writer

/-!
# Statements of the C back end

The XcodeML statements, the objects that `XmcXcodeToXcTranslator` builds from them child by child
(`XcControlStmtObj`, `XcCompStmtObj`, `XcExprStmtObj`) and the text that `appendCode` writes. An
expression is its object: what `appendCode` writes, and the tokens of that. There are no line
directives and no declarations.
-/
namespace OmniCompiler.CBack

open XmcWriter

/-! ## Expressions -/

def Keyword.isStatement : Keyword → Bool
  | ifWord | elseWord | whileWord | doWord | forWord | switchWord | caseWord | defaultWord
  | gotoWord | breakWord | continueWord | returnWord => true
  | _ => false

inductive Role
  | opens
  | closes
  | asks
  | answers
  | ends
  | plain

def Token.role : Token → Role
  | .punct .lparen | .punct .lbrack => .opens
  | .punct .rparen | .punct .rbrack => .closes
  | .punct .question => .asks
  | .punct .colon => .answers
  | .punct .semi | .punct .lbrace | .punct .rbrace => .ends
  | .keyword k => if k.isStatement then .ends else .plain
  | _ => .plain

/-- The open brackets and, outside of brackets, the open `?`. -/
def Role.nest : Role → ℕ → ℕ → Option (ℕ × ℕ)
  | opens, d, q => some (d + 1, q)
  | closes, 0, _ => none
  | closes, d + 1, q => some (d, q)
  | asks, 0, q => some (0, q + 1)
  | answers, 0, 0 => none
  | answers, 0, q + 1 => some (0, q)
  | ends, _, _ => none
  | _, d, q => some (d, q)

def nest (st : ℕ × ℕ) (t : Token) : Option (ℕ × ℕ) := t.role.nest st.1 st.2

def Balanced (us : List Token) : Prop := us.foldlM nest (0, 0) = some (0, 0)

instance : DecidablePred Balanced := fun us =>
  inferInstanceAs (Decidable (us.foldlM nest (0, 0) = some (0, 0)))

structure Expr where
  appendCode : XmcWriter → XmcWriter
  isAssignExpr : Bool
  tokens : List Token
  writes : WritesOpen appendCode tokens
  balanced : Balanced tokens
  nonempty : tokens ≠ []

/-- `XcVarObj` and its kind write a name. -/
def Expr.name (x : Ident) : Expr where
  appendCode := add x.code
  isAssignExpr := false
  tokens := [.ident x]
  writes := writesOpen_token (.ident x)
  balanced := rfl
  nonempty := List.cons_ne_nil _ _

/-! ## XcodeML -/

/-- The `init`, `condition` or `iter` element of a `forStatement`. -/
inductive Element
  | absent
  | empty
  | holds (e : Expr)

def Element.expr? : Element → Option Expr
  | holds e => some e
  | _ => none

mutual

inductive Statement
  | compoundStatement (body : Statements)
  | exprStatement (expr : Option Expr)
  | ifStatement (condition : Expr) (thenPart elsePart : Part)
  | whileStatement (condition : Expr) (body : Body)
  | doStatement (body : Body) (condition : Expr)
  | forStatement (init condition iter : Element) (body : Body)
  | switchStatement (value : Expr) (body : Body)
  | caseLabel (value : Expr)
  | defaultLabel
  | statementLabel (name : Ident)
  | gotoStatement (name : Ident)
  | breakStatement
  | continueStatement
  | returnStatement (expr : Option Expr)

inductive Statements
  | nil
  | cons (s : Statement) (ss : Statements)

/-- The `body` element of a loop or a `switch`. -/
inductive Body
  | absent
  | holds (ss : Statements)

/-- A `then` or `else` element. -/
inductive Part
  | absent
  | empty
  | holds (s : Statement)

end

def Statement.isLabel : Statement → Bool
  | .caseLabel _ | .defaultLabel | .statementLabel _ => true
  | _ => false

/-! ## The statement objects -/

/-- An expression that an object holds; `XcNullExpr` stands for one that is missing. -/
inductive XcExprObj
  | nullExpr
  | expr (e : Expr)

namespace XcExprObj

def expr? : XcExprObj → Option Expr
  | nullExpr => none
  | expr e => some e

def appendCode : XcExprObj → XmcWriter → XmcWriter
  | nullExpr, w => w
  | expr e, w => e.appendCode w

def isAssignExpr : Option XcExprObj → Bool
  | some (expr e) => e.isAssignExpr
  | _ => false

end XcExprObj

inductive XcStmtObj
  | exprStmt (expr : Option XcExprObj)
  | compStmt (stmtAndDeclList : List XcStmtObj)
  | ifStmt (condExpr : Option XcExprObj) (thenStmt elseStmt : Option XcStmtObj)
  | whileStmt (condExpr : Option XcExprObj) (stmt : Option XcStmtObj)
  | doStmt (condExpr : Option XcExprObj) (stmt : Option XcStmtObj)
  | forStmt (initDecls condExpr incrExpr : Option XcExprObj) (stmt : Option XcStmtObj)
  | switchStmt (condExpr : Option XcExprObj) (stmt : Option XcStmtObj)
  | returnStmt (expr : Option XcExprObj)
  | continueStmt
  | breakStmt
  | defaultLabel
  | caseLabel (value : Option XcExprObj)
  | label (name : Ident)
  | gotoStmt (addr : Option Ident)

inductive XcNode
  | exprObj (e : XcExprObj)
  | stmtObj (s : XcStmtObj)
  | nameObj (x : Ident)

namespace XcStmtObj

def isLabel : XcStmtObj → Bool
  | caseLabel _ | label _ | defaultLabel => true
  | _ => false

/-- `addChild`; `none` is the `IllegalArgumentException`. -/
def addChild : XcStmtObj → XcNode → Option XcStmtObj
  | exprStmt _, .exprObj e => some (exprStmt (some e))
  | compStmt ss, .stmtObj s => some (compStmt (ss ++ [s]))
  | ifStmt _ t e, .exprObj x => some (ifStmt (some x) t e)
  | ifStmt c none e, .stmtObj s => some (ifStmt c (some s) e)
  | ifStmt c (some t) none, .stmtObj s => some (ifStmt c (some t) (some s))
  | whileStmt _ b, .exprObj x => some (whileStmt (some x) b)
  | whileStmt c _, .stmtObj s => some (whileStmt c (some s))
  | doStmt _ b, .exprObj x => some (doStmt (some x) b)
  | doStmt c _, .stmtObj s => some (doStmt c (some s))
  | forStmt i c r _, .stmtObj s => some (forStmt i c r (some s))
  | forStmt none c r b, .exprObj x => some (forStmt (some x) c r b)
  | forStmt (some i) none r b, .exprObj x => some (forStmt (some i) (some x) r b)
  | forStmt (some i) (some c) none b, .exprObj x => some (forStmt (some i) (some c) (some x) b)
  | switchStmt _ b, .exprObj x => some (switchStmt (some x) b)
  | switchStmt c _, .stmtObj s => some (switchStmt c (some s))
  | returnStmt _, .exprObj x => some (returnStmt (some x))
  | caseLabel _, .exprObj x => some (caseLabel (some x))
  | gotoStmt _, .nameObj x => some (gotoStmt (some x))
  | _, _ => none

def addChildren (obj : XcStmtObj) (children : List XcNode) : Option XcStmtObj :=
  children.foldlM addChild obj

end XcStmtObj

/-! ## The visitors -/

/-- `enterNodesWithNull`, for an element that is there. -/
def Element.enterWithNull : Element → List XcNode
  | absent => []
  | empty => [.exprObj .nullExpr]
  | holds e => [.exprObj (.expr e)]

/-- `IterVisitor` enters without null. -/
def Element.enterIter : Element → List XcNode
  | absent => []
  | empty => []
  | holds e => [.exprObj (.expr e)]

def exprChild (e : Expr) : XcNode := .exprObj (.expr e)

mutual

def Statement.enter : Statement → Option XcStmtObj
  | .compoundStatement body => do
    (XcStmtObj.compStmt []).addChildren (← body.enter)
  | .exprStatement e => (XcStmtObj.exprStmt none).addChildren (e.map exprChild).toList
  | .ifStatement c t e => do
    let thenNodes ← t.enterThen
    let elseNodes ← e.enterElse
    (XcStmtObj.ifStmt none none none).addChildren (exprChild c :: thenNodes ++ elseNodes)
  | .whileStatement c body => do
    (XcStmtObj.whileStmt none none).addChildren (exprChild c :: (← body.enter))
  | .doStatement body c => do
    (XcStmtObj.doStmt none none).addChildren (exprChild c :: (← body.enter))
  | .forStatement i c r body => do
    (XcStmtObj.forStmt none none none none).addChildren
      (i.enterWithNull ++ c.enterWithNull ++ r.enterIter ++ (← body.enter))
  | .switchStatement v body => do
    (XcStmtObj.switchStmt none none).addChildren (exprChild v :: (← body.enter))
  | .caseLabel v => (XcStmtObj.caseLabel none).addChildren [exprChild v]
  | .defaultLabel => some .defaultLabel
  | .statementLabel x => some (.label x)
  | .gotoStatement x => (XcStmtObj.gotoStmt none).addChildren [.nameObj x]
  | .breakStatement => some .breakStmt
  | .continueStatement => some .continueStmt
  | .returnStatement none => (XcStmtObj.returnStmt none).addChildren [.exprObj .nullExpr]
  | .returnStatement (some e) => (XcStmtObj.returnStmt none).addChildren [exprChild e]

def Statements.enter : Statements → Option (List XcNode)
  | .nil => some []
  | .cons s ss => do
    let obj ← s.enter
    let objs ← ss.enter
    some (.stmtObj obj :: objs)

/-- `BodyVisitor` under a parent that is no compound statement. -/
def Body.enter : Body → Option (List XcNode)
  | .absent => some []
  | .holds ss => do
    let obj ← (XcStmtObj.compStmt []).addChildren (← ss.enter)
    some [.stmtObj obj]

/-- `ThenVisitor` -/
def Part.enterThen : Part → Option (List XcNode)
  | .absent => some []
  | .empty => some [.stmtObj (.compStmt [])]
  | .holds s => do
    let obj ← s.enter
    some [.stmtObj obj]

/-- `ElseVisitor` -/
def Part.enterElse : Part → Option (List XcNode)
  | .absent => some []
  | .empty => some []
  | .holds s => do
    let obj ← s.enter
    some [.stmtObj obj]

end

/-! ## The text -/

/-- `add`, `addSpc` and `addBrace` of an expression that may be missing. -/
def addExpr (e : Option XcExprObj) (w : XmcWriter) : XmcWriter :=
  match e with
  | none => w
  | some e => e.appendCode w

def addBraceExpr (e : Option XcExprObj) (w : XmcWriter) : XmcWriter :=
  match e with
  | none => w
  | some e => w.addBrace e.appendCode

/-- What `f` writes, between `(` and `)` where `braced` is set. -/
def addBraced (braced : Bool) (f : XmcWriter → XmcWriter) (w : XmcWriter) : XmcWriter :=
  if braced then (f (w.add ['('])).add [')'] else f w

/-- The condition of `if`, `while` and `do`. -/
def addCondition (cond : Option XcExprObj) (w : XmcWriter) : XmcWriter :=
  addBraced (XcExprObj.isAssignExpr cond) (addBraceExpr cond) w

/-- The three expressions of a `for`. -/
def addForControl (init cond incr : Option XcExprObj) (w : XmcWriter) : XmcWriter :=
  let w := (addExpr init (w.add "for(".toList).spc).add [';']
  let w := addBraced (XcExprObj.isAssignExpr cond) (fun w => addExpr cond w.spc) w
  (addExpr incr (w.add [';']).spc).add [')']

namespace XcStmtObj

mutual

def appendCode : XcStmtObj → XmcWriter → XmcWriter
  | exprStmt e, w => (addExpr e w).eos
  | compStmt ss, w => ((appendContent ss (w.add ['{']).lf).add ['}']).lf
  | ifStmt c t e, w =>
    let w := appendStmt t (addCondition c (w.add "if".toList))
    match e with
    | some s => appendCode s (w.add "else ".toList)
    | none => w
  | whileStmt c b, w => appendStmt b (addCondition c (w.add "while".toList))
  | doStmt c b, w =>
    let w := w.add "do".toList
    let w := match b with
      | some s => appendCode s w.spc
      | none => w.add [';']
    (addCondition c (w.addSpc "while".toList)).eos
  | forStmt i c r b, w => appendStmt b (addForControl i c r w)
  | switchStmt c b, w =>
    let w := addBraceExpr c (w.add "switch".toList)
    match b with
    | some s => appendCode s w
    | none => w
  | returnStmt e, w =>
    let w := w.add "return".toList
    match e with
    | some e => (e.appendCode (w.add [' '])).eos
    | none => w.eos
  | continueStmt, w => (w.add "continue".toList).eos
  | breakStmt, w => (w.add "break".toList).eos
  | defaultLabel, w => w.add "default:".toList
  | caseLabel v, w => (addExpr v (w.add "case ".toList)).add [':']
  | label x, w => (w.add x.code).addSpc [':']
  | gotoStmt x, w =>
    let w := w.add "goto ".toList
    (match x with
      | some x => w.add x.code
      | none => w).eos

/-- The statement of an `if`, a `while` or a `for`. -/
def appendStmt : Option XcStmtObj → XmcWriter → XmcWriter
  | some s, w => appendCode s w.spc
  | none, w => w.eos

/-- `appendContent`; a label at the end is given an empty statement. -/
def appendContent : List XcStmtObj → XmcWriter → XmcWriter
  | [], w => w
  | [s], w =>
    let w := (appendCode s w).noLfOrLf
    if s.isLabel then w.eos else w
  | s :: ss, w => appendContent ss (appendCode s w).noLfOrLf

end

end XcStmtObj

/-- The text of a statement. -/
def Statement.text (s : Statement) : Option (List Char) :=
  s.enter.map fun obj => (obj.appendCode {}).out

end OmniCompiler.CBack
