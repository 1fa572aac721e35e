import OmniCompiler.CBack.Statements

/-!
# The statement grammar of C

A parser for statements by recursive descent, and the C tree that an XcodeML statement stands for.
An expression is read as a run of tokens up to the `)`, `;` or `:` that ends it, and parentheses
around a whole expression are not part of the tree.
-/
namespace OmniCompiler.CBack

/-! ## Expressions -/

abbrev CExpr := List Token

def inner? : List Token → Option (List Token)
  | .punct .lparen :: us =>
    if us.getLast? = some (.punct .rparen) ∧ Balanced us.dropLast then some us.dropLast else none
  | _ => none

def unparenFrom : ℕ → List Token → CExpr
  | 0, us => us
  | n + 1, us =>
    match inner? us with
    | some vs => unparenFrom n vs
    | none => us

def unparen (us : List Token) : CExpr := unparenFrom us.length us

def scanExpr : ℕ × ℕ → List Token → List Token × List Token
  | _, [] => ([], [])
  | st, t :: ts =>
    match nest st t with
    | none => ([], t :: ts)
    | some st => (t :: (scanExpr st ts).1, (scanExpr st ts).2)

def parseExpr? (ts : List Token) : Option CExpr × List Token :=
  match scanExpr (0, 0) ts with
  | ([], rest) => (none, rest)
  | (us, rest) => (some (unparen us), rest)

def parseExpr (ts : List Token) : Option (CExpr × List Token) :=
  match parseExpr? ts with
  | (some e, rest) => some (e, rest)
  | (none, _) => none

/-! ## Statements -/

mutual

inductive CStmt
  | compound (body : CStmts)
  | expr (e : Option CExpr)
  | ifThen (cond : CExpr) (thenStmt : CStmt)
  | ifElse (cond : CExpr) (thenStmt elseStmt : CStmt)
  | whileLoop (cond : CExpr) (body : CStmt)
  | doLoop (body : CStmt) (cond : CExpr)
  | forLoop (init cond incr : Option CExpr) (body : CStmt)
  | switch (value : CExpr) (body : CStmt)
  | caseLabel (value : CExpr) (s : CStmt)
  | defaultLabel (s : CStmt)
  | label (name : Ident) (s : CStmt)
  | goto (name : Ident)
  | break
  | continue
  | return (e : Option CExpr)
  deriving DecidableEq

inductive CStmts
  | nil
  | cons (s : CStmt) (ss : CStmts)
  deriving DecidableEq

end

def expect (p : Punct) : List Token → Option (List Token)
  | [] => none
  | t :: ts => if t = .punct p then some ts else none

def parseParenExpr (ts : List Token) : Option (CExpr × List Token) := do
  let ts ← expect .lparen ts
  let (e, ts) ← parseExpr ts
  let ts ← expect .rparen ts
  some (e, ts)

/-- What follows `for`, up to the statement. -/
def parseForControl (ts : List Token) :
    Option ((Option CExpr × Option CExpr × Option CExpr) × List Token) := do
  let ts ← expect .lparen ts
  let (init, ts) := parseExpr? ts
  let ts ← expect .semi ts
  let (cond, ts) := parseExpr? ts
  let ts ← expect .semi ts
  let (incr, ts) := parseExpr? ts
  let ts ← expect .rparen ts
  some ((init, cond, incr), ts)

def parseExprStmt (ts : List Token) : Option (CStmt × List Token) := do
  let (e, ts) := parseExpr? ts
  let ts ← expect .semi ts
  some (.expr e, ts)

mutual

/-- `fuel` bounds the depth of the statement. -/
def parseStmt : ℕ → List Token → Option (CStmt × List Token)
  | 0, _ => none
  | fuel + 1, ts =>
    match ts with
    | .punct .lbrace :: ts => do
      let (ss, ts) ← parseStmts fuel ts
      some (.compound ss, ts)
    | .keyword .ifWord :: ts => do
      let (c, ts) ← parseParenExpr ts
      let (t, ts) ← parseStmt fuel ts
      -- an `else` belongs to the nearest `if`
      match ts with
      | .keyword .elseWord :: ts =>
        let (e, ts) ← parseStmt fuel ts
        some (.ifElse c t e, ts)
      | _ => some (.ifThen c t, ts)
    | .keyword .whileWord :: ts => do
      let (c, ts) ← parseParenExpr ts
      let (s, ts) ← parseStmt fuel ts
      some (.whileLoop c s, ts)
    | .keyword .doWord :: ts => do
      let (s, ts) ← parseStmt fuel ts
      match ts with
      | .keyword .whileWord :: ts =>
        let (c, ts) ← parseParenExpr ts
        let ts ← expect .semi ts
        some (.doLoop s c, ts)
      | _ => none
    | .keyword .forWord :: ts => do
      let ((i, c, r), ts) ← parseForControl ts
      let (s, ts) ← parseStmt fuel ts
      some (.forLoop i c r s, ts)
    | .keyword .switchWord :: ts => do
      let (v, ts) ← parseParenExpr ts
      let (s, ts) ← parseStmt fuel ts
      some (.switch v s, ts)
    | .keyword .caseWord :: ts => do
      let (v, ts) ← parseExpr ts
      let ts ← expect .colon ts
      let (s, ts) ← parseStmt fuel ts
      some (.caseLabel v s, ts)
    | .keyword .defaultWord :: ts => do
      let ts ← expect .colon ts
      let (s, ts) ← parseStmt fuel ts
      some (.defaultLabel s, ts)
    | .keyword .gotoWord :: .ident x :: ts => do
      let ts ← expect .semi ts
      some (.goto x, ts)
    | .keyword .breakWord :: ts => do
      let ts ← expect .semi ts
      some (.break, ts)
    | .keyword .continueWord :: ts => do
      let ts ← expect .semi ts
      some (.continue, ts)
    | .keyword .returnWord :: ts => do
      let (e, ts) := parseExpr? ts
      let ts ← expect .semi ts
      some (.return e, ts)
    | .ident x :: .punct .colon :: ts => do
      let (s, ts) ← parseStmt fuel ts
      some (.label x s, ts)
    | ts => parseExprStmt ts

def parseStmts : ℕ → List Token → Option (CStmts × List Token)
  | 0, _ => none
  | fuel + 1, ts =>
    match ts with
    | .punct .rbrace :: ts => some (.nil, ts)
    | ts => do
      let (s, ts) ← parseStmt fuel ts
      let (ss, ts) ← parseStmts fuel ts
      some (.cons s ss, ts)

end

/-- The statement that a whole text is. -/
def parse (text : List Char) : Option CStmt := do
  let ts ← lex text
  match parseStmt ts.length ts with
  | some (s, []) => some s
  | _ => none

/-! ## The trees that XcodeML statements stand for -/

def Expr.tree (e : Expr) : CExpr := unparen e.tokens

def Element.tree (x : Element) : Option CExpr := x.expr?.map Expr.tree

def Statement.labelled : Statement → CStmt → CStmt
  | .caseLabel v, s => .caseLabel v.tree s
  | .defaultLabel, s => .defaultLabel s
  | .statementLabel x, s => .label x s
  | _, s => s

def Statement.labelsFirst (l : Statement) : CStmts → CStmts
  | .nil => .cons (l.labelled (.expr none)) .nil
  | .cons s ss => .cons (l.labelled s) ss

mutual

/-- `body` tells which statement the contents of a `body` or of an empty `then` are. -/
def Statement.tree (body : CStmts → CStmt) : Statement → CStmt
  | .compoundStatement ss => .compound (ss.tree body)
  | .exprStatement e => .expr (e.map Expr.tree)
  | .ifStatement c t e =>
    match e with
    | .holds s => .ifElse c.tree (t.tree body) (s.tree body)
    | _ => .ifThen c.tree (t.tree body)
  | .whileStatement c b => .whileLoop c.tree (b.tree body)
  | .doStatement b c => .doLoop (b.tree body) c.tree
  | .forStatement i c r b => .forLoop i.tree c.tree r.tree (b.tree body)
  | .switchStatement v b => .switch v.tree (b.tree body)
  | .caseLabel v => .caseLabel v.tree (.expr none)
  | .defaultLabel => .defaultLabel (.expr none)
  | .statementLabel x => .label x (.expr none)
  | .gotoStatement x => .goto x
  | .breakStatement => .break
  | .continueStatement => .continue
  | .returnStatement e => .return (e.map Expr.tree)

def Statements.tree (body : CStmts → CStmt) : Statements → CStmts
  | .nil => .nil
  | .cons s ss =>
    if s.isLabel then s.labelsFirst (ss.tree body) else .cons (s.tree body) (ss.tree body)

def Body.tree (body : CStmts → CStmt) : Body → CStmt
  | .absent => .expr none
  | .holds ss => body (ss.tree body)

def Part.tree (body : CStmts → CStmt) : Part → CStmt
  | .absent => .expr none
  | .empty => body .nil
  | .holds s => s.tree body

end

def bare : CStmts → CStmt
  | .nil => .expr none
  | .cons s .nil => s
  | ss => .compound ss

end OmniCompiler.CBack
