import OmniCompiler.CBack.StatementGrammar

/-!
# The text of a statement

The tokens that the back end writes for a statement. The children of an `if` or a `for` object are
told apart by their number, so an element that is missing must not stand before one that is there,
and the `then` part of an `if` that has an `else` part must not end with an `if` that has none.
-/
namespace OmniCompiler.CBack

open XmcWriter

/-! ## Tokens -/

def Expr.condTokens (e : Expr) : List Token :=
  if e.isAssignExpr then .punct .lparen :: e.tokens ++ [.punct .rparen] else e.tokens

def exprTokens (e : Option Expr) : List Token := e.elim [] Expr.tokens

def condTokens (e : Option Expr) : List Token := e.elim [] Expr.condTokens

mutual

def Statement.tokens : Statement → List Token
  | .compoundStatement ss => .punct .lbrace :: ss.tokens ++ [.punct .rbrace]
  | .exprStatement e => exprTokens e ++ [.punct .semi]
  | .ifStatement c t e =>
    .keyword .ifWord :: .punct .lparen :: c.condTokens ++ .punct .rparen :: t.thenTokens ++
      e.elseTokens
  | .whileStatement c b =>
    .keyword .whileWord :: .punct .lparen :: c.condTokens ++ .punct .rparen :: b.tokens
  | .doStatement b c =>
    .keyword .doWord :: b.tokens ++ .keyword .whileWord :: .punct .lparen :: c.condTokens ++
      [.punct .rparen, .punct .semi]
  | .forStatement i c r b =>
    .keyword .forWord :: .punct .lparen :: exprTokens i.expr? ++ .punct .semi ::
      condTokens c.expr? ++ .punct .semi :: exprTokens r.expr? ++ .punct .rparen :: b.tokens
  | .switchStatement v b =>
    .keyword .switchWord :: .punct .lparen :: v.tokens ++ .punct .rparen :: b.tokens
  | .caseLabel v => .keyword .caseWord :: v.tokens ++ [.punct .colon]
  | .defaultLabel => [.keyword .defaultWord, .punct .colon]
  | .statementLabel x => [.ident x, .punct .colon]
  | .gotoStatement x => [.keyword .gotoWord, .ident x, .punct .semi]
  | .breakStatement => [.keyword .breakWord, .punct .semi]
  | .continueStatement => [.keyword .continueWord, .punct .semi]
  | .returnStatement e => .keyword .returnWord :: exprTokens e ++ [.punct .semi]

def Statements.tokens : Statements → List Token
  | .nil => []
  | .cons s .nil => s.tokens ++ if s.isLabel then [.punct .semi] else []
  | .cons s ss => s.tokens ++ ss.tokens

def Body.tokens : Body → List Token
  | .absent => [.punct .semi]
  | .holds ss => .punct .lbrace :: ss.tokens ++ [.punct .rbrace]

def Part.thenTokens : Part → List Token
  | .absent => [.punct .semi]
  | .empty => [.punct .lbrace, .punct .rbrace]
  | .holds s => s.tokens

def Part.elseTokens : Part → List Token
  | .holds s => .keyword .elseWord :: s.tokens
  | _ => []

end

attribute [simp] Statement.tokens Part.elseTokens

/-! ## Statements whose parts keep their places -/

def Element.isPresent : Element → Bool
  | absent => false
  | _ => true

/-- No element of a `for` that holds an expression follows a missing `init` or `condition`. -/
def inPlace (init condition iter : Element) : Bool :=
  (init.isPresent || (condition.expr?.isNone && iter.expr?.isNone)) &&
    (condition.isPresent || iter.expr?.isNone)

mutual

/-- An `else` after the statement would belong to an `if` in it. -/
def Statement.takesElse : Statement → Bool
  | .ifStatement _ _ e => e.takesElse
  | _ => false

def Part.takesElse : Part → Bool
  | .holds s => s.takesElse
  | _ => true

end

def Body.isPresent : Body → Bool
  | absent => false
  | holds _ => true

/-- A `then` part after which an `else` belongs to its own `if`. -/
def Part.closed : Part → Bool
  | absent => false
  | empty => true
  | holds s => !s.takesElse

mutual

/-- The parts of the statement keep their places in the text. -/
def Statement.plain : Statement → Bool
  | .compoundStatement ss => ss.plain
  | .ifStatement _ t e =>
    match e with
    | .holds s => t.closed && t.plain && !s.isLabel && s.plain
    | _ => t.plain
  | .whileStatement _ b => b.plain
  | .doStatement b _ => b.plain
  | .forStatement i c r b => inPlace i c r && b.plain
  | .switchStatement _ b => b.isPresent && b.plain
  | _ => true

def Statements.plain : Statements → Bool
  | .nil => true
  | .cons s ss => s.plain && ss.plain

def Body.plain : Body → Bool
  | .absent => true
  | .holds ss => ss.plain

def Part.plain : Part → Bool
  | .holds s => !s.isLabel && s.plain
  | _ => true

end

/-! ## The pieces of a statement -/

section Pieces

variable {w : XmcWriter} {ts : List Token}

theorem wrote_word (h : w.Wrote ts) (hw : w.isOpen = true) (k : Keyword) :
    (w.add k.code).Wrote (ts ++ [.keyword k]) := h.print_open hw (.keyword k)

theorem wrote_word_space (h : w.Wrote ts) (hw : w.isOpen = true) (k : Keyword) :
    (w.add (k.code ++ [' '])).Wrote (ts ++ [.keyword k]) := by
  rw [add, print_append]
  exact (wrote_word h hw k).add_space

theorem isOpen_add_space (s : List Char) (w : XmcWriter) : (w.add (s ++ [' '])).isOpen = true := by
  rw [add, print_append]
  rfl

theorem wrote_addExpr {o : Option XcExprObj} {e : Option Expr} (he : o.bind XcExprObj.expr? = e)
    (h : w.Wrote ts) (hw : w.isOpen = true) : (addExpr o w).Wrote (ts ++ exprTokens e) := by
  match o, he with
  | none, rfl | some .nullExpr, rfl =>
    show w.Wrote (ts ++ [])
    rwa [List.append_nil]
  | some (.expr e), rfl => exact e.writes w ts h hw

theorem writes_addBraceExpr (e : Expr) :
    Writes (addBraceExpr (some (.expr e))) (.punct .lparen :: e.tokens ++ [.punct .rparen]) :=
  e.writes.addBrace

/-- Where a function writes `us` after any text, it writes them in parentheses when `braced` is
set. -/
theorem writes_addBraced {f : XmcWriter → XmcWriter} {us : List Token} (hf : Writes f us)
    (braced : Bool) : Writes (addBraced braced f)
      (if braced then .punct .lparen :: us ++ [.punct .rparen] else us) := by
  intro w ts h
  cases braced with
  | true =>
    have hclose := (hf _ _ (h.add_separator (p := .lparen) rfl)).add_separator (p := .rparen) rfl
    rw [List.append_assoc, List.append_assoc] at hclose
    exact hclose
  | false => exact hf w ts h

theorem writes_addCondition (e : Expr) :
    Writes (addCondition (some (.expr e)))
      (.punct .lparen :: e.condTokens ++ [.punct .rparen]) := by
  have h := writes_addBraced (writes_addBraceExpr e) e.isAssignExpr
  show Writes (addBraced e.isAssignExpr (addBraceExpr (some (.expr e)))) _
  unfold Expr.condTokens
  cases ha : e.isAssignExpr <;> simpa [ha] using h

/-- The elements of a `for` that keep their places are read as its three expressions. -/
theorem addChildren_for {i c r : Element} (h : inPlace i c r = true) :
    ∃ oi oc or : Option XcExprObj, oi.bind XcExprObj.expr? = i.expr? ∧
      oc.bind XcExprObj.expr? = c.expr? ∧ or.bind XcExprObj.expr? = r.expr? ∧
      ∀ nodes, (XcStmtObj.forStmt none none none none).addChildren
          (i.enterWithNull ++ c.enterWithNull ++ r.enterIter ++ nodes) =
        (XcStmtObj.forStmt oi oc or none).addChildren nodes := by
  cases i <;> cases c <;> cases r <;> first
    | exact ⟨_, _, _, rfl, rfl, rfl, fun _ => rfl⟩
    | cases h

theorem writes_forCondition {o : Option XcExprObj} {e : Option Expr}
    (he : o.bind XcExprObj.expr? = e) :
    Writes (addBraced (XcExprObj.isAssignExpr o) fun w => addExpr o w.spc) (condTokens e) := by
  have hf : Writes (fun w => addExpr o w.spc) (exprTokens e) := fun w ts h =>
    wrote_addExpr he h.spc (isOpen_spc w)
  have h := writes_addBraced hf (XcExprObj.isAssignExpr o)
  match o, he with
  | none, rfl | some .nullExpr, rfl | some (.expr e), rfl => exact h

theorem wrote_addForControl {oi oc or : Option XcExprObj} {i c r : Option Expr}
    (hi : oi.bind XcExprObj.expr? = i) (hc : oc.bind XcExprObj.expr? = c)
    (hr : or.bind XcExprObj.expr? = r) (h : w.Wrote ts) (hw : w.isOpen = true) :
    (addForControl oi oc or w).Wrote (ts ++ (.keyword .forWord :: .punct .lparen :: exprTokens i ++
      .punct .semi :: condTokens c ++ .punct .semi :: exprTokens r ++ [.punct .rparen])) := by
  have hfor : (w.add "for(".toList).Wrote (ts ++ [.keyword .forWord] ++ [.punct .lparen]) := by
    rw [show "for(".toList = Keyword.code .forWord ++ Punct.code .lparen from rfl, add,
      print_append]
    exact (wrote_word h hw .forWord).add_separator rfl
  have hinit := (wrote_addExpr hi hfor.spc (isOpen_spc _)).add_separator (p := .semi) rfl
  have hcond := (writes_forCondition hc _ _ hinit).add_separator (p := .semi) rfl
  have hincr := (wrote_addExpr hr hcond.spc (isOpen_spc _)).add_separator (p := .rparen) rfl
  simp only [List.append_assoc, List.cons_append, List.nil_append] at hincr ⊢
  exact hincr

end Pieces

/-! ## The text of a plain statement -/

/-- The object writes the statement where no space is needed, and ends the line unless it is a
label. -/
structure Prints (obj : XcStmtObj) (s : Statement) : Prop where
  isLabel : obj.isLabel = s.isLabel
  writes : WritesOpen obj.appendCode s.tokens
  isOpen : s.isLabel = false → ∀ w, (obj.appendCode w).isOpen = true

/-- What a `body` element adds to its parent: nothing, or a compound statement. -/
def PrintsBody : Option XcStmtObj → Body → Prop
  | none, .absent => True
  | some obj, b => b.isPresent = true ∧ Writes obj.appendCode b.tokens ∧
      ∀ w, (obj.appendCode w).isOpen = true
  | none, .holds _ => False

/-- The statement of a `while`, a `for` or an `if`. -/
def PrintsStmt (obj : Option XcStmtObj) (us : List Token) : Prop :=
  Writes (XcStmtObj.appendStmt obj) us ∧ ∀ w, (XcStmtObj.appendStmt obj w).isOpen = true

theorem PrintsBody.stmt {obj : Option XcStmtObj} {b : Body} (h : PrintsBody obj b) :
    PrintsStmt obj b.tokens := by
  match obj, b, h with
  | none, .absent, _ => exact ⟨fun _ _ h => h.eos, fun _ => rfl⟩
  | some obj, b, ⟨_, hw, ho⟩ => exact ⟨fun w ts h => hw _ _ h.spc, fun w => ho _⟩

theorem PrintsBody.do {b : Body} {w : XmcWriter} {ts : List Token} (ht : w.Wrote ts)
    (obj : Option XcStmtObj) : PrintsBody obj b →
      XmcWriter.Wrote (match obj with
        | some s => s.appendCode w.spc
        | none => w.add [';']) (ts ++ b.tokens) := by
  match obj, b with
  | none, .absent => exact fun _ => ht.add_separator (p := .semi) rfl
  | some obj, b => exact fun h => h.2.1 _ _ ht.spc
  | none, .holds _ => exact False.elim

theorem Prints.stmt {obj : XcStmtObj} {s : Statement} (h : Prints obj s) (hs : s.isLabel = false) :
    PrintsStmt (some obj) s.tokens :=
  ⟨fun w _ ht => h.writes _ _ ht.spc (isOpen_spc w), fun _ => h.isOpen hs _⟩

def PrintsContent (objs : List XcStmtObj) (ss : Statements) : Prop :=
  WritesOpen (XcStmtObj.appendContent objs) ss.tokens

theorem writes_compStmt {objs : List XcStmtObj} {us : List Token}
    (h : WritesOpen (XcStmtObj.appendContent objs) us) :
    Writes (XcStmtObj.compStmt objs).appendCode (.punct .lbrace :: us ++ [.punct .rbrace]) := by
  intro w ts ht
  have hopen := (ht.add_separator (p := .lbrace) rfl).lf
  have hclose := ((h _ _ hopen rfl).add_separator (p := .rbrace) rfl).lf
  rw [List.append_assoc, List.append_assoc] at hclose
  exact hclose

theorem PrintsContent.cons {obj : XcStmtObj} {s : Statement} {objs : List XcStmtObj}
    {ss : Statements} (hss : PrintsContent objs ss) (h : Prints obj s)
    (hnil : objs = [] ↔ ss = .nil) : PrintsContent (obj :: objs) (.cons s ss) := by
  intro w ts ht hw
  have hline := (h.writes w ts ht hw).noLfOrLf
  match objs, ss, hnil with
  | [], .nil, _ =>
    show XmcWriter.Wrote (if obj.isLabel then _ else _) (ts ++ (s.tokens ++ _))
    rw [h.isLabel]
    cases s.isLabel with
    | true => simpa using hline.eos
    | false => simpa using hline
  | o :: os, .cons t tt, _ =>
    have hrest := hss _ _ hline (isOpen_noLfOrLf _)
    rw [List.append_assoc] at hrest
    exact hrest
  | [], .cons t tt, hnil => cases hnil.1 rfl
  | o :: os, .nil, hnil => cases hnil.2 rfl

theorem addChildren_compStmt (objs acc : List XcStmtObj) :
    (XcStmtObj.compStmt acc).addChildren (objs.map .stmtObj) = some (.compStmt (acc ++ objs)) := by
  induction objs generalizing acc with
  | nil => simp [XcStmtObj.addChildren]
  | cons o objs ih =>
    have hstep := ih (acc ++ [o])
    rw [List.append_assoc] at hstep
    exact hstep

/-! ### One statement -/

section Statement

variable {obj : XcStmtObj} {objs : List XcStmtObj} {part body : Option XcStmtObj}

theorem prints_compound {ss : Statements} (h : PrintsContent objs ss) :
    Prints (.compStmt objs) (.compoundStatement ss) where
  isLabel := rfl
  writes w ts ht _ := writes_compStmt h w ts ht
  isOpen _ _ := rfl

theorem prints_expr (e : Option Expr) :
    Prints (.exprStmt (e.map .expr)) (.exprStatement e) where
  isLabel := rfl
  writes w ts ht hw := by
    have hexpr := (@wrote_addExpr _ _ (e.map .expr) e (by cases e <;> rfl) ht hw).eos
    rw [List.append_assoc] at hexpr
    exact hexpr
  isOpen _ _ := rfl

theorem wrote_if {w : XmcWriter} {ts : List Token} (c : Expr) (ht : w.Wrote ts)
    (hw : w.isOpen = true) :
    (addCondition (some (.expr c)) (w.add Keyword.ifWord.code)).Wrote
      (ts ++ [.keyword .ifWord] ++ (.punct .lparen :: c.condTokens ++ [.punct .rparen])) :=
  writes_addCondition c _ _ (wrote_word ht hw .ifWord)

/-- An `else` part that is absent or empty is not written. -/
theorem prints_if (c : Expr) {t e : Part} (hthen : PrintsStmt part t.thenTokens)
    (he : e.elseTokens = []) :
    Prints (.ifStmt (some (.expr c)) part none) (.ifStatement c t e) where
  isLabel := rfl
  writes w ts ht hw := by
    have hstmt := hthen.1 _ _ (wrote_if c ht hw)
    rw [Statement.tokens, he]
    simp only [List.append_assoc, List.cons_append, List.nil_append, List.append_nil] at hstmt ⊢
    exact hstmt
  isOpen _ w := hthen.2 _

theorem prints_ifElse (c : Expr) {t : Part} {s : Statement}
    (hthen : PrintsStmt part t.thenTokens) (hpart : part.isSome = true) (h : Prints obj s)
    (hlabel : s.isLabel = false) :
    Prints (.ifStmt (some (.expr c)) part (some obj)) (.ifStatement c t (.holds s)) := by
  obtain ⟨objT, rfl⟩ := Option.isSome_iff_exists.mp hpart
  refine ⟨rfl, fun w ts ht hw => ?_, fun _ w => h.isOpen hlabel _⟩
  have hstmt := hthen.1 _ _ (wrote_if c ht hw)
  have helse := h.writes _ _ (wrote_word_space hstmt (hthen.2 _) .elseWord)
    (isOpen_add_space _ _)
  simp only [Statement.tokens, Part.elseTokens, List.append_assoc, List.cons_append,
    List.nil_append] at helse ⊢
  exact helse

theorem prints_while (c : Expr) {b : Body} (h : PrintsBody body b) :
    Prints (.whileStmt (some (.expr c)) body) (.whileStatement c b) where
  isLabel := rfl
  writes w ts ht hw := by
    have hstmt := h.stmt.1 _ _ (writes_addCondition c _ _ (wrote_word ht hw .whileWord))
    simp only [Statement.tokens, List.append_assoc, List.cons_append, List.nil_append] at hstmt ⊢
    exact hstmt
  isOpen _ w := h.stmt.2 _

theorem prints_do (c : Expr) {b : Body} (h : PrintsBody body b) :
    Prints (.doStmt (some (.expr c)) body) (.doStatement b c) where
  isLabel := rfl
  writes w ts ht hw := by
    have hstmt := PrintsBody.do (wrote_word ht hw .doWord) body h
    have hcond := (writes_addCondition c _ _ (hstmt.addSpc (.keyword .whileWord))).eos
    simp only [Statement.tokens, List.append_assoc, List.cons_append, List.nil_append] at hcond ⊢
    cases body <;> exact hcond
  isOpen _ w := by cases body <;> rfl

theorem prints_for {oi oc or : Option XcExprObj} {i c r : Element} {b : Body}
    (hi : oi.bind XcExprObj.expr? = i.expr?) (hc : oc.bind XcExprObj.expr? = c.expr?)
    (hr : or.bind XcExprObj.expr? = r.expr?) (h : PrintsBody body b) :
    Prints (.forStmt oi oc or body) (.forStatement i c r b) where
  isLabel := rfl
  writes w ts ht hw := by
    have hstmt := h.stmt.1 _ _ (wrote_addForControl hi hc hr ht hw)
    simp only [Statement.tokens, List.append_assoc, List.cons_append, List.nil_append] at hstmt ⊢
    exact hstmt
  isOpen _ w := h.stmt.2 _

theorem prints_switch (v : Expr) {b : Body} (h : PrintsBody (some obj) b) :
    Prints (.switchStmt (some (.expr v)) (some obj)) (.switchStatement v b) where
  isLabel := rfl
  writes w ts ht hw := by
    have hstmt := h.2.1 _ _ (writes_addBraceExpr v _ _ (wrote_word ht hw .switchWord))
    simp only [Statement.tokens, List.append_assoc, List.cons_append, List.nil_append] at hstmt ⊢
    exact hstmt
  isOpen _ w := h.2.2 _

theorem prints_caseLabel (v : Expr) :
    Prints (.caseLabel (some (.expr v))) (.caseLabel v) where
  isLabel := rfl
  writes w ts ht hw := by
    have hvalue := v.writes _ _ (wrote_word_space ht hw .caseWord) (isOpen_add_space _ _)
    have hcolon := hvalue.add_separator (p := .colon) rfl
    rw [List.append_assoc, List.append_assoc] at hcolon
    exact hcolon
  isOpen h := by cases h

theorem prints_defaultLabel : Prints .defaultLabel .defaultLabel where
  isLabel := rfl
  writes w ts ht hw := by
    have hcolon := (wrote_word ht hw .defaultWord).add_separator (p := .colon) rfl
    rw [List.append_assoc] at hcolon
    show XmcWriter.Wrote (w.add (Keyword.code .defaultWord ++ Punct.code .colon)) _
    rw [add, print_append]
    exact hcolon
  isOpen h := by cases h

theorem prints_label (x : Ident) : Prints (.label x) (.statementLabel x) where
  isLabel := rfl
  writes w ts ht hw := by
    have hcolon := (ht.print_open hw (.ident x)).addSpc (.punct .colon)
    rw [List.append_assoc] at hcolon
    exact hcolon
  isOpen h := by cases h

theorem prints_goto (x : Ident) : Prints (.gotoStmt (some x)) (.gotoStatement x) where
  isLabel := rfl
  writes w ts ht hw := by
    have hname := (wrote_word_space ht hw .gotoWord).print_open (isOpen_add_space _ _) (.ident x)
    have heos := hname.eos
    rw [List.append_assoc, List.append_assoc] at heos
    exact heos
  isOpen _ _ := rfl

theorem prints_break : Prints .breakStmt .breakStatement where
  isLabel := rfl
  writes w ts ht hw := by
    have heos := (wrote_word ht hw .breakWord).eos
    rw [List.append_assoc] at heos
    exact heos
  isOpen _ _ := rfl

theorem prints_continue : Prints .continueStmt .continueStatement where
  isLabel := rfl
  writes w ts ht hw := by
    have heos := (wrote_word ht hw .continueWord).eos
    rw [List.append_assoc] at heos
    exact heos
  isOpen _ _ := rfl

theorem prints_return (e : Option Expr) :
    Prints (.returnStmt (some (e.elim .nullExpr .expr))) (.returnStatement e) where
  isLabel := rfl
  writes w ts ht hw := by
    have hexpr := (@wrote_addExpr _ _ (some (e.elim .nullExpr .expr)) e (by cases e <;> rfl)
      (wrote_word ht hw .returnWord).add_space rfl).eos
    rw [List.append_assoc, List.append_assoc] at hexpr
    exact hexpr
  isOpen _ _ := rfl

end Statement

/-! ### All statements -/

mutual

theorem Statement.prints (s : Statement) (hp : s.plain = true) :
    ∃ obj, s.enter = some obj ∧ Prints obj s := by
  match s, hp with
  | .compoundStatement ss, hp =>
    obtain ⟨objs, henter, hcontent, -⟩ := ss.prints hp
    exact ⟨_, by simp [Statement.enter, henter, addChildren_compStmt], prints_compound hcontent⟩
  | .exprStatement e, _ => exact ⟨_, by cases e <;> rfl, prints_expr e⟩
  | .ifStatement c t e, hp =>
    obtain ⟨objT, henterT, hthen, hnone⟩ := t.printsThen (by cases e <;> simp_all [Statement.plain])
    match e, hp with
    | .absent, _ | .empty, _ =>
      refine ⟨.ifStmt (some (.expr c)) objT none, ?_, prints_if c hthen rfl⟩
      cases objT <;> simp [Statement.enter, henterT, Part.enterElse] <;> rfl
    | .holds s, hp =>
      simp only [Statement.plain, Bool.and_eq_true, Bool.not_eq_true'] at hp
      obtain ⟨⟨⟨hclosed, -⟩, hlabel⟩, hs⟩ := hp
      obtain ⟨obj, henter, hprints⟩ := s.prints hs
      -- the `then` part is there, so the `else` part is the second statement of the object
      obtain ⟨objT, rfl⟩ : ∃ o, objT = some o := by
        rw [← Option.ne_none_iff_exists']
        intro habsent
        rw [hnone habsent] at hclosed
        cases hclosed
      refine ⟨.ifStmt (some (.expr c)) (some objT) (some obj), ?_,
        prints_ifElse c hthen rfl hprints hlabel⟩
      simp [Statement.enter, henterT, Part.enterElse, henter]
      rfl
  | .whileStatement c b, hp =>
    obtain ⟨obj, henter, hbody⟩ := b.prints hp
    refine ⟨.whileStmt (some (.expr c)) obj, ?_, prints_while c hbody⟩
    cases obj <;> simp [Statement.enter, henter] <;> rfl
  | .doStatement b c, hp =>
    obtain ⟨obj, henter, hbody⟩ := b.prints hp
    refine ⟨.doStmt (some (.expr c)) obj, ?_, prints_do c hbody⟩
    cases obj <;> simp [Statement.enter, henter] <;> rfl
  | .forStatement i c r b, hp =>
    rw [Statement.plain, Bool.and_eq_true] at hp
    obtain ⟨obj, henter, hbody⟩ := b.prints hp.2
    obtain ⟨oi, oc, or, hi, hc, hr, hadd⟩ := addChildren_for hp.1
    refine ⟨.forStmt oi oc or obj, ?_, prints_for hi hc hr hbody⟩
    simp only [Statement.enter, henter, Option.bind_eq_bind, Option.bind_some, hadd]
    cases obj <;> rfl
  | .switchStatement v b, hp =>
    rw [Statement.plain, Bool.and_eq_true] at hp
    obtain ⟨obj, henter, hbody⟩ := b.prints hp.2
    cases obj with
    | none =>
      cases b with
      | absent => cases hp.1
      | holds ss => cases hbody
    | some obj =>
      refine ⟨.switchStmt (some (.expr v)) (some obj), ?_, prints_switch v hbody⟩
      simp [Statement.enter, henter]
      rfl
  | .caseLabel v, _ => exact ⟨_, rfl, prints_caseLabel v⟩
  | .defaultLabel, _ => exact ⟨_, rfl, prints_defaultLabel⟩
  | .statementLabel x, _ => exact ⟨_, rfl, prints_label x⟩
  | .gotoStatement x, _ => exact ⟨_, rfl, prints_goto x⟩
  | .breakStatement, _ => exact ⟨_, rfl, prints_break⟩
  | .continueStatement, _ => exact ⟨_, rfl, prints_continue⟩
  | .returnStatement e, _ => exact ⟨_, by cases e <;> rfl, prints_return e⟩

theorem Statements.prints (ss : Statements) (hp : ss.plain = true) :
    ∃ objs : List XcStmtObj, ss.enter = some (objs.map .stmtObj) ∧ PrintsContent objs ss ∧
      (objs = [] ↔ ss = .nil) := by
  match ss, hp with
  | .nil, _ =>
    exact ⟨[], rfl, fun w ts ht _ => by rwa [Statements.tokens, List.append_nil], by simp⟩
  | .cons s ss, hp =>
    rw [Statements.plain, Bool.and_eq_true] at hp
    obtain ⟨obj, henter, hprints⟩ := s.prints hp.1
    obtain ⟨objs, hrest, hcontent, hnil⟩ := ss.prints hp.2
    exact ⟨obj :: objs, by simp [Statements.enter, henter, hrest],
      hcontent.cons hprints hnil, by simp⟩

theorem Body.prints (b : Body) (hp : b.plain = true) :
    ∃ obj : Option XcStmtObj, b.enter = some (obj.toList.map .stmtObj) ∧ PrintsBody obj b := by
  match b, hp with
  | .absent, _ => exact ⟨none, rfl, trivial⟩
  | .holds ss, hp =>
    obtain ⟨objs, henter, hcontent, -⟩ := ss.prints hp
    refine ⟨some (.compStmt objs), ?_, rfl, writes_compStmt hcontent, fun _ => rfl⟩
    simp [Body.enter, henter, addChildren_compStmt]

theorem Part.printsThen (t : Part) (hp : t.plain = true) :
    ∃ obj : Option XcStmtObj, t.enterThen = some (obj.toList.map .stmtObj) ∧
      PrintsStmt obj t.thenTokens ∧ (obj = none → t = .absent) := by
  match t, hp with
  | .absent, _ => exact ⟨none, rfl, ⟨fun _ _ h => h.eos, fun _ => rfl⟩, fun _ => rfl⟩
  | .empty, _ =>
    refine ⟨some (.compStmt []), rfl, ⟨fun w ts ht => ?_, fun _ => rfl⟩, fun h => by cases h⟩
    exact @writes_compStmt [] [] (fun w ts ht _ => by rwa [List.append_nil]) _ _ ht.spc
  | .holds s, hp =>
    simp only [Part.plain, Bool.and_eq_true, Bool.not_eq_true'] at hp
    obtain ⟨obj, henter, hprints⟩ := s.prints hp.2
    exact ⟨some obj, by simp [Part.enterThen, henter], hprints.stmt hp.1, fun h => by cases h⟩

end

theorem Statement.lex_text {s : Statement} (hp : s.plain = true) :
    ∃ text, s.text = some text ∧ lex text = some s.tokens := by
  obtain ⟨obj, henter, hprints⟩ := s.prints hp
  refine ⟨(obj.appendCode {}).out, by rw [Statement.text, henter, Option.map_some], ?_⟩
  exact (hprints.writes {} [] wrote_start rfl).lex_eq

end OmniCompiler.CBack
