import OmniCompiler.CBack.StatementText

/-!
# Statements are read back from their text

The contents of a `body` element and an empty `then` element are written in braces, so they are read
as compound statements. A label is read with the statement that follows it.
-/
namespace OmniCompiler.CBack

/-! ## Expressions -/

theorem scanExpr_run {st st' : ℕ × ℕ} {us : List Token}
    (h : us.foldlM nest st = some st') {t : Token}
    (ht : nest st' t = none) (rest : List Token) :
    scanExpr st (us ++ t :: rest) = (us, t :: rest) := by
  induction us generalizing st with
  | nil =>
    obtain rfl := Option.some.inj h
    rw [List.nil_append, scanExpr, ht]
  | cons u us ih =>
    rw [List.foldlM_cons, Option.bind_eq_bind, Option.bind_eq_some_iff] at h
    obtain ⟨mid, hu, hus⟩ := h
    rw [List.cons_append, scanExpr, hu]
    simp only [ih hus]

theorem Role.nest_deeper {r : Role} {d q d' q' : ℕ} (h : r.nest d q = some (d', q')) (q₀ : ℕ) :
    r.nest (d + 1) q₀ = some (d' + 1, q₀) := by
  cases r <;> cases d <;> cases q <;> first
    | (obtain ⟨rfl, rfl⟩ := Prod.mk.inj (Option.some.inj h)
       rfl)
    | cases h

theorem foldlM_nest_deeper {us : List Token} {d q d' q' : ℕ}
    (h : us.foldlM nest (d, q) = some (d', q')) (q₀ : ℕ) :
    us.foldlM nest (d + 1, q₀) = some (d' + 1, q₀) := by
  induction us generalizing d q with
  | nil =>
    obtain ⟨rfl, rfl⟩ := Prod.mk.inj (Option.some.inj h)
    rfl
  | cons u us ih =>
    rw [List.foldlM_cons, Option.bind_eq_bind, Option.bind_eq_some_iff] at h
    obtain ⟨⟨e, p⟩, hu, hus⟩ := h
    rw [List.foldlM_cons, show nest (d + 1, q₀) u = some (e + 1, q₀) from Role.nest_deeper hu q₀]
    exact ih hus

theorem Balanced.paren {us : List Token} (h : Balanced us) :
    Balanced (.punct .lparen :: us ++ [.punct .rparen]) := by
  show (us ++ [Token.punct .rparen]).foldlM nest (1, 0) = some (0, 0)
  rw [List.foldlM_append, foldlM_nest_deeper h 0]
  rfl

theorem inner?_paren {us : List Token} (h : Balanced us) :
    inner? (.punct .lparen :: us ++ [.punct .rparen]) = some us := by
  show (if (us ++ [Token.punct .rparen]).getLast? = some (.punct .rparen) ∧
    Balanced (us ++ [Token.punct .rparen]).dropLast then
      some (us ++ [Token.punct .rparen]).dropLast else none) = _
  rw [List.dropLast_concat, if_pos ⟨by simp, h⟩]

theorem length_inner? {us vs : List Token} (h : inner? us = some vs) : vs.length < us.length := by
  unfold inner? at h
  split at h
  · split at h
    · cases h
      simp only [List.length_dropLast, List.length_cons]
      omega
    · cases h
  · cases h

theorem unparenFrom_eq {n m : ℕ} {us : List Token} (hn : us.length ≤ n) (hm : us.length ≤ m) :
    unparenFrom n us = unparenFrom m us := by
  induction n generalizing m us with
  | zero =>
    obtain rfl := List.length_eq_zero_iff.1 (Nat.le_zero.1 hn)
    cases m <;> rfl
  | succ n ih =>
    cases m with
    | zero =>
      obtain rfl := List.length_eq_zero_iff.1 (Nat.le_zero.1 hm)
      rfl
    | succ m =>
      rw [unparenFrom, unparenFrom]
      cases hi : inner? us with
      | none => rfl
      | some vs =>
        have hlt := length_inner? hi
        exact ih (by omega) (by omega)

theorem unparen_paren {us : List Token} (h : Balanced us) :
    unparen (.punct .lparen :: us ++ [.punct .rparen]) = unparen us := by
  have hlen : (Token.punct .lparen :: us ++ [Token.punct .rparen]).length =
    us.length + 1 + 1 := by simp
  rw [unparen, hlen, unparenFrom, inner?_paren h]
  exact unparenFrom_eq (Nat.le_succ _) le_rfl

theorem Expr.condTokens_balanced (e : Expr) : Balanced e.condTokens := by
  unfold condTokens
  split
  · exact e.balanced.paren
  · exact e.balanced

theorem Expr.unparen_condTokens (e : Expr) : unparen e.condTokens = e.tree := by
  unfold condTokens
  split
  · exact unparen_paren e.balanced
  · rfl

theorem Expr.condTokens_ne_nil (e : Expr) : e.condTokens ≠ [] := by
  unfold condTokens
  split
  · exact List.cons_ne_nil _ _
  · exact e.nonempty

def Token.endsExpr (t : Token) : Prop := nest (0, 0) t = none

theorem parseExpr?_run {us : List Token} (hus : Balanced us) (hne : us ≠ []) {t : Token}
    (ht : t.endsExpr) (rest : List Token) :
    parseExpr? (us ++ t :: rest) = (some (unparen us), t :: rest) := by
  obtain ⟨u, vs, rfl⟩ := List.exists_cons_of_ne_nil hne
  rw [parseExpr?, scanExpr_run hus ht]

theorem parseExpr?_exprTokens (e : Option Expr) {t : Token} (ht : t.endsExpr) (rest : List Token) :
    parseExpr? (exprTokens e ++ t :: rest) = (e.map Expr.tree, t :: rest) := by
  cases e with
  | none =>
    show parseExpr? (t :: rest) = _
    rw [parseExpr?, scanExpr, show nest (0, 0) t = none from ht]
    rfl
  | some e => exact parseExpr?_run e.balanced e.nonempty ht rest

theorem parseExpr?_condTokens (e : Option Expr) {t : Token} (ht : t.endsExpr) (rest : List Token) :
    parseExpr? (condTokens e ++ t :: rest) = (e.map Expr.tree, t :: rest) := by
  cases e with
  | none => exact parseExpr?_exprTokens none ht rest
  | some e =>
    show parseExpr? (e.condTokens ++ t :: rest) = (some e.tree, t :: rest)
    rw [parseExpr?_run e.condTokens_balanced e.condTokens_ne_nil ht, e.unparen_condTokens]

theorem parseExpr_tokens (e : Expr) {t : Token} (ht : t.endsExpr) (rest : List Token) :
    parseExpr (e.tokens ++ t :: rest) = some (e.tree, t :: rest) := by
  have h := parseExpr?_exprTokens (some e) ht rest
  rw [parseExpr, show e.tokens = exprTokens (some e) from rfl, h]
  rfl

@[simp] theorem expect_cons (p : Punct) (ts : List Token) :
    expect p (.punct p :: ts) = some ts := if_pos rfl

/-- An expression, or an expression in parentheses, is read between parentheses. -/
theorem parseParenExpr_run {us : List Token} (hus : Balanced us) (hne : us ≠ [])
    (rest : List Token) :
    parseParenExpr (.punct .lparen :: (us ++ .punct .rparen :: rest)) =
      some (unparen us, rest) := by
  have h : parseExpr (us ++ .punct .rparen :: rest) =
    some (unparen us, .punct .rparen :: rest) := by
    rw [parseExpr, @parseExpr?_run us hus hne (.punct .rparen) rfl]
  simp [parseParenExpr, h]

theorem parseParenExpr_condTokens (e : Expr) (rest : List Token) :
    parseParenExpr (.punct .lparen :: (e.condTokens ++ .punct .rparen :: rest)) =
      some (e.tree, rest) := by
  rw [parseParenExpr_run e.condTokens_balanced e.condTokens_ne_nil, e.unparen_condTokens]

theorem parseParenExpr_tokens (e : Expr) (rest : List Token) :
    parseParenExpr (.punct .lparen :: (e.tokens ++ .punct .rparen :: rest)) = some (e.tree, rest) :=
  parseParenExpr_run e.balanced e.nonempty rest

theorem parseForControl_tokens (i c r : Option Expr) (rest : List Token) :
    parseForControl (.punct .lparen :: (exprTokens i ++ .punct .semi :: (condTokens c ++
      .punct .semi :: (exprTokens r ++ .punct .rparen :: rest)))) =
      some ((i.map Expr.tree, c.map Expr.tree, r.map Expr.tree), rest) := by
  simp [parseForControl, parseExpr?_exprTokens i (t := .punct .semi) rfl,
    parseExpr?_condTokens c (t := .punct .semi) rfl,
    parseExpr?_exprTokens r (t := .punct .rparen) rfl]

/-! ## Statements -/

attribute [local simp] parseStmt Statement.tree

theorem Expr.tokens_begin (e : Expr) :
    ∃ t us, e.tokens = t :: us ∧ nest (0, 0) t ≠ none := by
  obtain ⟨t, us, htokens⟩ := List.exists_cons_of_ne_nil e.nonempty
  refine ⟨t, us, htokens, fun ht => ?_⟩
  have h := e.balanced
  rw [htokens, Balanced, List.foldlM_cons, ht] at h
  cases h

/-- A statement begins neither with the end of a block nor with an `else`. -/
theorem Statement.tokens_begin (s : Statement) :
    ∃ t us, s.tokens = t :: us ∧ t ≠ .punct .rbrace ∧ t ≠ .keyword .elseWord := by
  cases s with
  | exprStatement e =>
    cases e with
    | none => exact ⟨_, _, rfl, by decide, by decide⟩
    | some e =>
      obtain ⟨t, us, htokens, ht⟩ := e.tokens_begin
      refine ⟨t, us ++ [.punct .semi], by simp [exprTokens, htokens], ?_, ?_⟩
      · rintro rfl
        exact ht rfl
      · rintro rfl
        exact ht rfl
  | _ => exact ⟨_, _, rfl, by simp, by simp⟩

/-- A block is not closed before its last statement, and no `else` follows one of its statements. -/
theorem Statements.tokens_begin {ss : Statements} (hss : ss ≠ .nil) :
    ∃ t us, ss.tokens = t :: us ∧ t ≠ .punct .rbrace ∧ t ≠ .keyword .elseWord := by
  match ss, hss with
  | .cons s .nil, _ =>
    obtain ⟨t, us, htokens, ht⟩ := s.tokens_begin
    exact ⟨t, _, by rw [Statements.tokens, htokens, List.cons_append], ht⟩
  | .cons s (.cons s' ss), _ =>
    obtain ⟨t, us, htokens, ht⟩ := s.tokens_begin
    exact ⟨t, us ++ (Statements.cons s' ss).tokens, by simp [Statements.tokens, htokens], ht⟩

/-- An expression statement is read where no label, block or word of a statement begins. -/
theorem parseStmt_expr (e : Option Expr) (fuel : ℕ) (rest : List Token) :
    parseStmt (fuel + 1) (exprTokens e ++ .punct .semi :: rest) =
      some (.expr (e.map Expr.tree), rest) := by
  have hrun : parseExprStmt (exprTokens e ++ .punct .semi :: rest) =
      some (.expr (e.map Expr.tree), rest) := by
    simp [parseExprStmt, parseExpr?_exprTokens e (t := .punct .semi) rfl]
  rw [← hrun]
  cases e with
  | none => rfl
  | some e =>
    obtain ⟨t, us, htokens, ht⟩ := e.tokens_begin
    show parseStmt (fuel + 1) (e.tokens ++ _) = parseExprStmt (e.tokens ++ _)
    have hb := e.balanced
    rw [htokens] at hb ⊢
    cases t with
    | ident x =>
      cases us with
      | nil => rfl
      | cons u us =>
        cases u with
        | punct p => cases p <;> first | rfl | cases hb
        | _ => rfl
    | keyword k => cases k <;> first | rfl | exact absurd rfl ht
    | number n => rfl
    | string wide s => rfl
    | punct p => cases p <;> first | rfl | exact absurd rfl ht

theorem parseStmt_label {l : Statement} (hl : l.isLabel = true) {fuel : ℕ} {ts rest : List Token}
    {s : CStmt} (h : parseStmt fuel ts = some (s, rest)) :
    parseStmt (fuel + 1) (l.tokens ++ ts) = some (l.labelled s, rest) := by
  match l, hl with
  | .caseLabel v, _ =>
    have hv := parseExpr_tokens v (t := .punct .colon) rfl ts
    simp [hv, h, Statement.labelled]
  | .defaultLabel, _ => simp [h, Statement.labelled]
  | .statementLabel x, _ => simp [h, Statement.labelled]

theorem parseStmt_ifThen (c : Expr) {fuel : ℕ} {ts rest : List Token} {t : CStmt}
    (h : parseStmt fuel ts = some (t, rest)) (hrest : rest.head? ≠ some (.keyword .elseWord)) :
    parseStmt (fuel + 1) (.keyword .ifWord :: .punct .lparen ::
      (c.condTokens ++ .punct .rparen :: ts)) =
      some (.ifThen c.tree t, rest) := by
  simp only [parseStmt, parseParenExpr_condTokens, h, Option.bind_eq_bind, Option.bind_some]
  split
  · exact absurd rfl hrest
  · rfl

theorem parseStmt_ifElse (c : Expr) {fuel : ℕ} {ts us rest : List Token} {t e : CStmt}
    (h : parseStmt fuel ts = some (t, .keyword .elseWord :: us))
    (he : parseStmt fuel us = some (e, rest)) :
    parseStmt (fuel + 1) (.keyword .ifWord :: .punct .lparen ::
      (c.condTokens ++ .punct .rparen :: ts)) =
      some (.ifElse c.tree t e, rest) := by
  simp [parseParenExpr_condTokens, h, he]

def ReadsBlock (ss : Statements) : Prop :=
  ss ≠ .nil → ∀ rest, ∃ s ss' mid, ss.tree .compound = .cons s ss' ∧
    ∀ fuel, ss.tokens.length ≤ fuel →
      parseStmt fuel (ss.tokens ++ .punct .rbrace :: rest) = some (s, mid) ∧
      parseStmts fuel mid = some (ss', rest)

theorem ReadsBlock.parse {ss : Statements} (h : ReadsBlock ss) (fuel : ℕ)
    (hfuel : ss.tokens.length < fuel) (rest : List Token) :
    parseStmts fuel (ss.tokens ++ .punct .rbrace :: rest) = some (ss.tree .compound, rest) := by
  obtain ⟨n, rfl⟩ : ∃ n, fuel = n + 1 := ⟨fuel - 1, by omega⟩
  by_cases hss : ss = .nil
  · subst hss
    rfl
  · obtain ⟨s, ss', mid, htree, hparse⟩ := h hss rest
    obtain ⟨hfirst, hrest⟩ := hparse n (by omega)
    obtain ⟨t, us, htokens, ht, -⟩ := Statements.tokens_begin hss
    rw [htokens, List.cons_append] at hfirst ⊢
    rw [parseStmts]
    · simp [hfirst, hrest, htree]
    · intro ts hts
      exact ht (List.cons.inj hts).1

theorem Statements.head?_ne_else (ss : Statements) (rest : List Token) :
    (ss.tokens ++ .punct .rbrace :: rest).head? ≠ some (.keyword .elseWord) := by
  by_cases hss : ss = .nil
  · subst hss
    simp [Statements.tokens]
  · obtain ⟨t, us, htokens, -, ht⟩ := Statements.tokens_begin hss
    rw [htokens]
    simpa using ht

theorem ReadsBlock.cons {s : Statement} {ss : Statements} (h : ReadsBlock ss)
    (hl : s.isLabel = false)
    (hs : ∀ fuel rest, s.tokens.length ≤ fuel → rest.head? ≠ some (.keyword .elseWord) →
      parseStmt fuel (s.tokens ++ rest) = some (s.tree .compound, rest)) :
    ReadsBlock (.cons s ss) := by
  intro _ rest
  have htokens : (Statements.cons s ss).tokens = s.tokens ++ ss.tokens := by
    cases ss <;> simp [Statements.tokens, hl]
  refine ⟨s.tree .compound, ss.tree .compound, ss.tokens ++ .punct .rbrace :: rest,
    by simp [Statements.tree, hl], ?_⟩
  intro fuel hfuel
  rw [htokens, List.length_append] at hfuel
  obtain ⟨t, us, hbegin, -⟩ := s.tokens_begin
  have hpos : 0 < s.tokens.length := by
    rw [hbegin]
    exact Nat.succ_pos _
  rw [htokens, List.append_assoc]
  exact ⟨hs fuel _ (Nat.le_of_add_right_le hfuel) (ss.head?_ne_else rest),
    h.parse fuel (by omega) rest⟩

theorem ReadsBlock.label {l : Statement} {ss : Statements} (h : ReadsBlock ss)
    (hl : l.isLabel = true) : ReadsBlock (.cons l ss) := by
  intro _ rest
  obtain ⟨t, us, hbegin, -⟩ := l.tokens_begin
  have hpos : 0 < l.tokens.length := by
    rw [hbegin]
    exact Nat.succ_pos _
  by_cases hss : ss = .nil
  · subst hss
    refine ⟨l.labelled (.expr none), .nil, .punct .rbrace :: rest,
      by simp [Statements.tree, hl]; rfl, ?_⟩
    intro fuel hfuel
    simp only [Statements.tokens, hl, if_true, List.length_append, List.length_singleton] at hfuel ⊢
    obtain ⟨n, rfl⟩ : ∃ n, fuel = n + 1 + 1 := ⟨fuel - 2, by omega⟩
    have hlabel := parseStmt_label hl (parseStmt_expr none n (.punct .rbrace :: rest))
    rw [List.append_assoc]
    exact ⟨hlabel, rfl⟩
  · obtain ⟨s, ss', mid, htree, hparse⟩ := h hss rest
    have htokens : (Statements.cons l ss).tokens = l.tokens ++ ss.tokens := by
      cases ss with
      | nil => exact absurd rfl hss
      | cons s ss => rfl
    refine ⟨l.labelled s, ss', mid, by simp [Statements.tree, hl, htree]; rfl, ?_⟩
    intro fuel hfuel
    rw [htokens, List.length_append] at hfuel
    obtain ⟨n, rfl⟩ : ∃ n, fuel = n + 1 := ⟨fuel - 1, by omega⟩
    have hlabel := parseStmt_label hl (hparse n (by omega)).1
    exact ⟨by simpa [htokens] using hlabel, (hparse (n + 1) (by omega)).2⟩

mutual

theorem Statement.parse_tokens (s : Statement) (hp : s.plain = true) (hl : s.isLabel = false)
    (fuel : ℕ) (hfuel : s.tokens.length ≤ fuel) {rest : List Token}
    (helse : s.takesElse = true → rest.head? ≠ some (.keyword .elseWord)) :
    parseStmt fuel (s.tokens ++ rest) = some (s.tree .compound, rest) := by
  obtain ⟨n, rfl⟩ : ∃ n, fuel = n + 1 := by
    obtain ⟨t, us, htokens, -⟩ := s.tokens_begin
    rw [htokens, List.length_cons] at hfuel
    exact ⟨fuel - 1, by omega⟩
  match s, hp, hl with
  | .compoundStatement ss, hp, _ =>
    simp only [Statement.tokens, List.length_append, List.length_cons, List.length_nil] at hfuel
    have hblock := ReadsBlock.parse (ss.parse_tokens hp) n (by omega) rest
    simp [hblock]
  | .exprStatement e, _, _ =>
    have h := parseStmt_expr e n rest
    simpa using h
  | .ifStatement c t e, hp, _ =>
    simp only [Statement.tokens, List.length_append, List.length_cons] at hfuel
    match e, hp with
    | .absent, hp | .empty, hp =>
      have hthen := t.parse_tokens hp n (by omega) fun _ => helse rfl
      have h := parseStmt_ifThen c hthen (helse rfl)
      simpa using h
    | .holds s, hp =>
      simp only [Statement.plain, Bool.and_eq_true, Bool.not_eq_true'] at hp
      obtain ⟨⟨⟨hclosed, ht⟩, hlabel⟩, hs⟩ := hp
      simp only [Part.elseTokens, List.length_cons] at hfuel
      have hother := s.parse_tokens hs hlabel n (by omega) helse
      have hthen : parseStmt n (t.thenTokens ++ .keyword .elseWord :: (s.tokens ++ rest)) =
          some (t.tree .compound, .keyword .elseWord :: (s.tokens ++ rest)) :=
        t.parse_tokens ht n (by omega) fun h => by rw [hclosed] at h; cases h
      have h := parseStmt_ifElse c hthen hother
      simpa using h
  | .whileStatement c b, hp, _ =>
    simp only [Statement.tokens, List.length_append, List.length_cons] at hfuel
    have hbody := b.parse_tokens hp n (by omega) rest
    simp [parseParenExpr_condTokens, hbody]
  | .doStatement b c, hp, _ =>
    simp only [Statement.tokens, List.length_append, List.length_cons, List.length_nil] at hfuel
    have hbody := fun ts => b.parse_tokens hp n (by omega) (.keyword .whileWord :: ts)
    simp [parseParenExpr_condTokens, hbody]
  | .forStatement i c r b, hp, _ =>
    rw [Statement.plain, Bool.and_eq_true] at hp
    simp only [Statement.tokens, List.length_append, List.length_cons] at hfuel
    have hbody := b.parse_tokens hp.2 n (by omega) rest
    simp [parseForControl_tokens, hbody, Element.tree]
  | .switchStatement v b, hp, _ =>
    rw [Statement.plain, Bool.and_eq_true] at hp
    simp only [Statement.tokens, List.length_append, List.length_cons] at hfuel
    have hbody := b.parse_tokens hp.2 n (by omega) rest
    simp [parseParenExpr_tokens, hbody]
  | .gotoStatement x, _, _ => simp
  | .breakStatement, _, _ => simp
  | .continueStatement, _, _ => simp
  | .returnStatement e, _, _ =>
    have h := parseExpr?_exprTokens e (t := .punct .semi) rfl rest
    simp [h]

theorem Statements.parse_tokens (ss : Statements) (hp : ss.plain = true) : ReadsBlock ss := by
  match ss, hp with
  | .nil, _ => exact fun h => absurd rfl h
  | .cons s ss, hp =>
    rw [Statements.plain, Bool.and_eq_true] at hp
    have hblock := ss.parse_tokens hp.2
    cases hl : s.isLabel with
    | true => exact hblock.label hl
    | false =>
      exact hblock.cons hl fun fuel rest hfuel hrest =>
        s.parse_tokens hp.1 hl fuel hfuel fun _ => hrest

theorem Body.parse_tokens (b : Body) (hp : b.plain = true) (fuel : ℕ)
    (hfuel : b.tokens.length ≤ fuel) (rest : List Token) :
    parseStmt fuel (b.tokens ++ rest) = some (b.tree .compound, rest) := by
  match b, hp with
  | .absent, _ =>
    obtain ⟨n, rfl⟩ : ∃ n, fuel = n + 1 := ⟨fuel - 1, by simp [Body.tokens] at hfuel; omega⟩
    exact parseStmt_expr none n rest
  | .holds ss, hp =>
    simp only [Body.tokens, List.length_append, List.length_cons, List.length_nil] at hfuel
    obtain ⟨n, rfl⟩ : ∃ n, fuel = n + 1 := ⟨fuel - 1, by omega⟩
    have hblock := ReadsBlock.parse (ss.parse_tokens hp) n (by omega) rest
    simp [Body.tokens, hblock, Body.tree]

theorem Part.parse_tokens (t : Part) (hp : t.plain = true) (fuel : ℕ)
    (hfuel : t.thenTokens.length ≤ fuel) {rest : List Token}
    (helse : t.closed = false → rest.head? ≠ some (.keyword .elseWord)) :
    parseStmt fuel (t.thenTokens ++ rest) = some (t.tree .compound, rest) := by
  match t, hp with
  | .absent, _ =>
    obtain ⟨n, rfl⟩ : ∃ n, fuel = n + 1 := ⟨fuel - 1, by simp [Part.thenTokens] at hfuel; omega⟩
    exact parseStmt_expr none n rest
  | .empty, _ =>
    obtain ⟨n, rfl⟩ : ∃ n, fuel = n + 1 + 1 := ⟨fuel - 2, by simp [Part.thenTokens] at hfuel; omega⟩
    rfl
  | .holds s, hp =>
    simp only [Part.plain, Bool.and_eq_true, Bool.not_eq_true'] at hp
    exact s.parse_tokens hp.2 hp.1 fuel hfuel fun h => helse (by rw [Part.closed, h]; rfl)

end

/-! ## The round trip -/

/-- A plain statement that is no label alone is read back from its text as the C statement that it
stands for, with the contents of a `body` element and an empty `then` element in braces. -/
theorem Statement.parse_text (s : Statement) (hp : s.plain = true) (hl : s.isLabel = false) :
    s.text.bind parse = some (s.tree .compound) := by
  obtain ⟨text, htext, hlex⟩ := Statement.lex_text hp
  have hparse : parseStmt s.tokens.length (s.tokens ++ []) = some (s.tree .compound, []) :=
    s.parse_tokens hp hl _ le_rfl fun _ => by simp
  rw [List.append_nil] at hparse
  rw [htext, Option.bind_some, parse, hlex]
  simp [hparse]

section Runs

def nameX : Ident := ⟨['x'], by decide⟩

def nameY : Ident := ⟨['y'], by decide⟩

/-- A loop over an `if` with an empty `then`, and a label at its end. -/
def labelledLoop : Statement :=
  .whileStatement (.name nameX) (.holds (.cons (.ifStatement (.name nameX) .empty
    (.holds (.exprStatement (some (.name nameY))))) (.cons .defaultLabel .nil)))

theorem parse_text_labelledLoop :
    labelledLoop.text.bind parse = some (labelledLoop.tree .compound) :=
  Statement.parse_text labelledLoop rfl rfl

/-- The statement of a loop is read back in braces. -/
theorem parse_text_braces :
    let s : Statement :=
      .whileStatement (.name nameX) (.holds (.cons (.exprStatement (some (.name nameY))) .nil))
    s.text.bind parse ≠ some (s.tree bare) := by
  decide +kernel

/-- Without its own `else`, the inner `if` takes the one of the outer. -/
example :
    let inner : Statement :=
      .ifStatement (.name nameX) (.holds (.exprStatement (some (.name nameY)))) .absent
    let s : Statement := .ifStatement (.name nameX) (.holds inner) (.holds .breakStatement)
    s.text.bind parse ≠ some (s.tree .compound) := by
  decide +kernel

end Runs

end OmniCompiler.CBack
