import CodeMend.Proofs.Tree.Standing

/-!
# CodeMend — the nodes under a node

Which nodes are listed under a node of a parsed tree, one lemma for each kind or each few kinds with
the same production.  Tokens are passed over, so two nodes with an operator between them are a list
of two.

* **`Parsed.childNodes_pair`** and so on — the parts of an expression.
* **`Parsed.childNodes_try`** and so on — the parts of a statement.
-/

namespace CodeMend.Tree

open Production
open scoped Computability

variable {t : Tree} {n : NodeId}

/-- An expression is no statement. -/
theorem isStatement_of_expressionKind : ∀ k ∈ expressionKinds, k.isStatement = false := by
  decide

namespace Parsed

variable (hp : Parsed t)

include hp

/-! ## Expressions

The productions tell the children of each kind of node; here they are told as nodes, without the
tokens between them. -/

theorem childNodes_parenthesized (hk : t.kind n = .parenthesizedExpression) :
    ∃ e, t.childNodes n = [e] := by
  have h : Words t [mark t.tokens "(", expr t.tokens, mark t.tokens ")"].prod (t.childNodes n) :=
    hp.words hk (by decide)
  obtain ⟨e, _, hn, -, h⟩ := h.skip.expression
  exact ⟨e, by rw [hn, h.skip.nil]⟩

theorem childNodes_unary
    (hk : t.kind n = .prefixUnaryExpression ∨ t.kind n = .postfixUnaryExpression) :
    ∃ e, t.childNodes n = [e] := by
  rcases hk with hk | hk
  · have h : Words t [anyWord t.tokens, expr t.tokens].prod (t.childNodes n) :=
      hp.words hk (by decide)
    obtain ⟨e, _, hn, -, h⟩ := h.skip.expression
    exact ⟨e, by rw [hn, h.nil]⟩
  · have h : Words t [expr t.tokens, word t.tokens IsPostfix].prod (t.childNodes n) :=
      hp.words hk (by decide)
    obtain ⟨e, _, hn, -, h⟩ := h.expression
    exact ⟨e, by rw [hn, h.skip.nil]⟩

/-- Two operands with an operator between them. -/
theorem childNodes_pair (hk : t.kind n ∈ ([.binaryExpression, .assignmentExpression,
      .conditionalAccessExpression] : List NodeKind)) :
    ∃ l r, t.childNodes n = [l, r] := by
  have h : Words t [expr t.tokens, anyWord t.tokens, opt (anyWord t.tokens), expr t.tokens].prod
        (t.childNodes n) ∨
      Words t [expr t.tokens, anyWord t.tokens, expr t.tokens].prod (t.childNodes n) := by
    simp only [List.mem_cons, List.not_mem_nil, or_false] at hk
    rcases hk with hk | hk | hk
    · exact .inl ((hp.words hk (by decide)).mono production_binary_le)
    · exact .inl (hp.words hk (by decide))
    · exact .inr (hp.words hk (by decide))
  rcases h with h | h
  · obtain ⟨l, _, hn, -, h⟩ := h.expression
    obtain ⟨r, _, rfl, -, h⟩ := h.skip.skipOption.expression
    exact ⟨l, r, by rw [hn, h.nil]⟩
  · obtain ⟨l, _, hn, -, h⟩ := h.expression
    obtain ⟨r, _, rfl, -, h⟩ := h.skip.expression
    exact ⟨l, r, by rw [hn, h.nil]⟩

theorem childNodes_conditional (hk : t.kind n = .conditionalExpression) :
    ∃ test x y, t.childNodes n = [test, x, y] := by
  have h : Words t [expr t.tokens, anyWord t.tokens, expr t.tokens, mark t.tokens ":",
      expr t.tokens].prod (t.childNodes n) :=
    (hp.words hk (by decide)).mono (prod_cons_mono operand_le_expr)
  obtain ⟨test, _, hn, -, h⟩ := h.expression
  obtain ⟨x, _, rfl, -, h⟩ := h.skip.expression
  obtain ⟨y, _, rfl, -, h⟩ := h.skip.expression
  exact ⟨test, x, y, by rw [hn, h.nil]⟩

/-- An operand, and a name or a type behind it. -/
theorem childNodes_access
    (hk : t.kind n = .memberAccessExpression ∨ t.kind n = .asExpression) :
    ∃ e name, t.childNodes n = [e, name] ∧ Still t name := by
  rcases hk with hk | hk
  · have h : Words t [expr t.tokens, anyWord t.tokens, part (IsSimpleName t.tokens)].prod
        (t.childNodes n) := hp.words hk (by decide)
    obtain ⟨e, _, hn, -, h⟩ := h.expression
    obtain ⟨name, _, rfl, hname, h⟩ := (h.skip.mono (prod_cons_mono simpleName_le)).kind
    have hstill : ∀ k ∈ nameKinds, k ∈ stillKinds := by decide
    exact ⟨e, name, by rw [hn, h.nil], .kind (hstill _ hname)⟩
  · have h : Words t [expr t.tokens, anyWord t.tokens, plainType].prod (t.childNodes n) :=
      (hp.words hk (by decide)).mono (prod_cons_mono operand_le_expr)
    obtain ⟨e, _, hn, -, h⟩ := h.expression
    obtain ⟨type, _, rfl, -, htype, h⟩ := h.skip.plain
    exact ⟨e, type, by rw [hn, h.nil], .plain htype⟩

theorem childNodes_cast (hk : t.kind n = .castExpression) :
    ∃ type e, t.childNodes n = [type, e] ∧ Still t type := by
  have h : Words t [anyWord t.tokens, plainType, mark t.tokens ")", expr t.tokens].prod
      (t.childNodes n) := hp.words hk (by decide)
  obtain ⟨type, _, hn, -, htype, h⟩ := h.skip.plain
  obtain ⟨e, _, rfl, -, h⟩ := h.skip.expression
  exact ⟨type, e, by rw [hn, h.nil], .plain htype⟩

theorem childNodes_invocation (hk : t.kind n = .invocationExpression) :
    ∃ callee list, t.childNodes n = [callee, list] ∧ t.kind callee ∈ expressionKinds ∧
      t.kind list = .argumentList := by
  have h : Words t [expr t.tokens, a .argumentList].prod (t.childNodes n) := hp.words hk (by decide)
  obtain ⟨callee, _, hn, hcallee, h⟩ := h.expression
  obtain ⟨list, _, rfl, hlist, h⟩ := h.kind
  exact ⟨callee, list, by rw [hn, h.nil], hcallee, hlist⟩

/-- The items of a list of arguments and of a tuple are arguments. -/
theorem kind_of_mem_arguments (hk : t.kind n ∈ ([.argumentList, .bracketedArgumentList,
      .tupleExpression] : List NodeKind)) :
    ∀ c ∈ t.childNodes n, t.kind c = .argument := by
  have hitem : a .argument ≤ each (OfKind (· = .argument)) := part_le_each_ofKind fun _ h => h
  have hlist : listed t.tokens (a .argument) ≤ each (OfKind (· = .argument)) :=
    listed_le_each ofKind_token hitem
  have hitems : separated t.tokens (a .argument) ≤ each (OfKind (· = .argument)) :=
    separated_le_each ofKind_token hitem
  simp only [List.mem_cons, List.not_mem_nil, or_false] at hk
  rcases hk with hk | hk | hk
  · exact (hp.words hk (by decide)).kinds
      (argumentsBetween_le.trans (enclosed_le_each ofKind_token hlist))
  · exact (hp.words hk (by decide)).kinds
      (argumentsBetween_le.trans (enclosed_le_each ofKind_token hlist))
  · exact (hp.words hk (by decide)).kinds (enclosed_le_each ofKind_token hitems)

/-- An expression, perhaps with a label in front. -/
theorem childNodes_argument (hk : t.kind n = .argument) :
    ∃ e, t.kind e ∈ expressionKinds ∧ (t.childNodes n = [e] ∨
      ∃ label, t.childNodes n = [label, e] ∧ t.kind label = .nameColon) := by
  have h : Words t [opt (a .nameColon), opt (anyWord t.tokens), expr t.tokens].prod
      (t.childNodes n) := hp.words hk (by decide)
  rcases h.option with h | h
  · obtain ⟨e, _, hn, he, h⟩ := h.skipOption.expression
    exact ⟨e, he, .inl (by rw [hn, h.nil])⟩
  · obtain ⟨label, _, hn, hlabel, h⟩ := h.kind
    obtain ⟨e, _, rfl, he, h⟩ := h.skipOption.expression
    exact ⟨e, he, .inr ⟨label, by rw [hn, h.nil], hlabel⟩⟩

/-- The type of a new object. -/
theorem childNodes_objectCreation (hk : t.kind n = .objectCreationExpression) :
    ∀ c ∈ t.childNodes n, (t.kind c).isType = true → Still t c := by
  have h : Words t [anyWord t.tokens, plainType, opt (a .argumentList),
      opt (a .initializerExpression)].prod (t.childNodes n) := hp.words hk (by decide)
  obtain ⟨type, rest, hn, -, htype, h⟩ := h.skip.plain
  have hlist : [opt (a .argumentList), opt (a .initializerExpression)].prod ≤
      each (OfKind fun k => k.isType = false) := by
    refine cons_le_each (opt_le_each ?_) (cons_le_each (opt_le_each ?_) nil_le_each)
    all_goals exact part_le_each_ofKind fun _ h => h ▸ rfl
  intro c hc hkind
  rw [hn, List.mem_cons] at hc
  rcases hc with rfl | hc
  · exact .plain htype
  · rw [h.kinds hlist c hc] at hkind
    cases hkind

/-! ## Statements

The same for statements, whose parts may be missing. -/

theorem childNodes_localDeclaration (hk : t.kind n = .localDeclarationStatement) :
    ∃ d, t.childNodes n = [d] ∧ t.kind d = .variableDeclaration := by
  have h : Words t [opt (anyWord t.tokens), opt (anyWord t.tokens), a .variableDeclaration,
      mark t.tokens ";"].prod (t.childNodes n) := hp.words hk (by decide)
  obtain ⟨d, _, hn, hd, h⟩ := h.skipOption.skipOption.kind
  exact ⟨d, by rw [hn, h.skip.nil], hd⟩

theorem childNodes_variableDeclaration (hk : t.kind n = .variableDeclaration) :
    ∃ type declarators, t.childNodes n = type :: declarators ∧ Still t type ∧
      ∀ d ∈ declarators, t.kind d = .variableDeclarator := by
  have h : Words t [plainType, separated t.tokens (a .variableDeclarator)].prod (t.childNodes n) :=
    hp.words hk (by decide)
  obtain ⟨type, declarators, hn, -, htype, h⟩ := h.plain
  have hlist : [separated t.tokens (a .variableDeclarator)].prod ≤
      each (OfKind (· = .variableDeclarator)) :=
    cons_le_each (separated_le_each ofKind_token (part_le_each_ofKind fun _ h => h)) nil_le_each
  exact ⟨type, declarators, hn, .plain htype, h.kinds hlist⟩

/-- The value of a declarator; that of a member may tell an interface in front of its name. -/
theorem childNodes_variableDeclarator (hk : t.kind n = .variableDeclarator) :
    ∃ names, (∀ c ∈ names, Still t c ∧ t.kind c ≠ .equalsValueClause) ∧
      (t.childNodes n = names ∨
        ∃ clause, t.childNodes n = names ++ [clause] ∧ t.kind clause = .equalsValueClause) := by
  have h : Words t [opt (plain .explicitInterfaceSpecifier), anyWord t.tokens,
      opt (a .equalsValueClause)].prod (t.childNodes n) := hp.words hk (by decide)
  have hrest : ∀ {ns}, Words t [anyWord t.tokens, opt (a .equalsValueClause)].prod ns →
      ns = [] ∨ ∃ clause, ns = [clause] ∧ t.kind clause = .equalsValueClause := by
    intro ns h
    rcases h.skip.option with h | h
    · exact .inl h.nil
    · obtain ⟨clause, _, hns, hclause, h⟩ := h.kind
      exact .inr ⟨clause, by rw [hns, h.nil], hclause⟩
  rcases h.option with h | h
  · refine ⟨[], by simp, ?_⟩
    simpa using hrest h
  · obtain ⟨name, rest, hn, hkind, hname, h⟩ := h.plain
    refine ⟨[name], fun c hc => ?_, ?_⟩
    · obtain rfl := List.mem_singleton.mp hc
      exact ⟨.plain hname, by simp [hkind]⟩
    · rcases hrest h with rfl | ⟨clause, rfl, hclause⟩
      · exact .inl hn
      · exact .inr ⟨clause, hn, hclause⟩

/-- A value behind an equals sign, or an arrow. -/
theorem childNodes_clause
    (hk : t.kind n = .equalsValueClause ∨ t.kind n = .arrowExpressionClause) :
    ∃ e, t.childNodes n = [e] := by
  rcases hk with hk | hk
  · have h : Words t [mark t.tokens "=", expr t.tokens].prod (t.childNodes n) :=
      hp.words hk (by decide)
    obtain ⟨e, _, hn, -, h⟩ := h.skip.expression
    exact ⟨e, by rw [hn, h.nil]⟩
  · have h : Words t [mark t.tokens "=>", expr t.tokens].prod (t.childNodes n) :=
      hp.words hk (by decide)
    obtain ⟨e, _, hn, -, h⟩ := h.skip.expression
    exact ⟨e, by rw [hn, h.nil]⟩

/-- A statement of at most one expression. -/
theorem childNodes_simpleStatement (hk : t.kind n ∈ ([.expressionStatement, .yieldReturnStatement,
      .returnStatement, .throwStatement] : List NodeKind)) :
    t.childNodes n = [] ∨ ∃ e, t.childNodes n = [e] := by
  simp only [List.mem_cons, List.not_mem_nil, or_false] at hk
  have hjump : t.kind n = .returnStatement ∨ t.kind n = .throwStatement →
      Words t [anyWord t.tokens, opt (expr t.tokens), mark t.tokens ";"].prod (t.childNodes n) := by
    rintro (hk | hk) <;> exact hp.words hk (by decide)
  rcases hk with hk | hk | hk
  · have h : Words t [expr t.tokens, mark t.tokens ";"].prod (t.childNodes n) :=
      hp.words hk (by decide)
    obtain ⟨e, _, hn, -, h⟩ := h.expression
    exact .inr ⟨e, by rw [hn, h.skip.nil]⟩
  · have h : Words t [anyWord t.tokens, opt (anyWord t.tokens), expr t.tokens,
        mark t.tokens ";"].prod (t.childNodes n) := hp.words hk (by decide)
    obtain ⟨e, _, hn, -, h⟩ := h.skip.skipOption.expression
    exact .inr ⟨e, by rw [hn, h.skip.nil]⟩
  · rcases (hjump hk).skip.option with h | h
    · exact .inl h.skip.nil
    · obtain ⟨e, _, hn, -, h⟩ := h.expression
      exact .inr ⟨e, by rw [hn, h.skip.nil]⟩

/-- A statement without parts. -/
theorem childNodes_jump (hk : t.kind n ∈ ([.emptyStatement, .breakStatement, .continueStatement,
      .yieldBreakStatement] : List NodeKind)) : t.childNodes n = [] := by
  simp only [List.mem_cons, List.not_mem_nil, or_false] at hk
  rcases hk with hk | hk | hk | hk
  · have h : Words t [anyWord t.tokens, mark t.tokens ";"].prod (t.childNodes n) :=
      hp.words hk (by decide)
    exact h.skip.skip.nil
  · have h : Words t [anyWord t.tokens, mark t.tokens ";"].prod (t.childNodes n) :=
      hp.words hk (by decide)
    exact h.skip.skip.nil
  · have h : Words t [anyWord t.tokens, mark t.tokens ";"].prod (t.childNodes n) :=
      hp.words hk (by decide)
    exact h.skip.skip.nil
  · have h : Words t [anyWord t.tokens, opt (anyWord t.tokens), mark t.tokens ";"].prod
        (t.childNodes n) := hp.words hk (by decide)
    exact h.skip.skipOption.skip.nil

/-- A condition and a statement, and perhaps another one behind the word else. -/
theorem childNodes_if (hk : t.kind n = .ifStatement) :
    ∃ test s, t.childNodes n = [test, s] ∨
      ∃ other, t.childNodes n = [test, s, other] ∧ t.kind other = .elseClause := by
  have h : Words t [anyWord t.tokens, parenthesized t.tokens, stmt, opt (a .elseClause)].prod
      (t.childNodes n) := hp.words hk (by decide)
  obtain ⟨test, _, hn, -, h⟩ := h.skip.condition
  obtain ⟨s, _, rfl, -, h⟩ := h.kind
  refine ⟨test, s, ?_⟩
  rcases h.option with h | h
  · exact .inl (by rw [hn, h.nil])
  · obtain ⟨other, _, rfl, hother, h⟩ := h.kind
    exact .inr ⟨other, by rw [hn, h.nil], hother⟩

theorem childNodes_else (hk : t.kind n = .elseClause) : ∃ s, t.childNodes n = [s] := by
  have h : Words t [anyWord t.tokens, stmt].prod (t.childNodes n) := hp.words hk (by decide)
  obtain ⟨s, _, hn, -, h⟩ := h.skip.kind
  exact ⟨s, by rw [hn, h.nil]⟩

/-- Something in parentheses, and the statement that belongs to it. -/
theorem childNodes_guarded (hk : t.kind n = .whileStatement ∨ t.kind n = .lockStatement) :
    ∃ e s, t.childNodes n = [e, s] := by
  have h : Words t [anyWord t.tokens, parenthesized t.tokens, stmt].prod (t.childNodes n) := by
    rcases hk with hk | hk <;> exact hp.words hk (by decide)
  obtain ⟨e, _, hn, -, h⟩ := h.skip.condition
  obtain ⟨s, _, rfl, -, h⟩ := h.kind
  exact ⟨e, s, by rw [hn, h.nil]⟩

theorem childNodes_do (hk : t.kind n = .doStatement) : ∃ s e, t.childNodes n = [s, e] := by
  have h : Words t [anyWord t.tokens, stmt, anyWord t.tokens, parenthesized t.tokens,
      mark t.tokens ";"].prod (t.childNodes n) := hp.words hk (by decide)
  obtain ⟨s, _, hn, -, h⟩ := h.skip.kind
  obtain ⟨e, _, rfl, -, h⟩ := h.skip.condition
  exact ⟨s, e, by rw [hn, h.skip.nil]⟩

theorem childNodes_forEach (hk : t.kind n = .forEachStatement) :
    ∃ type e s, t.childNodes n = [type, e, s] ∧ Still t type := by
  have h : Words t [anyWord t.tokens, mark t.tokens "(", plainType, anyWord t.tokens,
      anyWord t.tokens, expr t.tokens, mark t.tokens ")", stmt].prod (t.childNodes n) :=
    hp.words hk (by decide)
  obtain ⟨type, _, hn, -, htype, h⟩ := h.skip.skip.plain
  obtain ⟨e, _, rfl, -, h⟩ := h.skip.skip.expression
  obtain ⟨s, _, rfl, -, h⟩ := h.skip.kind
  exact ⟨type, e, s, by rw [hn, h.nil], .plain htype⟩

/-- A declaration or an expression, and a statement. -/
theorem childNodes_using (hk : t.kind n = .usingStatement) :
    ∃ head s, t.childNodes n = [head, s] ∧ (t.kind head).isStatement = false ∧
      (t.kind s).isStatement = true := by
  have h : Words t [anyWord t.tokens, mark t.tokens "(", a .variableDeclaration + expr t.tokens,
      mark t.tokens ")", stmt].prod (t.childNodes n) := hp.words hk (by decide)
  obtain ⟨xs, ys, hn, hx, h⟩ := h.skip.skip.append
  obtain ⟨s, _, rfl, hs, h⟩ := h.skip.kind
  have hhead : ∃ head, xs = [head] ∧ (t.kind head).isStatement = false := by
    rcases hx.of_add with hx | hx
    · obtain ⟨head, hxs, hhead⟩ := hx.of_kind
      exact ⟨head, hxs, by rw [hhead]; rfl⟩
    · obtain ⟨head, hxs, hhead⟩ := (hx.mono expr_le).of_kind
      exact ⟨head, hxs, isStatement_of_expressionKind _ hhead⟩
  obtain ⟨head, rfl, hhead⟩ := hhead
  exact ⟨head, s, by rw [hn, h.nil]; rfl, hhead, hs⟩

/-- A block, what may follow when it is cut short, and what runs in any case. -/
theorem childNodes_try (hk : t.kind n = .tryStatement) :
    ∃ block catches final, t.childNodes n = block :: (catches ++ final) ∧
      t.kind block = .block ∧ (∀ c ∈ catches, t.kind c = .catchClause) ∧
      (final = [] ∨ ∃ clause, final = [clause] ∧ t.kind clause = .finallyClause) := by
  have h : Words t [anyWord t.tokens, a .block, (a .catchClause)∗, opt (a .finallyClause)].prod
      (t.childNodes n) := hp.words hk (by decide)
  obtain ⟨block, _, hn, hblock, h⟩ := h.skip.kind
  obtain ⟨catches, final, rfl, hcatches, h⟩ := h.append
  refine ⟨block, catches, final, hn, hblock, ?_, ?_⟩
  · exact hcatches.kinds (kstar_le_each (part_le_each_ofKind fun _ h => h))
  · rcases h.option with h | h
    · exact .inl h.nil
    · obtain ⟨clause, _, hns, hclause, h⟩ := h.kind
      exact .inr ⟨clause, by rw [hns, h.nil], hclause⟩

theorem childNodes_finally (hk : t.kind n = .finallyClause) : ∃ s, t.childNodes n = [s] := by
  have h : Words t [anyWord t.tokens, a .block].prod (t.childNodes n) := hp.words hk (by decide)
  obtain ⟨s, _, hn, -, h⟩ := h.skip.kind
  exact ⟨s, by rw [hn, h.nil]⟩

theorem childNodes_switch (hk : t.kind n = .switchStatement) :
    ∃ e sections, t.childNodes n = e :: sections ∧ ∀ c ∈ sections, t.kind c = .switchSection := by
  have h : Words t [anyWord t.tokens, parenthesized t.tokens, mark t.tokens "\x7b",
      (a .switchSection)∗, mark t.tokens "\x7d"].prod (t.childNodes n) := hp.words hk (by decide)
  obtain ⟨e, sections, hn, -, h⟩ := h.skip.condition
  have hsections : [(a .switchSection)∗, mark t.tokens "\x7d"].prod ≤
      each (OfKind (· = .switchSection)) :=
    cons_le_each (kstar_le_each (part_le_each_ofKind fun _ h => h)) <|
      cons_le_each (word_le_each ofKind_token) nil_le_each
  exact ⟨e, sections, hn, h.skip.kinds hsections⟩

end Parsed

end CodeMend.Tree
