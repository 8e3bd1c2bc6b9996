import CodeMend.Proofs.Grammar.Expressions

/-!
# CodeMend — statements keep to the grammar of trees

Parts that members and statements share come first, among them the parts that are kept as plain
tokens: how many those are is told by a scan ahead, which never passes the end of the file.

* **`lt_of_balanced`** — a balanced group has an end inside the file.
* **`makes_block`**, **`makes_statement`** — the rules that have a nonterminal of their own.
-/

namespace CodeMend

/-! ## Balanced groups

Groups of tokens in brackets are passed as a whole.  The scan for the bracket that closes them tells
how far they go. -/

namespace Scan

open Production

variable {ts : Array Token}

theorem lt_of_closing (hts : Ended ts) {opening close : String} {fuel depth i stop : Nat}
    (h : closing ts opening close fuel depth i = some stop) : i < stop ∧ stop < ts.size := by
  induction fuel generalizing depth i with
  | zero => cases h
  | succ fuel ih =>
    unfold closing at h
    dsimp only at h
    split at h
    · cases h
    next hkind =>
    have hlt : i + 1 < ts.size := by
      have hend := (hts.kind_eq_iff i).not.mp (by simpa using hkind)
      omega
    split at h
    · have hrest := ih h
      omega
    split at h
    · split at h
      · obtain rfl := Option.some.inj h
        omega
      · have hrest := ih h
        omega
    · have hrest := ih h
      omega

theorem closed_of_closing {opening close : String} {fuel depth i stop : Nat}
    (h : closing ts opening close fuel depth i = some stop) :
    (tokenAt ts (stop - 1)).isMark close = true := by
  induction fuel generalizing depth i with
  | zero => cases h
  | succ fuel ih =>
    unfold closing at h
    dsimp only at h
    split at h
    · cases h
    split at h
    · exact ih h
    split at h
    next hclose =>
      split at h
      · obtain rfl := Option.some.inj h
        exact hclose
      · exact ih h
    · exact ih h

/-- The last token of a group in square brackets closes it. -/
theorem closed_of_balanced {i stop : Nat} (h : balanced ts i = some stop)
    (hopening : (tokenAt ts i).text = "[") : (tokenAt ts (stop - 1)).isMark "]" = true := by
  unfold balanced at h
  rw [hopening] at h
  exact closed_of_closing h

/-- A group that opens at a place ends behind it and before the end of the file. -/
theorem lt_of_balanced (hts : Ended ts) {i stop : Nat} (h : balanced ts i = some stop) :
    i < stop ∧ stop < ts.size := by
  obtain ⟨close, -, hclosing⟩ := Option.bind_eq_some_iff.mp h
  have hrest := lt_of_closing hts hclosing
  omega

end Scan

namespace Parser

open Production TreeBuilder
open scoped Computability

/-- Tokens that follow one another, none of which ends the file. -/
theorem range'_mem_kstar {ts : Array Token} {n m : Nat} (h : n + m < ts.size) :
    (List.range' n m).map Shape.token ∈ (anyWord ts)∗ := by
  induction m generalizing n with
  | zero => exact nil_mem_kstar
  | succ m ih =>
    have hword : [Shape.token n] ∈ anyWord ts := ⟨n, by omega, trivial, rfl⟩
    exact append_mem_kstar hword (ih (n := n + 1) (by omega))

/-- Tokens that are passed one after the other. -/
theorem HasBuilt.tokens {c : Cursor} {f : OpenNode} {outer : List OpenNode}
    (h : HasBuilt c (f :: outer)) {m : Nat} (hm : c.pos + m ≤ c.tokens.size) :
    HasBuilt { c with
      pos := c.pos + m, builder := (List.range' c.pos m).foldl TreeBuilder.token c.builder }
      (f.add ((List.range' c.pos m).map .token) :: outer) := by
  induction m generalizing c f with
  | zero => simpa using h
  | succ m ih =>
    have hrest := ih (h.token (by omega)) (show c.pos + 1 + m ≤ c.tokens.size by omega)
    rw [OpenNode.add_add] at hrest
    rw [show c.pos + (m + 1) = c.pos + 1 + m by omega]
    exact hrest

/-- Passing tokens begins no node. -/
theorem size_foldl_token (b : TreeBuilder) (is : List TokenId) :
    (is.foldl TreeBuilder.token b).nodes.size = b.nodes.size := by
  induction is generalizing b with
  | nil => rfl
  | cons i is ih => exact (ih _).trans (TreeBuilder.size_token b i)

/-- Tokens up to a place ahead. -/
theorem Reads.bumpTo {ts : Array Token} {n : Checkpoint} {P : Cursor → Prop} {stop : Nat}
    (h : ∀ c, P c → c.pos < stop ∧ stop < ts.size) :
    Reads ts n P [] (Parser.bumpTo stop) (words ts) := by
  intro f outer c x c' _ hbuilt hc hpc hrun
  obtain ⟨hlt, hstop⟩ := h c hpc
  obtain ⟨c₀, c₁, hget, hrun⟩ := bind_eq_ok hrun
  cases hget
  have hbound : c.pos < stop ∧ stop ≤ c.tokens.size - 1 := by
    rw [hc.tokens_eq]
    omega
  rw [if_pos hbound] at hrun
  cases hrun
  -- Tokens alone begin no nodes, so only the stretch of tokens is added.
  have hleaves : ∀ l : List Nat, Shape.leavesOfList (l.map .token) = l := by
    intro l
    induction l with
    | nil => rfl
    | cons i l ih => simp [ih]
  have hids : ∀ l : List Nat, Shape.idsOfList (l.map .token) = [] := by
    intro l
    induction l with
    | nil => rfl
    | cons i l ih => simp [ih]
  have hlength : c.pos + (stop - c.pos) = stop := by omega
  rw [OpenNode.add_nil] at hbuilt
  have htokens := hbuilt.tokens (m := stop - c.pos) (by omega)
  rw [hlength] at htokens
  have hsize := size_foldl_token c.builder (List.range' c.pos (stop - c.pos))
  refine ⟨htokens, ⟨hc.tokens_eq, hstop⟩, ⟨hlt.le, ?_, hsize.ge, ?_⟩, ?_, ?_⟩
  · simp [hleaves]
  · simp [hids, hsize]
  · rw [range'_eq_cons_of_lt hlt]
    have hfirst : [Shape.token c.pos] ∈ anyWord ts := ⟨c.pos, by omega, trivial, rfl⟩
    exact Language.append_mem_mul hfirst (range'_mem_kstar (by omega))
  · intro s hs
    obtain ⟨i, -, rfl⟩ := List.mem_map.mp hs
    exact .token i

/-- Tokens up to a mark, which is the last of them. -/
theorem Reads.bumpTo_mark {ts : Array Token} {n : Checkpoint} {P : Cursor → Prop} {stop : Nat}
    {m : String}
    (h : ∀ c, P c → (c.pos < stop ∧ stop < ts.size) ∧ (tokenAt ts (stop - 1)).isMark m = true) :
    Reads ts n P [] (Parser.bumpTo stop) [(anyWord ts)∗, mark ts m].prod := by
  intro f outer c x c' hn hbuilt hc hpc hrun
  obtain ⟨⟨hlt, hstop⟩, hmark⟩ := h c hpc
  obtain ⟨hbuilt', hc', hadds, -, hall⟩ :=
    Reads.bumpTo (fun c hpc => (h c hpc).1) f outer c x c' hn hbuilt hc hpc hrun
  refine ⟨hbuilt', hc', hadds, ?_, hall⟩
  obtain ⟨c₀, c₁, hget, hrun⟩ := bind_eq_ok hrun
  cases hget
  have hbound : c.pos < stop ∧ stop ≤ c.tokens.size - 1 := by
    rw [hc.tokens_eq]
    omega
  rw [if_pos hbound] at hrun
  cases hrun
  have hlen : stop - c.pos = (stop - 1 - c.pos) + 1 := by omega
  have hlast : c.pos + (stop - 1 - c.pos) = stop - 1 := by omega
  rw [hlen, List.range'_1_concat, List.map_append, hlast]
  have hclose : [Shape.token (stop - 1)] ∈ Production.mark ts m :=
    ⟨stop - 1, by omega, hmark, rfl⟩
  exact append_mem_prod (range'_mem_kstar (by omega)) (mem_prod_singleton hclose)

end Parser

namespace Grammar

open CodeMend.Parser Production
open scoped Computability

section Statements

variable {ts : Array Token} {rules : Rules} {n : Checkpoint} {P : Cursor → Prop}
  {front : List Shape} (hts : Ended ts) (hr : Sound ts rules)

/-! ## Parts that members and statements share

What declarations of members and of local functions have in common. -/

include hts

include hr in
theorem makes_equalsValueClause :
    Makes ts n P [] (equalsValueClause rules) (IsA .equalsValueClause) := by
  refine Makes.node (.anew _) ((Reads.expect hts "=").seq_cons (Reads.single ?_))
  refine Yields.choose fun c₀ _ _ => ?_
  split
  · exact (makes_expression_of hr.initializer (by decide)).one
  · exact hr.expression.one

include hr in
theorem reads_optionalEqualsValue :
    Reads ts n P [] (optionalEqualsValue rules) (opt (a .equalsValueClause)) :=
  Reads.whenAt (makes_equalsValueClause hts hr).one

include hr in
theorem makes_variableDeclarator :
    Makes ts n P [] (variableDeclarator rules) (IsA .variableDeclarator) := by
  have hbody : ∀ {n}, Reads ts n anywhere [] (seq [expectIdentifier, optionalEqualsValue rules])
      [anyWord ts, opt (a .equalsValueClause)].prod :=
    ((Reads.expectIdentifier hts).mono word_le_anyWord).seq_cons
      (reads_optionalEqualsValue hts hr).single
  exact Makes.node (.anew _) (hbody.mono fun _ h => append_mem_prod nil_mem_opt h)

include hr in
theorem reads_moreDeclarators :
    Reads ts n P [] (moreDeclarators rules) ((mark ts "," * a .variableDeclarator)∗) := by
  have hnext : ∀ {n}, Reads ts n (fun c => c.atMark "," = true) []
      (seq [bump, one (variableDeclarator rules)]) [mark ts ",", a .variableDeclarator].prod :=
    (Reads.bump_mark hts fun _ h => h).seq_cons (makes_variableDeclarator hts hr).one.single
  refine (Reads.manyWhile hnext).mono ?_
  rw [List.prod_cons, List.prod_singleton]

include hr in
theorem makes_variableDeclaration :
    Makes ts n P [] (variableDeclaration rules) (IsA .variableDeclaration) := by
  have hbody : ∀ {n}, Reads ts n anywhere []
      (seq [one (rules (.type true)), one (variableDeclarator rules), moreDeclarators rules])
      [plainType, a .variableDeclarator, (mark ts "," * a .variableDeclarator)∗].prod :=
    (hr.type true).one.seq_cons <| (makes_variableDeclarator hts hr).one.seq_cons
      (reads_moreDeclarators hts hr).single
  refine Makes.node (.anew _) (hbody.mono (le_of_eq ?_))
  simp only [production, separated, List.prod_cons, List.prod_nil, mul_one]

theorem reads_attributeLists : Reads ts n P [] attributeLists ((a .attributeList)∗) := by
  refine Reads.manyWhile (Yields.choose fun c₀ hc₀ hat => ?_)
  split
  next stop hstop =>
    rw [hc₀.tokens_eq] at hstop
    have hopening : (tokenAt ts c₀.pos).text = "[" := by
      rw [← hc₀.tokens_eq]
      exact text_of_isMark hat
    have hclose := Scan.closed_of_balanced hstop hopening
    have hbody : ∀ {n}, Reads ts n (fun c => c.pos = c₀.pos) [] (bumpTo stop)
        (production ts .attributeList) :=
      Reads.bumpTo_mark fun c hc => ⟨hc ▸ Scan.lt_of_balanced hts hstop, hclose⟩
    exact Yields.at
      (Makes.one (Makes.node_at (.anew _) (fun _ _ h => h) (k := .attributeList) hbody)) rfl
  next => exact Yields.unexpected _

theorem makes_typeParameterList :
    Makes ts n P [] typeParameterList (IsA .typeParameterList) := by
  refine Yields.choose fun c₀ hc₀ _ => ?_
  split
  next stop hstop =>
    rw [hc₀.tokens_eq] at hstop
    have hbody : ∀ {n}, Reads ts n (fun c => c.pos = c₀.pos) [] (bumpTo stop) (words ts) :=
      Reads.bumpTo fun c hc => hc ▸ Scan.lt_of_balanced hts hstop
    exact Yields.at (Makes.node_at (.anew _) (fun _ _ h => h) (k := .typeParameterList) hbody) rfl
  next => exact Yields.unexpected _

theorem reads_optionalTypeParameters :
    Reads ts n P [] optionalTypeParameters (opt (a .typeParameterList)) :=
  Reads.whenAt (makes_typeParameterList hts).one

omit hts in
theorem isParameterModifier_of_at {c : Cursor} (h : atParameterModifier c = true) :
    IsParameterModifier c.current ∧ Ahead c := by
  simp only [atParameterModifier, Bool.or_eq_true, Bool.and_eq_true, beq_iff_eq] at h
  rcases h with h | h
  · exact ⟨.inl h.1, by simp [Ahead, h.1]⟩
  · exact ⟨.inr h.1, ahead_of_atContextual h.1⟩

include hr in
theorem makes_parameter : Makes ts n P [] (parameter rules) (IsA .parameter) := by
  have hmodifiers : ∀ {n}, Reads ts n anywhere [] (manyWhile atParameterModifier bump)
      ((word ts IsParameterModifier)∗) :=
    Reads.manyWhile (Reads.bump hts fun _ h => isParameterModifier_of_at h)
  have hbody := Reads.seq_cons (n := 0) (P := anywhere) (reads_attributeLists hts) <|
    hmodifiers.seq_cons <| (hr.type true).one.seq_cons <|
    (Reads.expectIdentifier hts).seq_cons (reads_optionalEqualsValue hts hr).single
  exact Makes.node (.anew _) (hbody.mono fun _ hx => .inl hx)

include hr in
theorem makes_parameterList : Makes ts n P [] (parameterList rules) (IsA .parameterList) := by
  refine Makes.node (.anew _) ?_
  exact (Reads.expect hts "(").seq_cons <|
    ((Reads.whenAt (Reads.commaSeparated hts (makes_parameter hts hr).one)).mono
      opt_separated_le).seq_cons <|
    (Reads.expect hts ")").single

include hr in
theorem makes_arrowExpressionClause :
    Makes ts n P [] (arrowExpressionClause rules) (IsA .arrowExpressionClause) :=
  Makes.node (.anew _) ((Reads.expect hts "=>").seq_cons hr.expression.one.single)

include hr in
/-- The body of a member is there, if only as a semicolon. -/
theorem reads_memberBody :
    Reads ts n P [] (Grammar.memberBody rules) (Production.memberBody ts) := by
  refine Yields.choose fun c₀ _ _ => ?_
  split
  · exact hr.block.one.mono fun _ h => .inl (.inl h)
  split
  · exact ((makes_arrowExpressionClause hts hr).one.seq_cons (Reads.expect hts ";").single).mono
      fun _ h => .inl (.inr h)
  · exact (Reads.expect hts ";").mono fun _ h => .inr h

/-! ## Statements

Each statement is read off its rule. -/

include hr in
theorem makes_block : Makes ts n P [] (block rules) (IsA .block) := by
  have hbody : ∀ {n}, Reads ts n anywhere []
      (seq [expect "\x7b", untilBrace (one (rules .statement))])
      [mark ts "\x7b", [stmt∗, mark ts "\x7d"].prod].prod :=
    (Reads.expect hts "\x7b").seq_cons (Reads.untilBrace hts hr.statement.one).single
  refine Makes.node (.anew _) (hbody.mono (le_of_eq ?_))
  simp only [production, enclosed, List.prod_cons, List.prod_nil, mul_one]

/-- A statement of one token and a semicolon. -/
theorem makes_simpleStatement {k : NodeKind} (hk : production ts k = [anyWord ts, mark ts ";"].prod)
    (hsort : k.isStatement = true) :
    Makes ts n Ahead [] (simpleStatement k) IsStatement := by
  have hnode : ∀ {n}, Makes ts n Ahead [] (simpleStatement k) (IsA k) :=
    Makes.node_ahead (.anew _) (hk ▸ (Reads.bump_ahead hts).seq_cons (Reads.expect hts ";").single)
  exact Yields.mono hnode (fun _ h => h) fun _ hs => isStatement_of hs hsort

include hr in
theorem reads_condition : Reads ts n P [] (condition rules) (parenthesized ts) :=
  (Reads.expect hts "(").seq_cons <| hr.expression.one.seq_cons (Reads.expect hts ")").single

include hr in
/-- A keyword, an optional expression and a semicolon. -/
theorem makes_returnLike {k : NodeKind}
    (hk : production ts k = [anyWord ts, opt (expr ts), mark ts ";"].prod) :
    Makes ts n Ahead [] (returnLike rules k) (IsA k) := by
  refine Makes.node_ahead (.anew _) (hk ▸ ?_)
  exact (Reads.bump_ahead hts).seq_cons <|
    (Reads.whenAt hr.expression.one).seq_cons (Reads.expect hts ";").single

include hr in
theorem makes_yieldReturn : Makes ts n Ahead [] (yieldReturn rules) (IsA .yieldReturnStatement) :=
  Makes.node_ahead (.anew _) <| (Reads.bump_ahead hts).seq_cons <|
    (Reads.bump_loose hts).seq_cons <| hr.expression.one.seq_cons (Reads.expect hts ";").single

theorem makes_yieldBreak : Makes ts n Ahead [] yieldBreak (IsA .yieldBreakStatement) :=
  Makes.node_ahead (.anew _) <| (Reads.bump_ahead hts).seq_cons <| (Reads.bump_loose hts).seq_cons
    (Reads.expect hts ";").single

include hr in
theorem makes_expressionStatement :
    Makes ts n P [] (expressionStatement rules) (IsA .expressionStatement) :=
  Makes.node (.anew _) <| hr.expression.one.seq_cons (Reads.expect hts ";").single

include hr in
theorem makes_ifStatement : Makes ts n Ahead [] (ifStatement rules) (IsA .ifStatement) := by
  have helse : ∀ {n}, Makes ts n (fun c => c.atWord "else" = true) [] (elseClause rules)
      (IsA .elseClause) :=
    Makes.node_at (.anew _) (fun _ _ h => h) <|
      (Reads.bump_any hts fun _ h => ahead_of_atWord h).seq_cons hr.statement.one.single
  exact Makes.node_ahead (.anew _) <| (Reads.bump_ahead hts).seq_cons <|
    (reads_condition hts hr).seq_cons <| hr.statement.one.seq_cons (Reads.whenAt helse.one).single

include hr in
/-- A keyword, a condition and a statement. -/
theorem makes_guarded {k : NodeKind}
    (hk : production ts k = [anyWord ts, parenthesized ts, stmt].prod) :
    Makes ts n Ahead [] (guarded rules k) (IsA k) :=
  Makes.node_ahead (.anew _) <| hk ▸ (Reads.bump_ahead hts).seq_cons
    ((reads_condition hts hr).seq_cons hr.statement.one.single)

include hr in
theorem makes_doStatement : Makes ts n Ahead [] (doStatement rules) (IsA .doStatement) :=
  Makes.node_ahead (.anew _) <| (Reads.bump_ahead hts).seq_cons <| hr.statement.one.seq_cons <|
    ((Reads.expectWord hts "while").mono word_le_anyWord).seq_cons <|
    (reads_condition hts hr).seq_cons (Reads.expect hts ";").single

include hr in
theorem makes_forStatement :
    Makes ts n (fun c => c.current.kind = .keyword) [] (forStatement rules)
      (IsA .forStatement) := by
  have hword : ∀ {n}, Reads ts n (fun c => c.current.kind = .keyword) [] bump
      (word ts fun t => t.kind = .keyword) :=
    Reads.bump hts fun c h => ⟨h, by simp [Ahead, h]⟩
  have hlist : ∀ {n}, Reads ts n anywhere [] (expressionList rules) (separated ts (expr ts)) :=
    Reads.commaSeparated hts hr.expression.one
  have hhead : ∀ {n}, Reads ts n anywhere [] (choose fun c =>
      if atLocalDeclaration c then one (variableDeclaration rules)
      else whenAt (fun c => !c.atMark ";") (expressionList rules)) (beforeLoop ts) := by
    refine Yields.choose fun c₀ _ _ => ?_
    split
    · exact (makes_variableDeclaration hts hr).one.mono fun _ h => Or.inl h
    · exact (Reads.whenAt hlist.here).mono fun _ h => Or.inr h
  exact Makes.node_at (.anew _) (fun _ _ h => h) <| hword.seq_cons <|
    (Reads.expect hts "(").seq_cons <| hhead.seq_cons <| (Reads.expect hts ";").seq_cons <|
    (Reads.whenAt hr.expression.one).seq_cons <| (Reads.expect hts ";").seq_cons <|
    (Reads.whenAt hlist.here).seq_cons <|
    (Reads.expect hts ")").seq_cons hr.statement.one.single

include hr in
theorem makes_forEachStatement :
    Makes ts n Ahead [] (forEachStatement rules) (IsA .forEachStatement) :=
  Makes.node_ahead (.anew _) <| (Reads.bump_ahead hts).seq_cons <|
    (Reads.expect hts "(").seq_cons <| (hr.type true).one.seq_cons <|
    ((Reads.expectIdentifier hts).mono word_le_anyWord).seq_cons <|
    ((Reads.expectWord hts "in").mono word_le_anyWord).seq_cons <|
    hr.expression.one.seq_cons <| (Reads.expect hts ")").seq_cons hr.statement.one.single

/-! ## Statements with sections

Sections and clauses may be repeated, so these rules are loops. -/

include hr in
theorem makes_catchClause :
    Makes ts n (fun c => c.atWord "catch" = true) [] (catchClause rules) (IsA .catchClause) := by
  have hdeclaration : ∀ {n}, Makes ts n (fun c => c.atMark "(" = true) [] (catchDeclaration rules)
      (IsA .catchDeclaration) :=
    Makes.node_at (.anew _) (fun _ _ h => h) <|
      (Reads.bump_any hts fun _ h => ahead_of_atMark h).seq_cons <| (hr.type true).one.seq_cons <|
      (Reads.whenAt (Reads.bump_any hts fun _ h => ahead_of_atIdentifier h)).seq_cons
        (Reads.expect hts ")").single
  have hfilter : ∀ {n}, Reads ts n (fun c => c.atContextual "when" = true) []
      (seq [bump, condition rules]) [anyWord ts, parenthesized ts].prod :=
    (Reads.bump_any hts fun _ h => ahead_of_atContextual h).seq_cons (reads_condition hts hr).single
  exact Makes.node_at (.anew _) (fun _ _ h => h) <|
    (Reads.bump_any hts fun _ h => ahead_of_atWord h).seq_cons <|
    (Reads.whenAt hdeclaration.one).seq_cons <|
    (Reads.whenAt hfilter).seq_cons (makes_block hts hr).one.single

include hr in
theorem makes_tryStatement : Makes ts n Ahead [] (tryStatement rules) (IsA .tryStatement) := by
  have hfinally : ∀ {n}, Makes ts n (fun c => c.atWord "finally" = true) []
      (node .finallyClause (seq [bump, one (block rules)])) (IsA .finallyClause) :=
    Makes.node_at (.anew _) (fun _ _ h => h) <|
      (Reads.bump_any hts fun _ h => ahead_of_atWord h).seq_cons (makes_block hts hr).one.single
  exact Makes.node_ahead (.anew _) <| (Reads.bump_ahead hts).seq_cons <|
    (makes_block hts hr).one.seq_cons <| (Reads.manyWhile (makes_catchClause hts hr).one).seq_cons
      (Reads.whenAt hfinally.one).single

include hr in
theorem makes_switchLabel :
    Makes ts n (fun c => atSwitchLabel c = true) [] (switchLabel rules) IsLabel := by
  refine Yields.choose fun c₀ _ hat => ?_
  split
  next hdefault =>
    refine Yields.at (P := Ahead) ?_ (ahead_of_atWord hdefault)
    refine Yields.mono (Makes.node_ahead (.anew _) (k := .defaultSwitchLabel) ?_) (fun _ h => h)
      fun _ hs => hs.mono fun _ => Or.inr
    exact (Reads.bump_ahead hts).seq_cons (Reads.bump_loose hts).single
  next hdefault =>
    have hcase : c₀.atWord "case" = true := by
      simpa [atSwitchLabel, hdefault] using hat
    have hvalue : ∀ {n}, Reads ts n anywhere [] (choose fun c =>
        let followers : Scan.Followers := { marks := [":"], words := ["when"] }
        if (Scan.typedName? c.tokens c.pos followers).isSome then
          one (declarationPattern rules true)
        else one (rules .expression)) (a .declarationPattern + expr ts) := by
      refine Yields.choose fun c₁ _ _ => ?_
      dsimp only
      split
      · exact (makes_declarationPattern hts hr true).one.mono fun _ h => Or.inl h
      · exact hr.expression.one.mono fun _ h => Or.inr h
    have hfilter : ∀ {n}, Reads ts n (fun c => c.atContextual "when" = true) []
        (seq [bump, one (rules .expression)]) [anyWord ts, expr ts].prod :=
      (Reads.bump_any hts fun _ h => ahead_of_atContextual h).seq_cons hr.expression.one.single
    refine Yields.at (P := Ahead) ?_ (ahead_of_atWord hcase)
    refine Yields.mono (Makes.node_ahead (.anew _) (k := .caseSwitchLabel) ?_) (fun _ h => h)
      fun _ hs => hs.mono fun _ => Or.inl
    exact (Reads.bump_ahead hts).seq_cons <| hvalue.seq_cons <|
      (Reads.whenAt hfilter).seq_cons (Reads.expect hts ":").single

include hr in
theorem makes_switchSection :
    Makes ts n (fun c => atSwitchLabel c = true) [] (switchSection rules) (IsA .switchSection) := by
  have hbody : ∀ {n}, Reads ts n (fun c => atSwitchLabel c = true) [] (seq [
      manyWhile atSwitchLabel (one (switchLabel rules)),
      manyWhile (fun c => !(c.atMark "\x7d" || c.atWord "case" || c.atWord "default" || c.atEnd))
        (one (rules .statement))])
      [part IsLabel * (part IsLabel)∗, stmt∗].prod :=
    (Reads.manyWhile_of_at (makes_switchLabel hts hr).one fun _ h => h).seq_cons
      (Reads.manyWhile hr.statement.one).single
  refine Makes.node_at (.anew _) (fun _ _ h => h) (hbody.mono (le_of_eq ?_))
  simp only [production, List.prod_cons, List.prod_nil, mul_one, mul_assoc]

include hr in
theorem makes_switchStatement :
    Makes ts n Ahead [] (switchStatement rules) (IsA .switchStatement) := by
  have hsection : ∀ {n}, Reads ts n (fun c => (!c.atMark "\x7d") = true) [] (choose fun c =>
      if atSwitchLabel c then one (switchSection rules) else unexpected "'case' or 'default'")
      (a .switchSection) := by
    refine Yields.choose fun c₀ _ _ => ?_
    split
    next hat => exact Yields.at (makes_switchSection hts hr).one hat
    next => exact Yields.unexpected _
  exact Makes.node_ahead (.anew _) <| (Reads.bump_ahead hts).seq_cons <|
    (reads_condition hts hr).seq_cons <| (Reads.expect hts "\x7b").seq_cons <|
    Reads.manyWhile_cons hsection (Reads.bump_mark hts fun c hc => by simpa using hc).single

/-! ## Local declarations and functions

Scans tell these from expressions before anything is read. -/

include hr in
theorem makes_localDeclaration :
    Makes ts n P [] (localDeclaration rules) (IsA .localDeclarationStatement) :=
  Makes.node (.anew _) <|
    (Reads.whenAt (Reads.bump_any hts fun _ h => ahead_of_atWord h)).seq_cons <|
    (Reads.whenAt (Reads.bump_any hts fun _ h => ahead_of_atWord h)).seq_cons <|
    (makes_variableDeclaration hts hr).one.seq_cons (Reads.expect hts ";").single

include hr in
theorem makes_usingStatement : Makes ts n Ahead [] (usingStatement rules) IsStatement := by
  have hresource : ∀ {n}, Reads ts n anywhere [] (choose fun c =>
      if atLocalDeclaration c then one (variableDeclaration rules) else one (rules .expression))
      (a .variableDeclaration + expr ts) := by
    refine Yields.choose fun c₀ _ _ => ?_
    split
    · exact (makes_variableDeclaration hts hr).one.mono fun _ h => Or.inl h
    · exact hr.expression.one.mono fun _ h => Or.inr h
  refine Yields.choose fun c₀ _ hahead => ?_
  split
  · exact Yields.mono (makes_localDeclaration hts hr) (fun _ h => h) fun _ hs =>
      isStatement_of hs rfl
  · refine Yields.at (P := Ahead) ?_ hahead
    refine Yields.mono (Makes.node_ahead (.anew _) (k := .usingStatement) ?_) (fun _ h => h)
      fun _ hs => isStatement_of hs rfl
    exact (Reads.bump_ahead hts).seq_cons <| (Reads.expect hts "(").seq_cons <|
      hresource.seq_cons <| (Reads.expect hts ")").seq_cons hr.statement.one.single

theorem makes_localConstraintClause :
    Makes ts n (fun c => c.atContextual "where" = true) [] localConstraintClause
      (IsA .typeParameterConstraintClause) := by
  have hbump : ∀ {n}, Reads ts n
      (fun c => (!(c.atMark "\x7b" || c.atMark "=>" || c.atEnd)) = true) [] bump (anyWord ts) := by
    refine Reads.bump_any hts fun c hc => ?_
    simp only [Bool.not_eq_true', Bool.or_eq_false_iff] at hc
    simpa [Ahead, Cursor.atEnd] using hc.2
  have hbody := Reads.manyWhile_of_at hbump (n := 0)
    (P := fun c => c.atContextual "where" = true) ?_
  · exact Makes.node_at (.anew _) (fun _ _ h => h) hbody
  · -- the word itself is no mark and does not end the file
    intro c hc
    have hkind := kind_of_isContextual hc
    simp [Cursor.atMark, Token.isMark, Cursor.atEnd, hkind]

include hr in
theorem makes_localFunction :
    Makes ts n P [] (localFunction rules) (IsA .localFunctionStatement) := by
  have hmodifiers : ∀ {n}, Reads ts n anywhere []
      (manyWhile (fun c => c.atWord "static" || c.atContextual "async" || c.atWord "unsafe") bump)
      ((anyWord ts)∗) := by
    refine Reads.manyWhile (Reads.bump_any hts fun c hc => ?_)
    simp only [Bool.or_eq_true] at hc
    rcases hc with (hc | hc) | hc
    · exact ahead_of_atWord hc
    · exact ahead_of_atContextual hc
    · exact ahead_of_atWord hc
  have hconstraints : ∀ {n}, Reads ts n anywhere []
      (manyWhile (·.atContextual "where") (one localConstraintClause))
      ((a .typeParameterConstraintClause)∗) :=
    Reads.manyWhile (makes_localConstraintClause hts).one
  have hbody := hmodifiers.seq_cons (n := 0) <| (hr.type true).one.seq_cons <|
    (Reads.expectIdentifier hts).seq_cons <| (reads_optionalTypeParameters hts).seq_cons <|
    (makes_parameterList hts hr).one.seq_cons <| hconstraints.seq_cons
      (reads_memberBody hts hr).single
  exact Yields.here <| Makes.node_something (.anew _) (fun _ _ h => h) hbody (by simp) rfl

/-! ## Which statement it is

What begins with a word is told by it, and what is left is an expression. -/

include hr in
theorem makes_keywordStatement {c₀ : Cursor} {word : String} {p : Parser Shape}
    (hkeyword : c₀.current.kind = .keyword) (h : keywordStatement? rules word = some p) :
    Makes ts n (· = c₀) [] p IsStatement := by
  have hahead : Ahead c₀ := by simp [Ahead, hkeyword]
  have hof : ∀ {k : NodeKind} {p : Parser Shape}, Makes ts n Ahead [] p (IsA k) →
      k.isStatement = true → Makes ts n (· = c₀) [] p IsStatement := fun hp hk =>
    Yields.mono (Yields.at hp hahead) (fun _ h => h) fun _ hs => isStatement_of hs hk
  unfold keywordStatement? at h
  split at h <;> cases h
  · exact hof (makes_ifStatement hts hr) rfl
  · exact hof (makes_guarded hts hr rfl) rfl
  · exact hof (makes_doStatement hts hr) rfl
  · exact Yields.mono (Yields.at (makes_forStatement hts hr) hkeyword) (fun _ h => h) fun _ hs =>
      isStatement_of hs rfl
  · exact hof (makes_forEachStatement hts hr) rfl
  · exact hof (makes_returnLike hts hr rfl) rfl
  · exact hof (makes_returnLike hts hr rfl) rfl
  · exact Yields.at (makes_simpleStatement hts rfl rfl) hahead
  · exact Yields.at (makes_simpleStatement hts rfl rfl) hahead
  · exact hof (makes_tryStatement hts hr) rfl
  · exact hof (makes_switchStatement hts hr) rfl
  · exact hof (makes_guarded hts hr rfl) rfl
  · exact Yields.at (makes_usingStatement hts hr) hahead
  · exact hof (makes_localDeclaration hts hr) rfl
  · exact hof (makes_localFunction hts hr) rfl

include hr in
theorem makes_announcedStatement {c₀ : Cursor} {p : Parser Shape}
    (h : announcedStatement? rules c₀ = some p) : Makes ts n (· = c₀) [] p IsStatement := by
  have hof : ∀ {k : NodeKind} {p : Parser Shape}, Makes ts n Ahead [] p (IsA k) → Ahead c₀ →
      k.isStatement = true → Makes ts n (· = c₀) [] p IsStatement := fun hp hahead hk =>
    Yields.mono (Yields.at hp hahead) (fun _ h => h) fun _ hs => isStatement_of hs hk
  unfold announcedStatement? at h
  dsimp only at h
  split at h
  next hkind =>
    have hahead : Ahead c₀ := by simp [Ahead, hkind]
    split at h
    · obtain rfl := Option.some.inj h
      exact hof (makes_block hts hr) hahead rfl
    split at h
    · obtain rfl := Option.some.inj h
      exact Yields.at (makes_simpleStatement hts rfl rfl) hahead
    · cases h
  -- Marks, keywords and words that are keywords in their place only are told apart first.
  next hkind => exact makes_keywordStatement hts hr hkind h
  next hkind =>
    have hahead : Ahead c₀ := by simp [Ahead, hkind]
    split at h
    · obtain rfl := Option.some.inj h
      exact hof (makes_yieldReturn hts hr) hahead rfl
    split at h
    · obtain rfl := Option.some.inj h
      exact hof (makes_yieldBreak hts) hahead rfl
    split at h
    · obtain rfl := Option.some.inj h
      exact hof (makes_localFunction hts hr) hahead rfl
    · cases h
  next => cases h

include hr in
/-- **Statements are nodes of statements.** -/
theorem makes_statement : Makes ts n P [] (statement rules) IsStatement := by
  have hof : ∀ {P : Cursor → Prop} {k : NodeKind} {p : Parser Shape}, Makes ts n P [] p (IsA k) →
      k.isStatement = true → Makes ts n P [] p IsStatement := fun hp hk =>
    Yields.mono hp (fun _ h => h) fun _ hs => isStatement_of hs hk
  refine Yields.choose fun c₀ _ _ => ?_
  split
  next p hp => exact makes_announcedStatement hts hr hp
  next =>
  split
  · exact hof (makes_localDeclaration hts hr) rfl
  split
  · exact hof (makes_localFunction hts hr) rfl
  · exact hof (makes_expressionStatement hts hr) rfl

end Statements

end Grammar

end CodeMend
