import CodeMend.Proofs.Grammar.Statements
import CodeMend.Proofs.Grammar.Progress.Expressions

/-!
# CodeMend — the rules for statements go on

Every keyword takes itself before it asks for a condition or a statement.  A statement that no token
announces begins with a type or an expression, so the rule for statements needs one count more than
those.

* **`Goes.bumpTo`** — a group that a scan has found is taken as a whole.
* **`goes_block`**, **`goes_statement`** — the rules that have a nonterminal of their own.
-/

namespace CodeMend

/-- Tokens up to a place ahead. -/
theorem Parser.Goes.bumpTo {ts : Array Token} {n stop : Nat} {P : Cursor → Prop}
    (h : ∀ c, P c → c.pos < stop ∧ stop < ts.size) : Goes ts n P 1 (Parser.bumpTo stop) := by
  intro c hc _ hpc
  obtain ⟨hlt, hstop⟩ := h c hpc
  have hbound : c.pos < stop ∧ stop ≤ c.tokens.size - 1 := by
    rw [hc.tokens_eq]
    omega
  have hrun : Parser.bumpTo stop c =
      .ok ((List.range' c.pos (stop - c.pos)).map .token, { c with
        pos := stop
        builder := (List.range' c.pos (stop - c.pos)).foldl TreeBuilder.token c.builder }) := by
    show (if c.pos < stop ∧ stop ≤ c.tokens.size - 1 then _ else _ : Parser _) c = _
    rw [if_pos hbound]
    rfl
  rw [hrun]
  exact ⟨⟨hc.tokens_eq, hstop⟩, hlt⟩

namespace Grammar

open CodeMend.Parser Production

section Statements

variable {ts : Array Token} {level n : Nat} {rules : Rules} {P : Cursor → Prop}
  (hts : Ended ts) (hr : Ready ts level rules)

/-! ## Parts that members and statements share

These are asked for by declarations and by statements, and take a token each unless they may be
missing. -/

include hts

/-- A group of tokens whose end a scan tells. -/
theorem goes_group {k : NodeKind} {c₀ : Cursor} {stop : Nat} (hc₀ : Inside ts c₀)
    (hstop : Scan.balanced c₀.tokens c₀.pos = some stop) :
    Goes ts n (· = c₀) 1 (node k (bumpTo stop)) := by
  rw [hc₀.tokens_eq] at hstop
  have hbound : Goes ts n (fun c => c.pos = c₀.pos) 1 (bumpTo stop) :=
    Goes.bumpTo fun c hc => hc ▸ Scan.lt_of_balanced hts hstop
  exact (hbound.node k fun _ _ h => h).at rfl

theorem goes_attributeLists : Goes ts n P 0 attributeLists := by
  refine Goes.manyWhile (Goes.choose fun c₀ hc₀ _ _ => ?_)
  split
  next stop hstop => exact (goes_group hts hc₀ hstop).one
  next => exact .unexpected _

theorem goes_typeParameterList : Goes ts n P 1 typeParameterList := by
  refine Goes.choose fun c₀ hc₀ _ _ => ?_
  split
  next stop hstop => exact goes_group hts hc₀ hstop
  next => exact .unexpected _

theorem goes_optionalTypeParameters : Goes ts n P 0 optionalTypeParameters :=
  Goes.whenAt (goes_typeParameterList hts).one

include hr

theorem goes_equalsValueClause (hn : level ≤ 2 * n + 2) :
    Goes ts n P 1 (equalsValueClause rules) := by
  have hvalue : Goes ts (n + 1) anywhere 1
      (choose fun c => one (rules (if c.atMark "\x7b" then .initializer else .expression))) := by
    refine Goes.choose fun c₀ _ _ _ => ?_
    split
    · exact (hr.initializer (by omega)).one
    · exact (hr.expression (by omega)).one
  exact goes_node <| .atLeast ((Goes.expect hts "=").seq_cons hvalue.single) (by omega)

theorem goes_optionalEqualsValue (hn : level ≤ 2 * n + 2) :
    Goes ts n P 0 (optionalEqualsValue rules) :=
  Goes.whenAt (goes_equalsValueClause hts hr hn).one

theorem goes_variableDeclarator (hn : level ≤ 2 * n + 2) :
    Goes ts n P 1 (variableDeclarator rules) :=
  goes_node <| .atLeast (
    (Goes.expectIdentifier hts).seq_cons
      (goes_optionalEqualsValue hts hr (by omega)).single) (by omega)

theorem goes_moreDeclarators (hn : level ≤ 2 * n + 2) : Goes ts n P 0 (moreDeclarators rules) :=
  Goes.manyWhile <| .atLeast (
    (Goes.bump_any hts fun _ => ahead_of_atMark).seq_cons
      (goes_variableDeclarator hts hr (by omega)).one.single) (by omega)

theorem goes_variableDeclaration (hn : level ≤ 2 * n + 1) :
    Goes ts n P 1 (variableDeclaration rules) :=
  goes_node <| .atLeast (
    (hr.type (by omega) true).one.seq_cons <|
      (goes_variableDeclarator hts hr (by omega)).one.seq_cons
        (goes_moreDeclarators hts hr (by omega)).single) (by omega)

theorem goes_parameter (hn : level ≤ 2 * n + 1) : Goes ts n P 1 (parameter rules) :=
  goes_node <| .atLeast (
    (goes_attributeLists hts).seq_cons <|
      (Goes.manyWhile (Goes.bump_any hts fun _ h => (isParameterModifier_of_at h).2)).seq_cons <|
      (hr.type (by omega) true).one.seq_cons <| (Goes.expectIdentifier hts).seq_cons
        (goes_optionalEqualsValue hts hr (by omega)).single) (by omega)

theorem goes_parameterList (hn : level ≤ 2 * n + 2) : Goes ts n P 1 (parameterList rules) :=
  goes_node <| .atLeast (
    (Goes.expect hts "(").seq_cons <|
      (Goes.whenAt (Goes.here
        (Goes.commaSeparated hts (goes_parameter hts hr (by omega)).one))).seq_cons
        (Goes.expect hts ")").single) (by omega)

theorem goes_arrowExpressionClause (hn : level ≤ 2 * n + 2) :
    Goes ts n P 1 (arrowExpressionClause rules) :=
  goes_node <| .atLeast (
    (Goes.expect hts "=>").seq_cons (hr.expression (by omega)).one.single) (by omega)

theorem goes_memberBody (hn : level ≤ 2 * n + 1) : Goes ts n P 1 (memberBody rules) := by
  refine Goes.choose fun c₀ _ _ _ => ?_
  split
  · exact (hr.block hn).one
  split
  · exact .atLeast ((goes_arrowExpressionClause hts hr (by omega)).one.seq_cons
      (Goes.expect hts ";").single) (by omega)
  · exact Goes.expect hts ";"

/-- **The rule for blocks goes on.** -/
theorem goes_block (hn : level ≤ 2 * n + 2) : Goes ts n P 1 (block rules) :=
  goes_node <| .atLeast (
    (Goes.expect hts "\x7b").seq_cons
      (Goes.untilBrace (hr.statement (by omega)).one).single) (by omega)

/-! ## Statements

Most statements begin with a word of their own. -/

omit hr in
theorem goes_simpleStatement (k : NodeKind) : Goes ts n Ahead 1 (simpleStatement k) :=
  goes_node_ahead <| .atLeast (
    (Goes.bump_ahead hts).seq_cons (Goes.expect hts ";").single) (by omega)

theorem goes_returnLike (hn : level ≤ 2 * n + 2) (k : NodeKind) :
    Goes ts n Ahead 1 (returnLike rules k) :=
  goes_node_ahead <| .atLeast (
    (Goes.bump_ahead hts).seq_cons <| (Goes.whenAt (hr.expression (by omega)).one).seq_cons
      (Goes.expect hts ";").single) (by omega)

theorem goes_yieldReturn (hn : level ≤ 2 * n + 2) : Goes ts n Ahead 1 (yieldReturn rules) :=
  goes_node_ahead <| .atLeast (
    (Goes.bump_ahead hts).seq_cons <| Goes.bump.seq_cons <|
      (hr.expression (by omega)).one.seq_cons (Goes.expect hts ";").single) (by omega)

omit hr in
theorem goes_yieldBreak : Goes ts n Ahead 1 yieldBreak :=
  goes_node_ahead <| .atLeast (
    (Goes.bump_ahead hts).seq_cons <| Goes.bump.seq_cons (Goes.expect hts ";").single) (by omega)

theorem goes_expressionStatement (hn : level ≤ 2 * n + 1) :
    Goes ts n P 1 (expressionStatement rules) :=
  goes_node <| .atLeast (
    (hr.expression (by omega)).one.seq_cons (Goes.expect hts ";").single) (by omega)

theorem goes_condition (hn : level ≤ 2 * n + 2) : Goes ts n P 1 (condition rules) :=
  .atLeast (
    (Goes.expect hts "(").seq_cons <| (hr.expression (by omega)).one.seq_cons
      (Goes.expect hts ")").single) (by omega)

omit hts in
theorem goes_elseClause (hn : level ≤ 2 * n) : Goes ts n P 1 (elseClause rules) :=
  goes_node <| .atLeast (Goes.bump.seq_cons (hr.statement (by omega)).one.single) (by omega)

theorem goes_ifStatement (hn : level ≤ 2 * n + 2) : Goes ts n Ahead 1 (ifStatement rules) :=
  goes_node_ahead <| .atLeast (
    (Goes.bump_ahead hts).seq_cons <| (goes_condition hts hr (by omega)).seq_cons <|
      (hr.statement (by omega)).one.seq_cons
        (Goes.whenAt (goes_elseClause hr (by omega)).one).single) (by omega)

theorem goes_guarded (hn : level ≤ 2 * n + 2) (k : NodeKind) :
    Goes ts n Ahead 1 (guarded rules k) :=
  goes_node_ahead <| .atLeast (
    (Goes.bump_ahead hts).seq_cons <| (goes_condition hts hr (by omega)).seq_cons
      (hr.statement (by omega)).one.single) (by omega)

theorem goes_doStatement (hn : level ≤ 2 * n + 2) : Goes ts n Ahead 1 (doStatement rules) :=
  goes_node_ahead <| .atLeast (
    (Goes.bump_ahead hts).seq_cons <| (hr.statement (by omega)).one.seq_cons <|
      (Goes.expectWord hts "while").seq_cons <| (goes_condition hts hr (by omega)).seq_cons
        (Goes.expect hts ";").single) (by omega)

theorem goes_expressionList (hn : level ≤ 2 * n + 1) : Goes ts n P 1 (expressionList rules) :=
  Goes.here (Goes.commaSeparated hts (hr.expression hn).one)

theorem goes_forStatement (hn : level ≤ 2 * n + 2) : Goes ts n Ahead 1 (forStatement rules) := by
  have hstart : Goes ts (n + 1 + 1) anywhere 0 (choose fun c =>
      if atLocalDeclaration c then one (variableDeclaration rules)
      else whenAt (fun c => !c.atMark ";") (expressionList rules)) := by
    refine Goes.choose fun c₀ _ _ _ => ?_
    split
    · exact (goes_variableDeclaration hts hr (by omega)).one.atLeast (Nat.zero_le _)
    · exact Goes.whenAt (goes_expressionList hts hr (by omega))
  exact goes_node_ahead <| .atLeast (
    (Goes.bump_ahead hts).seq_cons <| (Goes.expect hts "(").seq_cons <| hstart.seq_cons <|
      (Goes.expect hts ";").seq_cons <| (Goes.whenAt (hr.expression (by omega)).one).seq_cons <|
      (Goes.expect hts ";").seq_cons <|
      (Goes.whenAt (goes_expressionList hts hr (by omega))).seq_cons <|
      (Goes.expect hts ")").seq_cons (hr.statement (by omega)).one.single) (by omega)

theorem goes_forEachStatement (hn : level ≤ 2 * n + 2) :
    Goes ts n Ahead 1 (forEachStatement rules) :=
  goes_node_ahead <| .atLeast (
    (Goes.bump_ahead hts).seq_cons <| (Goes.expect hts "(").seq_cons <|
      (hr.type (by omega) true).one.seq_cons <| (Goes.expectIdentifier hts).seq_cons <|
      (Goes.expectWord hts "in").seq_cons <| (hr.expression (by omega)).one.seq_cons <|
      (Goes.expect hts ")").seq_cons (hr.statement (by omega)).one.single) (by omega)

theorem goes_catchDeclaration (hn : level ≤ 2 * n + 1) : Goes ts n P 1 (catchDeclaration rules) :=
  goes_node <| .atLeast (
    Goes.bump.seq_cons <| (hr.type (by omega) true).one.seq_cons <|
      (Goes.whenAt Goes.bump).seq_cons (Goes.expect hts ")").single) (by omega)

theorem goes_catchClause (hn : level ≤ 2 * n + 1) : Goes ts n P 1 (catchClause rules) := by
  have hfilter : ∀ {m : Nat}, n ≤ m → Goes ts m (fun c => c.atContextual "when" = true) 1
      (seq [bump, condition rules]) := fun hm =>
    .atLeast (Goes.bump.seq_cons (goes_condition hts hr (by omega)).single) (by omega)
  exact goes_node <| .atLeast (
    Goes.bump.seq_cons <| (Goes.whenAt (goes_catchDeclaration hts hr (by omega)).one).seq_cons <|
      (Goes.whenAt (hfilter (by omega))).seq_cons (goes_block hts hr (by omega)).one.single)
    (by omega)

theorem goes_tryStatement (hn : level ≤ 2 * n + 2) : Goes ts n Ahead 1 (tryStatement rules) := by
  have hfinally : ∀ {m : Nat}, n + 1 ≤ m → Goes ts m (fun c => c.atWord "finally" = true) 1
      (node .finallyClause (seq [bump, one (block rules)])) := fun hm =>
    goes_node <| .atLeast (Goes.bump.seq_cons (goes_block hts hr (by omega)).one.single) (by omega)
  exact goes_node_ahead <| .atLeast (
    (Goes.bump_ahead hts).seq_cons <| (goes_block hts hr (by omega)).one.seq_cons <|
      (Goes.manyWhile (goes_catchClause hts hr (by omega)).one).seq_cons
        (Goes.whenAt (hfinally (by omega)).one).single) (by omega)

/-! ## Switches

A section that began with no label would take no token; the check for a label rules this out. -/

omit hts hr in
theorem ahead_of_atSwitchLabel {c : Cursor} (h : atSwitchLabel c = true) : Ahead c := by
  simp only [atSwitchLabel, Bool.or_eq_true, Bool.and_eq_true] at h
  rcases h with h | h
  · exact ahead_of_atWord h
  · exact ahead_of_atWord h.1

theorem goes_switchLabel (hn : level ≤ 2 * n + 2) :
    Goes ts n (fun c => atSwitchLabel c = true) 1 (switchLabel rules) := by
  have hvalue : Goes ts (n + 1) anywhere 1 (choose fun c =>
      let followers : Scan.Followers := { marks := [":"], words := ["when"] }
      if (Scan.typedName? c.tokens c.pos followers).isSome then
        one (declarationPattern rules true)
      else one (rules .expression)) := by
    refine Goes.choose fun c₁ _ _ _ => ?_
    dsimp only
    split
    · exact (goes_declarationPattern hts hr (by omega) true).one
    · exact (hr.expression (by omega)).one
  have hfilter : Goes ts (n + 1 + 1) (fun c => c.atContextual "when" = true) 1
      (seq [bump, one (rules .expression)]) :=
    .atLeast (Goes.bump.seq_cons (hr.expression (by omega)).one.single) (by omega)
  refine Goes.choose fun c₀ _ _ hat => ?_
  have hahead := ahead_of_atSwitchLabel hat
  split
  · exact Goes.at (goes_node_ahead <| .atLeast (
      (Goes.bump_ahead hts).seq_cons Goes.bump.single) (by omega)) hahead
  · exact Goes.at (goes_node_ahead <| .atLeast (
      (Goes.bump_ahead hts).seq_cons <| hvalue.seq_cons <| (Goes.whenAt hfilter).seq_cons
        (Goes.expect hts ":").single) (by omega)) hahead

/-- A section begins with a label, so its statements stand behind a token. -/
theorem goes_switchSection (hn : level ≤ 2 * n + 2) :
    Goes ts n (fun c => atSwitchLabel c = true) 1 (switchSection rules) :=
  Goes.node _ (fun _ _ h => h) <| .atLeast (
    (Goes.manyWhile_of_at (goes_switchLabel hts hr hn).one fun _ h => h).seq_cons
      (Goes.manyWhile (hr.statement (by omega)).one).single) (by omega)

theorem goes_switchStatement (hn : level ≤ 2 * n + 2) :
    Goes ts n Ahead 1 (switchStatement rules) := by
  have hsection : ∀ {m : Nat}, n ≤ m → Goes ts m (fun c => (!c.atMark "\x7d") = true) 1
      (choose fun c => if atSwitchLabel c then one (switchSection rules)
        else unexpected "'case' or 'default'") := by
    intro m hm
    refine Goes.choose fun c₀ _ _ _ => ?_
    split
    next hat => exact (goes_switchSection hts hr (by omega)).one.at hat
    next => exact .unexpected _
  exact goes_node_ahead <| .atLeast (
    (Goes.bump_ahead hts).seq_cons <| (goes_condition hts hr (by omega)).seq_cons <|
      (Goes.expect hts "\x7b").seq_cons <| (Goes.manyWhile (hsection (by omega))).seq_cons
        Goes.bump.single) (by omega)

/-! ## Local declarations and functions

A declaration begins with a type, which takes at least one token. -/

theorem goes_localDeclaration (hn : level ≤ 2 * n + 1) : Goes ts n P 1 (localDeclaration rules) :=
  goes_node <| .atLeast (
    (Goes.whenAt Goes.bump).seq_cons <| (Goes.whenAt Goes.bump).seq_cons <|
      (goes_variableDeclaration hts hr (by omega)).one.seq_cons
        (Goes.expect hts ";").single) (by omega)

theorem goes_usingStatement (hn : level ≤ 2 * n + 1) :
    Goes ts n Ahead 1 (usingStatement rules) := by
  have hresource : Goes ts (n + 1 + 1) anywhere 1 (choose fun c =>
      if atLocalDeclaration c then one (variableDeclaration rules)
      else one (rules .expression)) := by
    refine Goes.choose fun c₀ _ _ _ => ?_
    split
    · exact (goes_variableDeclaration hts hr (by omega)).one
    · exact (hr.expression (by omega)).one
  refine Goes.choose fun c₀ _ _ hahead => ?_
  split
  · exact goes_localDeclaration hts hr hn
  · exact Goes.at (goes_node_ahead <| .atLeast (
      (Goes.bump_ahead hts).seq_cons <| (Goes.expect hts "(").seq_cons <| hresource.seq_cons <|
        (Goes.expect hts ")").seq_cons (hr.statement (by omega)).one.single) (by omega)) hahead

omit hr in
theorem goes_localConstraintClause :
    Goes ts n (fun c => c.atContextual "where" = true) 1 localConstraintClause := by
  have hbump : Goes ts n (fun c => (!(c.atMark "\x7b" || c.atMark "=>" || c.atEnd)) = true) 1
      bump := by
    refine Goes.bump_any hts fun c hc => ?_
    simp only [Bool.not_eq_true', Bool.or_eq_false_iff] at hc
    simpa [Ahead, Cursor.atEnd] using hc.2
  refine (Goes.manyWhile_of_at hbump fun c hc => ?_).node _ fun _ _ h => h
  have hkind := kind_of_isContextual hc
  simp [Cursor.atMark, Token.isMark, Cursor.atEnd, hkind]

theorem goes_localFunction (hn : level ≤ 2 * n + 1) : Goes ts n P 1 (localFunction rules) := by
  have hmodifiers : Goes ts n anywhere 0 (manyWhile
      (fun c => c.atWord "static" || c.atContextual "async" || c.atWord "unsafe") bump) := by
    refine Goes.manyWhile (Goes.bump_any hts fun c hc => ?_)
    simp only [Bool.or_eq_true] at hc
    rcases hc with (hc | hc) | hc
    · exact ahead_of_atWord hc
    · exact ahead_of_atContextual hc
    · exact ahead_of_atWord hc
  exact goes_node <| .atLeast (
    hmodifiers.seq_cons <| (hr.type (by omega) true).one.seq_cons <|
      (Goes.expectIdentifier hts).seq_cons <| (goes_optionalTypeParameters hts).seq_cons <|
      (goes_parameterList hts hr (by omega)).one.seq_cons <|
      (Goes.manyWhile (goes_localConstraintClause hts).one).seq_cons
        (goes_memberBody hts hr (by omega)).single) (by omega)

/-! ## Which statement it is

The choice between statements is gone through once. -/

theorem goes_keywordStatement (hn : level ≤ 2 * n + 1) {word : String} {p : Parser Shape}
    (h : keywordStatement? rules word = some p) : Goes ts n Ahead 1 p := by
  have hn' : level ≤ 2 * n + 2 := by omega
  unfold keywordStatement? at h
  split at h <;> cases h
  · exact goes_ifStatement hts hr hn'
  · exact goes_guarded hts hr hn' _
  · exact goes_doStatement hts hr hn'
  · exact goes_forStatement hts hr hn'
  · exact goes_forEachStatement hts hr hn'
  · exact goes_returnLike hts hr hn' _
  · exact goes_returnLike hts hr hn' _
  · exact goes_simpleStatement hts _
  · exact goes_simpleStatement hts _
  · exact goes_tryStatement hts hr hn'
  · exact goes_switchStatement hts hr hn'
  · exact goes_guarded hts hr hn' _
  · exact goes_usingStatement hts hr hn
  · exact goes_localDeclaration hts hr hn
  · exact goes_localFunction hts hr hn

theorem goes_announcedStatement (hn : level ≤ 2 * n + 1) {c₀ : Cursor} {p : Parser Shape}
    (h : announcedStatement? rules c₀ = some p) : Goes ts n (· = c₀) 1 p := by
  have hahead : ∀ {kind : TokenKind}, c₀.current.kind = kind → kind ≠ .endOfFile → Ahead c₀ := by
    rintro _ rfl hne
    exact hne
  unfold announcedStatement? at h
  dsimp only at h
  split at h
  next hkind =>
    split at h
    · obtain rfl := Option.some.inj h
      exact goes_block hts hr (by omega)
    split at h
    · obtain rfl := Option.some.inj h
      exact (goes_simpleStatement hts _).at (hahead hkind (by decide))
    · cases h
  next hkind => exact (goes_keywordStatement hts hr hn h).at (hahead hkind (by decide))
  next hkind =>
    split at h
    · obtain rfl := Option.some.inj h
      exact (goes_yieldReturn hts hr (by omega)).at (hahead hkind (by decide))
    split at h
    · obtain rfl := Option.some.inj h
      exact (goes_yieldBreak hts).at (hahead hkind (by decide))
    split at h
    · obtain rfl := Option.some.inj h
      exact goes_localFunction hts hr hn
    · cases h
  next => cases h

/-- **The rule for statements goes on.** -/
theorem goes_statement (hn : level ≤ 2 * n + 1) : Goes ts n P 1 (statement rules) := by
  refine Goes.choose fun c₀ _ _ _ => ?_
  split
  next p hp => exact goes_announcedStatement hts hr hn hp
  next =>
  split
  · exact goes_localDeclaration hts hr hn
  split
  · exact goes_localFunction hts hr hn
  · exact goes_expressionStatement hts hr hn

end Statements

end Grammar

end CodeMend
