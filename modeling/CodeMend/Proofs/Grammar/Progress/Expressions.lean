import CodeMend.Proofs.Grammar.Expressions
import CodeMend.Proofs.Grammar.Progress.Types

/-!
# CodeMend — the rules for expressions go on

One lemma for each rule, in the order in which the rules build on one another.  Whatever an
expression begins with, its first token is taken before another rule is asked for.

* **`goes_expression`**, **`goes_coalesce`**, **`goes_unary`**, **`goes_operators`**,
  **`goes_initializer`**, **`goes_pattern`** — the rules that have a nonterminal of their own.
-/

namespace CodeMend.Grammar

open CodeMend.Parser Production

section Expressions

variable {ts : Array Token} {level n : Nat} {rules : Rules} {P : Cursor → Prop}
  (hts : Ended ts) (hr : Ready ts level rules)

/-! ## Names and literals

A name takes its token at once. -/

include hts

theorem goes_single {k : NodeKind} : Goes ts n Ahead 1 (single k) :=
  goes_node_ahead (Goes.bump_ahead hts)

include hr

theorem goes_simpleName (hn : level ≤ 2 * n + 2) : Goes ts n P 1 (simpleName rules) := by
  refine Goes.choose fun c₀ _ _ _ => ?_
  split
  · exact .unexpected _
  next hid =>
  have hahead : Ahead c₀ := ahead_of_atIdentifier (by simpa using hid)
  split
  · exact Goes.at (goes_node_ahead <| .atLeast (
      (Goes.bump_ahead hts).seq_cons
        (goes_typeArgumentList hts hr (by omega)).one.single) (by omega)) hahead
  · exact (goes_single hts).at hahead

theorem goes_typeOperator (hn : level ≤ 2 * n + 2) (k : NodeKind) :
    Goes ts n P 1 (typeOperator rules k) :=
  goes_node <| .atLeast (
    Goes.bump.seq_cons <|
      (Goes.expect hts "(").seq_cons <|
      (hr.type (by omega) true).one.seq_cons <|
      (Goes.expect hts ")").single) (by omega)

/-! ## Arguments and declarations in expressions

An argument asks for an expression in front of its first token, and so needs one level more than a
rule that has taken a token. -/

omit hts hr in
theorem goes_nameColon : Goes ts n P 0 nameColon :=
  goes_node <| .atLeast (
    (goes_node Goes.bump).one.seq_cons Goes.bump.single) (by omega)

omit hr in
theorem goes_singleVariableDesignation : Goes ts n P 1 singleVariableDesignation :=
  goes_node (Goes.expectIdentifier hts)

theorem goes_declarationExpression (hn : level ≤ 2 * n + 1) :
    Goes ts n P 1 (declarationExpression rules) :=
  goes_node <| .atLeast (
    (hr.type hn true).one.seq_cons (goes_singleVariableDesignation hts).one.single) (by omega)

theorem goes_declarationOrExpression (hn : level ≤ 2 * n + 1) (followers : Scan.Followers) :
    Goes ts n P 1 (declarationOrExpression rules followers) := by
  refine Goes.choose fun c₀ _ _ _ => ?_
  split
  · exact goes_declarationExpression hts hr hn
  · exact hr.expression hn

theorem goes_argument (hn : level ≤ 2 * n + 1) (close : String) :
    Goes ts n P 1 (argument rules close) :=
  goes_node <| .atLeast (
    (Goes.whenAt (Goes.one goes_nameColon)).seq_cons <|
      (Goes.whenAt Goes.bump).seq_cons <|
      (goes_declarationOrExpression hts hr (by omega) _).one.single) (by omega)

theorem goes_arguments (hn : level ≤ 2 * n + 2) (opening close : String) :
    Goes ts n P 1 (arguments rules opening close) :=
  .atLeast (
    (Goes.expect hts opening).seq_cons <|
      (Goes.whenAt (Goes.here
        (Goes.commaSeparated hts (goes_argument hts hr (by omega) close).one))).seq_cons <|
      (Goes.expect hts close).single) (by omega)

theorem goes_argumentList (hn : level ≤ 2 * n + 2) : Goes ts n P 1 (argumentList rules) :=
  goes_node (goes_arguments hts hr hn "(" ")")

theorem goes_bracketedArgumentList (hn : level ≤ 2 * n + 2) :
    Goes ts n P 1 (bracketedArgumentList rules) :=
  goes_node (goes_arguments hts hr hn "[" "]")

/-! ## Tuples

The parenthesis in front is a token, so the elements have one more level. -/

theorem goes_tupleElement (hn : level ≤ 2 * n + 1) : Goes ts n P 1 (tupleElement rules) := by
  refine Goes.get fun c₀ _ _ _ => ?_
  have hname : Goes ts n (· = c₀) 0 (whenAt atNameColon (one nameColon)) :=
    Goes.whenAt (Goes.one goes_nameColon)
  refine (Goes.bind (e := 1) hname fun name => Goes.get fun c₁ _ _ _ => ?_).atLeast (by omega)
  dsimp only
  split
  · exact (goes_declarationExpression hts hr (by omega)).bind_pure
  · exact (hr.expression (by omega)).bind_pure

theorem goes_tupleArgument (hn : level ≤ 2 * n + 1) :
    Goes ts n P 1 (node .argument do return (← tupleElement rules).1) :=
  goes_node (goes_tupleElement hts hr hn).bind_pure

theorem goes_parenthesizedOrTuple (hn : level ≤ 2 * n + 2) :
    Goes ts n P 1 (parenthesizedOrTuple rules) := by
  refine Goes.checkpoint fun cp => Goes.andThen (Goes.expect hts "(") fun opening => ?_
  refine Goes.checkpoint fun firstCp => ?_
  refine ((goes_tupleElement hts hr (by omega)).andThen fun x => ?_).atLeast (by omega)
  obtain ⟨first, forced⟩ := x
  refine Goes.get fun c₀ _ _ _ => ?_
  have hround : Goes ts (n + 1 + 1) (fun c => c.atMark "," = true) 1
      (seq [bump, one (node .argument do return (← tupleElement rules).1)]) :=
    .atLeast ((Goes.bump_any hts fun _ => ahead_of_atMark).seq_cons
      (goes_tupleArgument hts hr (by omega)).one.single) (by omega)
  split
  · refine Goes.andThen (goes_node (.pure first)) fun argument => ?_
    refine Goes.andThen (Goes.manyWhile hround) fun more => ?_
    exact ((Goes.expect hts ")").andThen fun close => goes_node (.pure _)).atLeast (by omega)
  · exact ((Goes.expect hts ")").andThen fun close => goes_node (.pure _)).atLeast (by omega)

omit hr in
theorem goes_deconstructionDeclaration : Goes ts n P 1 deconstructionDeclaration :=
  goes_node <| .atLeast (
    (goes_node Goes.bump).one.seq_cons <| Goes.single <| Goes.one <| goes_node <|
      (Goes.expect hts "(").seq_cons <|
      (Goes.commaSeparated hts (goes_singleVariableDesignation hts).one).seq_cons <|
      (Goes.expect hts ")").single) (by omega)

/-! ## Creation

A creation begins with its keyword. -/

theorem goes_initializer (hn : level ≤ 2 * n + 2) : Goes ts n P 1 (initializer rules) := by
  have hitem : Goes ts (n + 1) anywhere 1
      (choose fun c => one (rules (if c.atMark "\x7b" then .initializer else .expression))) := by
    refine Goes.choose fun c₀ _ _ _ => ?_
    split
    · exact (hr.initializer (by omega)).one
    · exact (hr.expression (by omega)).one
  exact goes_node <| .atLeast (
    (Goes.expect hts "\x7b").seq_cons <|
      (Goes.commaItems "\x7d" hitem).seq_cons <|
      (Goes.expect hts "\x7d").single) (by omega)

theorem goes_sizedRank (hn : level ≤ 2 * n + 2) :
    Goes ts n (fun c => c.atMark "[" = true) 1 (sizedRank rules) := by
  have hsize : Goes ts (n + 1) (fun c => (!c.atMark "]") = true) 1
      (choose fun c => if c.atMark "," then bump else one (rules .expression)) := by
    refine Goes.choose fun c₀ _ _ _ => ?_
    split
    next hcomma => exact (Goes.bump_ahead hts).at (ahead_of_atMark hcomma)
    next => exact (hr.expression (by omega)).one
  exact Goes.node _ (fun _ _ h => h) <| .atLeast (
    (Goes.bump_any hts fun _ => ahead_of_atMark).seq_cons <|
      (Goes.manyWhile hsize).seq_cons Goes.bump.single) (by omega)

omit hts in
theorem goes_optionalInitializer (hn : level ≤ 2 * n + 1) :
    Goes ts n P 0 (optionalInitializer rules) :=
  Goes.whenAt (hr.initializer hn).one

theorem goes_optionalArguments (hn : level ≤ 2 * n + 2) :
    Goes ts n P 0 (optionalArguments rules) :=
  Goes.whenAt (goes_argumentList hts hr hn).one

theorem goes_creation (hn : level ≤ 2 * n + 2) : Goes ts n P 1 (creation rules) := by
  have hparts : ∀ {m : Nat}, n + 1 ≤ m →
      Goes ts m anywhere 0 (seq [optionalArguments rules, optionalInitializer rules]) :=
    fun hm => (goes_optionalArguments hts hr (by omega)).seq_cons
      (goes_optionalInitializer hr (by omega)).single
  refine Goes.checkpoint fun cp => Goes.andThen (Goes.expectWord hts "new") fun new => ?_
  refine Goes.get fun c₀ _ _ _ => ?_
  split
  · exact Goes.andThen (Goes.here (hparts (Nat.le_refl _))) fun parts => goes_node (.pure _)
  split
  · refine Goes.andThen ?_ fun parts => goes_node (.pure _)
    exact .atLeast (
      Goes.bump.seq_cons <|
        (Goes.manyWhile (Goes.bump_any hts fun _ => ahead_of_atMark)).seq_cons <|
        (Goes.expect hts "]").seq_cons (hr.initializer (by omega)).one.single) (by omega)
  refine Goes.checkpoint fun typeCp => ?_
  refine ((hr.type (by omega) true).andThen fun element => ?_).atLeast (by omega)
  refine Goes.get fun c₁ _ _ _ => ?_
  split
  next hbracket =>
    have hranks : Goes ts (n + 1 + 1) anywhere 0
        (seq [pure [element], manyWhile (·.atMark "[") (one (sizedRank rules))]) :=
      .seq_pure _ (Goes.manyWhile (goes_sizedRank hts hr (by omega)).one).single
    refine Goes.andThen (goes_node hranks) fun array => ?_
    exact (goes_optionalInitializer hr (by omega)).andThen fun init => goes_node (.pure _)
  split
  · exact ((hr.initializer (by omega)).one.andThen fun init => goes_node (.pure _)).atLeast
      (by omega)
  · exact Goes.andThen (Goes.here (hparts (by omega))) fun parts => goes_node (.pure _)

/-! ## Operands

An operand takes a token, but the operators behind it may be missing. -/

theorem goes_primary (hn : level ≤ 2 * n + 2) : Goes ts n P 1 (primary rules) := by
  refine Goes.choose fun c₀ _ _ _ => ?_
  have hsingle : ∀ {kind : TokenKind} (k : NodeKind), c₀.current.kind = kind →
      kind ≠ .endOfFile → Goes ts n (· = c₀) 1 (single k) := by
    rintro _ k rfl hne
    exact (goes_single hts).at hne
  dsimp only
  split
  next h => exact hsingle _ h (by decide)
  next h => exact hsingle _ h (by decide)
  next h => exact hsingle _ h (by decide)
  next h => exact hsingle _ h (by decide)
  next h =>
    split
    · exact goes_deconstructionDeclaration hts
    · exact goes_simpleName hts hr hn
  next h =>
    split
    · exact hsingle _ h (by decide)
    split
    · exact hsingle _ h (by decide)
    split
    · exact hsingle _ h (by decide)
    split
    · exact goes_creation hts hr hn
    split
    · exact goes_typeOperator hts hr hn _
    split
    · split
      · exact goes_typeOperator hts hr hn _
      · exact hsingle _ h (by decide)
    split
    · exact hsingle _ h (by decide)
    · exact .unexpected _
  next h =>
    split
    · exact goes_parenthesizedOrTuple hts hr hn
    · exact .unexpected _
  next => exact .unexpected _

theorem goes_operandSuffixes (hn : level ≤ 2 * n + 2) (cp : Checkpoint) (s : Shape) :
    Goes ts n P 0 (grow (operandSuffix? rules cp) s) := by
  refine Goes.grow ?_ s
  intro c₀ wrap s _ hstep
  unfold operandSuffix? at hstep
  split at hstep
  next =>
    obtain rfl := Option.some.inj hstep
    exact goes_node <| .seq_pure _ <| .atLeast (
      Goes.bump.seq_cons (goes_simpleName hts hr (by omega)).one.single) (by omega)
  next =>
  split at hstep
  next =>
    obtain rfl := Option.some.inj hstep
    exact goes_node <| .seq_pure _ (goes_argumentList hts hr hn).one.single
  next =>
  split at hstep
  next =>
    obtain rfl := Option.some.inj hstep
    exact goes_node <| .seq_pure _ (goes_bracketedArgumentList hts hr hn).one.single
  next =>
  split at hstep
  next hat =>
    obtain rfl := Option.some.inj hstep
    have hahead : Ahead c₀ := by
      simp only [Bool.or_eq_true] at hat
      rcases hat with (hat | hat) | hat
      · exact ahead_of_atMark hat
      · exact ahead_of_atMark hat
      · exact ahead_of_atMark (Bool.and_eq_true _ _ ▸ hat).1
    exact (goes_node_ahead (.seq_pure _ (Goes.bump_ahead hts).single)).at hahead
  next => cases hstep

omit hts in
theorem goes_accessed (hn : level ≤ 2 * n + 1) {binding : Parser Shape}
    (hbinding : Goes ts n anywhere 1 binding) : Goes ts n P 0 (accessed rules binding) :=
  Goes.checkpoint fun cp => .atLeast
    (Goes.andThen (Goes.here hbinding) fun s => hr.operators (by omega) cp s) (by omega)

/-- **The operators behind an operand go on.**  What follows a conditional access is read by a rule
behind the token of the access. -/
theorem goes_operators (hn : level ≤ 2 * n + 2) (cp : Checkpoint) (operand : Shape) :
    Goes ts n P 0 (operators rules cp operand) := by
  refine (goes_operandSuffixes hts hr hn cp operand).andThen fun e => Goes.get fun c₀ _ _ _ => ?_
  have hnames : Goes ts (n + 1) anywhere 0
      (accessed rules (node .memberBindingExpression (one (simpleName rules)))) :=
    goes_accessed hr (by omega) (goes_node (goes_simpleName hts hr (by omega)).one)
  have helements : Goes ts (n + 1) anywhere 0
      (accessed rules (node .elementBindingExpression (one (bracketedArgumentList rules)))) :=
    goes_accessed hr (by omega) (goes_node (goes_bracketedArgumentList hts hr (by omega)).one)
  split
  next hat =>
    exact Goes.at (goes_node_ahead <| .seq_pure _ <| .atLeast (
      (Goes.bump_ahead hts).seq_cons hnames.one.single) (by omega)) (ahead_of_atMark hat)
  split
  next hat =>
    exact Goes.at (goes_node_ahead <| .seq_pure _ <| .atLeast (
      (Goes.bump_ahead hts).seq_cons helements.one.single) (by omega))
      (ahead_of_atMark (Bool.and_eq_true _ _ ▸ hat).1)
  next => exact .pure e

theorem goes_fullOperand (hn : level ≤ 2 * n + 2) : Goes ts n P 1 (fullOperand rules) :=
  Goes.checkpoint fun cp => (goes_primary hts hr hn).andThen fun s =>
    goes_operators hts hr (by omega) cp s

theorem goes_unary (hn : level ≤ 2 * n + 2) : Goes ts n P 1 (unary rules) := by
  refine Goes.choose fun c₀ _ _ _ => ?_
  have hprefix : ∀ {k : NodeKind} {operand : Parser Shape},
      Goes ts (n + 1) anywhere 1 operand → Ahead c₀ →
      Goes ts n (· = c₀) 1 (node k (seq [bump, one operand])) := by
    intro k operand hoperand hahead
    exact Goes.at (goes_node_ahead <| .atLeast (
      (Goes.bump_ahead hts).seq_cons hoperand.one.single) (by omega)) hahead
  split
  next hat =>
    obtain ⟨m, -, hm⟩ := List.any_eq_true.mp hat
    exact hprefix (hr.unary (by omega)) (ahead_of_atMark hm)
  split
  next hat =>
    exact hprefix (hr.unary (by omega)) (ahead_of_atContextual (Bool.and_eq_true _ _ ▸ hat).1)
  split
  next hat => exact hprefix (hr.expression (by omega)) (ahead_of_atWord hat)
  split
  next hat =>
    exact Goes.at (goes_node_ahead <| .atLeast (
      (Goes.bump_ahead hts).seq_cons <| (hr.type (by omega) true).one.seq_cons <|
        (Goes.expect hts ")").seq_cons (hr.unary (by omega)).one.single) (by omega))
      (ahead_of_atMark (Bool.and_eq_true _ _ ▸ hat).1)
  next => exact goes_fullOperand hts hr hn

/-! ## Binary operators

The levels of operators call each other in front of the same token, yet there are only so many of
them, and this recursion is on the list of levels and not on the depth. -/

theorem goes_binarySuffixes (hn : level ≤ 2 * n + 2) (binaryLevel : BinaryLevel)
    {operand : Parser Shape} (hoperand : Goes ts n anywhere 1 operand) (cp : Checkpoint)
    (s : Shape) : Goes ts n P 0 (grow (binarySuffix? rules binaryLevel operand cp) s) := by
  refine Goes.grow ?_ s
  intro c₀ wrap s _ hstep
  unfold binarySuffix? at hstep
  split at hstep
  next hat =>
    obtain rfl := Option.some.inj hstep
    exact Goes.at (goes_node_ahead <| .seq_pure _ <| .atLeast (
      (Goes.bump_ahead hts).seq_cons (hr.pattern (by omega)).one.single) (by omega))
      (ahead_of_atWord (Bool.and_eq_true _ _ ▸ hat).2)
  next =>
  split at hstep
  next hat =>
    obtain rfl := Option.some.inj hstep
    exact Goes.at (goes_node_ahead <| .seq_pure _ <| .atLeast (
      (Goes.bump_ahead hts).seq_cons (hr.type (by omega) false).one.single) (by omega))
      (ahead_of_atWord (Bool.and_eq_true _ _ ▸ hat).2)
  next =>
    obtain ⟨length, -, rfl⟩ := Option.map_eq_some_iff.mp hstep
    exact goes_node <| .seq_pure _ <| .atLeast (
      Goes.bump.seq_cons <| (Goes.whenAt Goes.bump).seq_cons <|
        (hoperand.later (by omega)).one.single) (by omega)

theorem goes_binary (hn : level ≤ 2 * n + 2) (levels : List BinaryLevel) :
    Goes ts n P 1 (binary rules levels) := by
  have hall : Goes ts n anywhere 1 (binary rules levels) := by
    induction levels with
    | nil =>
      rw [binary]
      exact goes_unary hts hr hn
    | cons binaryLevel tighter ih =>
      rw [binary]
      exact Goes.checkpoint fun cp => ih.andThen fun s =>
        goes_binarySuffixes hts hr (by omega) binaryLevel (ih.later (by omega)) cp s
  exact hall.here

theorem goes_coalesce (hn : level ≤ 2 * n + 2) : Goes ts n P 1 (coalesce rules) := by
  refine Goes.checkpoint fun cp => (goes_binary hts hr hn _).andThen fun e =>
    Goes.get fun c₀ _ _ _ => ?_
  split
  · exact goes_node <| .seq_pure _ <| .atLeast (
      Goes.bump.seq_cons (hr.coalesce (by omega)).one.single) (by omega)
  · exact .pure e

theorem goes_conditional (hn : level ≤ 2 * n + 2) : Goes ts n P 1 (conditional rules) := by
  refine Goes.checkpoint fun cp => (goes_coalesce hts hr hn).andThen fun e =>
    Goes.get fun c₀ _ _ _ => ?_
  split
  · exact goes_node <| .seq_pure _ <| .atLeast (
      Goes.bump.seq_cons <| (hr.expression (by omega)).one.seq_cons <|
        (Goes.expect hts ":").seq_cons (hr.expression (by omega)).one.single) (by omega)
  · exact .pure e

/-! ## Patterns

A pattern asks for another pattern only behind the word that negates it, and for a type or an
expression at its own place. -/

theorem goes_declarationPattern (hn : level ≤ 2 * n + 1) (nullable : Bool) :
    Goes ts n P 1 (declarationPattern rules nullable) :=
  goes_node <| .atLeast (
    (hr.type hn nullable).one.seq_cons (goes_singleVariableDesignation hts).one.single) (by omega)

/-- **The rule for patterns goes on**, although it may begin with a type. -/
theorem goes_pattern (hn : level ≤ 2 * n + 1) : Goes ts n P 1 (pattern rules) := by
  have hconstant : Goes ts n anywhere 1 (node .constantPattern (one (binary rules tightLevels))) :=
    goes_node (goes_binary hts hr (by omega) _).one
  refine Goes.choose fun c₀ _ _ _ => ?_
  dsimp only
  split
  next hat =>
    exact Goes.at (goes_node_ahead <| .atLeast (
      (Goes.bump_ahead hts).seq_cons (hr.pattern (by omega)).one.single) (by omega))
      (ahead_of_atContextual (Bool.and_eq_true _ _ ▸ hat).1)
  split
  · exact hconstant.here
  split
  · split
    · exact goes_declarationPattern hts hr hn false
    · exact goes_node (hr.type hn false).one
  · exact hconstant.here

/-! ## Lambdas

A lambda takes its parameters before its body is read.  Whatever else an expression begins with is
an operand, and the right side of an assignment stands behind the operator. -/

theorem goes_lambdaParameter (hn : level ≤ 2 * n + 1) : Goes ts n P 1 (lambdaParameter rules) :=
  goes_node <| .atLeast (
    (Goes.manyWhile (Goes.bump_any hts fun _ => ahead_of_atMode)).seq_cons <|
      (Goes.whenAt (hr.type (by omega) true).one).seq_cons <|
      (Goes.expectIdentifier hts).single) (by omega)

theorem goes_lambdaParameterList (hn : level ≤ 2 * n + 2) :
    Goes ts n P 1 (lambdaParameterList rules) :=
  goes_node <| .atLeast (
    (Goes.expect hts "(").seq_cons <|
      (Goes.commaItems ")" (goes_lambdaParameter hts hr (by omega)).one).seq_cons <|
      (Goes.expect hts ")").single) (by omega)

theorem goes_lambdaBody (hn : level ≤ 2 * n + 2) : Goes ts n P 1 (lambdaBody rules) := by
  have hvalue : Goes ts (n + 1) anywhere 1
      (choose fun c => one (rules (if c.atMark "\x7b" then .block else .expression))) := by
    refine Goes.choose fun c₀ _ _ _ => ?_
    split
    · exact (hr.block (by omega)).one
    · exact (hr.expression (by omega)).one
  exact .atLeast ((Goes.expect hts "=>").seq_cons hvalue.single) (by omega)

theorem goes_lambda (hn : level ≤ 2 * n + 2) (form : LambdaForm) :
    Goes ts n P 1 (lambda rules form) := by
  cases form with
  | simple =>
    exact goes_node <| .atLeast (
      (Goes.whenAt Goes.bump).seq_cons <|
        (goes_node (Goes.expectIdentifier hts)).one.seq_cons <|
        (goes_lambdaBody hts hr (by omega)).single) (by omega)
  | parenthesized =>
    exact goes_node <| .atLeast (
      (Goes.whenAt Goes.bump).seq_cons <|
        (goes_lambdaParameterList hts hr (by omega)).one.seq_cons <|
        (goes_lambdaBody hts hr (by omega)).single) (by omega)

/-- **The rule for expressions goes on.** -/
theorem goes_expression (hn : level ≤ 2 * n + 2) : Goes ts n P 1 (expression rules) := by
  refine Goes.get fun c₀ _ _ _ => ?_
  split
  · exact goes_lambda hts hr hn _
  refine Goes.checkpoint fun cp => (goes_conditional hts hr hn).andThen fun target =>
    Goes.get fun c₁ _ _ _ => ?_
  split
  · exact goes_node <| .seq_pure _ <| .atLeast (
      Goes.bump.seq_cons <| (Goes.whenAt Goes.bump).seq_cons <|
        (hr.expression (by omega)).one.single) (by omega)
  · exact .pure target

end Expressions

end CodeMend.Grammar
