import Mathlib.Computability.Language
import Mathlib.Order.CompletePartialOrder
import CodeMend.Grammar.Parse
import CodeMend.Proofs.Tree.Building

/-!
# CodeMend — the grammar of trees

The rules of the parser read tokens and build shapes.  What they build is told here without a word
about how it is read: the children of a node are a word of the language that belongs to its kind.

* **`Ended`** — tokens of which the last one, and only the last, marks the end of the file.
* **`word`**, **`mark`**, **`part`** — words of one token or of one node.
* **`production`** — the language of the children of a node.  Nodes of declarations other than
  types, methods and their parts may have any children.
* **`Conforms`** — every node of a shape has children of its production.
* **`IsPlain`** — nothing but names and types: a shape in which nothing is evaluated.

`nil_notMem_production` says that no production has the empty word: every node has a child.
-/

namespace CodeMend.Production

open scoped Computability

/-- The last token, and no other, marks the end of the file. -/
structure Ended (ts : Array Token) : Prop where
  size_pos : 0 < ts.size
  kind_eq_iff : ∀ i, (tokenAt ts i).kind = .endOfFile ↔ ts.size ≤ i + 1

/-! ## Words

Productions are languages over shapes.  They are built from these few by sums, products and
repetition, so that the laws of Kleene algebras are at hand. -/

section Words

variable (ts : Array Token)

/-- One token of a sort, other than the one that ends the file. -/
def word (p : Token → Prop) : Language Shape :=
  {cs | ∃ i, i + 1 < ts.size ∧ p (tokenAt ts i) ∧ cs = [.token i]}

/-- One token. -/
def anyWord : Language Shape := word ts fun _ => True

/-- One token that is not a mark. -/
def bareWord : Language Shape := word ts fun t => t.kind ≠ .punctuation

/-- One mark. -/
def mark (text : String) : Language Shape := word ts fun t => t.isMark text

/-- Some tokens, at least one. -/
def words : Language Shape := anyWord ts * (anyWord ts)∗

/-- One node, or token, of a sort. -/
def part (p : Shape → Prop) : Language Shape := {cs | ∃ s, p s ∧ cs = [s]}

/-- A word of a language, or nothing. -/
def opt (l : Language Shape) : Language Shape := 1 + l

/-- One or more words with commas between them. -/
def separated (l : Language Shape) : Language Shape :=
  l * (mark ts "," * l)∗

/-- Any number of words with commas between them and perhaps behind them. -/
def listed (l : Language Shape) : Language Shape :=
  opt (separated ts l * opt (mark ts ","))

/-- Anything at all that is there. -/
def something : Language Shape := {cs | cs ≠ []}

end Words

/-! ## Sorts of nodes

A production says of its parts of what sort they are.  Sorts are told by kinds, and by the tokens
that a shape spans. -/

/-- The shape is a node of one of some kinds. -/
def HasKind (p : NodeKind → Prop) (s : Shape) : Prop := ∃ id k cs, s = .node id k cs ∧ p k

/-- The shape is a node of a kind. -/
abbrev IsA (k : NodeKind) : Shape → Prop := HasKind (· = k)

theorem HasKind.mono {p q : NodeKind → Prop} {s : Shape} (h : HasKind p s)
    (hpq : ∀ k, p k → q k) : HasKind q s := by
  obtain ⟨id, k, cs, rfl, hk⟩ := h
  exact ⟨id, k, cs, rfl, hpq k hk⟩

/-- A node is of one kind. -/
theorem eq_of_isA {k k' : NodeKind} {s : Shape} (h : IsA k s) (h' : IsA k' s) : k = k' := by
  obtain ⟨id, _, cs, rfl, rfl⟩ := h
  obtain ⟨_, _, _, ⟨⟩, rfl⟩ := h'
  rfl

/-- The kinds of the nodes that a name or a type consists of. -/
def plainKinds : List NodeKind :=
  [.predefinedType, .identifierName, .genericName, .qualifiedName, .arrayType, .nullableType,
    .tupleType, .tupleElement, .arrayRankSpecifier, .typeArgumentList, .explicitInterfaceSpecifier]

/-- The shape consists of names and types. -/
inductive IsPlain : Shape → Prop where
  | token (i : TokenId) : IsPlain (.token i)
  | node (id : NodeId) (k : NodeKind) (cs : List Shape) (hk : k ∈ plainKinds)
      (hcs : ∀ s ∈ cs, IsPlain s) : IsPlain (.node id k cs)

/-- The kinds of expressions.  The elements of an initializer may be initializers again. -/
def expressionKinds : List NodeKind :=
  [.predefinedType, .identifierName, .genericName, .literalExpression, .thisExpression,
    .baseExpression, .memberAccessExpression, .invocationExpression, .parenthesizedExpression,
    .tupleExpression, .declarationExpression, .prefixUnaryExpression, .postfixUnaryExpression,
    .awaitExpression, .binaryExpression, .asExpression, .isPatternExpression, .castExpression,
    .assignmentExpression, .conditionalExpression, .conditionalAccessExpression,
    .memberBindingExpression, .elementBindingExpression, .elementAccessExpression,
    .objectCreationExpression, .implicitObjectCreationExpression, .initializerExpression,
    .arrayCreationExpression, .implicitArrayCreationExpression, .typeOfExpression,
    .defaultExpression, .simpleLambdaExpression, .parenthesizedLambdaExpression, .throwExpression]

/-- The kinds of names without qualifiers. -/
def nameKinds : List NodeKind := [.identifierName, .genericName]

/-- The kinds of expressions other than names. -/
def compoundKinds : List NodeKind := expressionKinds.filter fun k => !nameKinds.contains k

/-- A type in which nothing is evaluated: its brackets hold no sizes. -/
def IsPlainType (s : Shape) : Prop := HasKind (fun k => k.isType = true) s ∧ IsPlain s

def IsStatement : Shape → Prop := HasKind fun k => k.isStatement = true

def IsPattern : Shape → Prop := HasKind fun k => k.isPattern = true

/-- The label of a section of a switch. -/
def IsLabel : Shape → Prop := HasKind fun k => k = .caseSwitchLabel ∨ k = .defaultSwitchLabel

theorem isPlainType_of {k : NodeKind} {s : Shape} (h : IsA k s) (hplain : IsPlain s)
    (hk : k.isType = true) : IsPlainType s :=
  ⟨h.mono fun _ hs => hs ▸ hk, hplain⟩

theorem isStatement_of {k : NodeKind} {s : Shape} (h : IsA k s) (hk : k.isStatement = true) :
    IsStatement s :=
  h.mono fun _ hs => hs ▸ hk

theorem isPattern_of {k : NodeKind} {s : Shape} (h : IsA k s) (hk : k.isPattern = true) :
    IsPattern s :=
  h.mono fun _ hs => hs ▸ hk

/-! ## Names and values

A name may have type arguments or not, and this depends on the token behind it, which is not a part
of the shape.  So the sort of an expression looks at tokens around it. -/

section Names

variable (ts : Array Token)

/-- The type arguments behind a name of an expression, whose token is given, count as ones. -/
def TakesArguments (i : TokenId) : Prop := Grammar.atGenericName ⟨ts, i, .ofTokens ts.size⟩ = true

/-- If the shape is a name, it has type arguments where they count as ones, and only there. -/
def IsRuled (s : Shape) : Prop :=
  ∀ id k i cs, s = .node id k (.token i :: cs) →
    (k = .genericName → TakesArguments ts i) ∧ (k = .identifierName → ¬TakesArguments ts i)

/-- A name without qualifiers, in an expression. -/
def IsSimpleName (s : Shape) : Prop := HasKind (· ∈ nameKinds) s ∧ IsRuled ts s

def IsExpression (s : Shape) : Prop := HasKind (· ∈ expressionKinds) s ∧ IsRuled ts s

/-- An expression that is not the declaration of a variable. -/
def IsValue (s : Shape) : Prop := IsExpression ts s ∧ ¬IsA .declarationExpression s

/-- An expression that declares a variable where a type and a name stand, followed as given, and
that is a value elsewhere. -/
def IsScanned (followers : Scan.Followers) (s : Shape) : Prop :=
  IsExpression ts s ∧ ∃ i, s.leaves.head? = some i ∧
    (IsA .declarationExpression s ↔ (Scan.typedName? ts i followers).isSome = true)

variable {ts} {k : NodeKind} {s : Shape}

theorem isRuled_of (h : IsA k s) (hk : k ∉ nameKinds) : IsRuled ts s := by
  obtain ⟨id, k', ds, rfl, rfl⟩ := h
  rintro _ _ i cs ⟨⟩
  exact ⟨fun hgeneric => absurd (by rw [hgeneric]; decide) hk,
    fun hidentifier => absurd (by rw [hidentifier]; decide) hk⟩

theorem isRuled_of_head {i : TokenId} (h : s.leaves.head? = some i)
    (hgeneric : IsA .genericName s → TakesArguments ts i)
    (hidentifier : IsA .identifierName s → ¬TakesArguments ts i) : IsRuled ts s := by
  rintro id k j cs rfl
  obtain rfl : j = i := by simpa [Shape.leaves, Shape.leavesOfList] using h
  exact ⟨fun hk => hgeneric ⟨id, k, _, rfl, hk⟩, fun hk => hidentifier ⟨id, k, _, rfl, hk⟩⟩

theorem isExpression_of (h : IsA k s) (hk : k ∈ compoundKinds) : IsExpression ts s := by
  obtain ⟨hexpression, hnot⟩ := List.mem_filter.mp hk
  exact ⟨h.mono fun _ hs => hs ▸ hexpression, isRuled_of h (by simpa using hnot)⟩

theorem IsSimpleName.isExpression (h : IsSimpleName ts s) : IsExpression ts s := by
  have hkinds : ∀ k ∈ nameKinds, k ∈ expressionKinds := by decide
  exact ⟨h.1.mono hkinds, h.2⟩

end Names

/-! ## How tight expressions bind

Every shape of an expression has a grade that its kind and its operator tell.  Precedence is the
statement that operands have the grade that their operation asks for. -/

/-- The level of a binary operator, which is written as one mark or as two closing brackets; the one
that replaces null has none. -/
def operatorLevel? : List String → Option Nat
  | [m] => Grammar.binaryLevels.findIdx? (·.marks.contains m)
  | [">", ">"] => Grammar.binaryLevels.findIdx? (·.isShift)
  | _ => none

/-- The level of type tests. -/
def testLevel : Nat := Grammar.binaryLevels.findIdx (·.isRelational)

/-- The grade of the expressions that bind tightest. -/
def topGrade : Nat := Grammar.binaryLevels.length + 2

/-- How tight an expression of a kind binds whose own tokens are given.  The operator that replaces
null stands between the levels and what binds loosest of all. -/
def gradeOf (k : NodeKind) (words : List String) : Nat :=
  match k with
  | .assignmentExpression | .conditionalExpression | .simpleLambdaExpression
  | .parenthesizedLambdaExpression => 0
  | .binaryExpression =>
    if words = ["??"] then 1 else ((operatorLevel? words).map (· + 2)).getD 0
  | .asExpression | .isPatternExpression => testLevel + 2
  | _ => topGrade

/-- The kinds of expressions other than names that bind tightest. -/
def tightKinds : List NodeKind :=
  compoundKinds.filter fun k => !([.assignmentExpression, .conditionalExpression,
    .simpleLambdaExpression, .parenthesizedLambdaExpression, .binaryExpression, .asExpression,
    .isPatternExpression] : List NodeKind).contains k

theorem mem_compoundKinds_of_tight {k : NodeKind} (h : k ∈ tightKinds) : k ∈ compoundKinds :=
  (List.mem_filter.mp h).1

theorem gradeOf_of_tight {k : NodeKind} (h : k ∈ tightKinds) (words : List String) :
    gradeOf k words = topGrade := by
  cases k <;> first | rfl | exact absurd h (by decide)

section Grades

variable (ts : Array Token)

/-- The texts of the tokens among some shapes. -/
def wordsOf (cs : List Shape) : List String :=
  cs.filterMap fun
    | .token i => some (tokenAt ts i).text
    | .node .. => none

/-- How tight a shape binds. -/
def grade : Shape → Nat
  | .token _ => topGrade
  | .node _ k cs => gradeOf k (wordsOf ts cs)

/-- An expression that binds so tight at least. -/
def IsOperand (g : Nat) (s : Shape) : Prop := IsExpression ts s ∧ g ≤ grade ts s

theorem IsOperand.mono {ts : Array Token} {g g' : Nat} {s : Shape} (h : IsOperand ts g s)
    (hg : g' ≤ g) : IsOperand ts g' s :=
  ⟨h.1, hg.trans h.2⟩

theorem isOperand_of_tight {ts : Array Token} {k : NodeKind} {s : Shape} (h : IsA k s)
    (hk : k ∈ tightKinds) : IsOperand ts topGrade s := by
  refine ⟨isExpression_of h (mem_compoundKinds_of_tight hk), ?_⟩
  obtain ⟨id, k', cs, rfl, rfl⟩ := h
  exact (gradeOf_of_tight hk _).ge

theorem isOperand_of_isSimpleName {ts : Array Token} {s : Shape} (h : IsSimpleName ts s) :
    IsOperand ts topGrade s := by
  refine ⟨h.isExpression, ?_⟩
  obtain ⟨⟨id, k, cs, rfl, hk⟩, -⟩ := h
  rcases List.mem_pair.mp hk with rfl | rfl <;> exact Nat.le_refl _

end Grades

/-! ## Productions

For each kind of node, what its children are.  This is the grammar that parsed trees are shown to
follow. -/

section Productions

variable (ts : Array Token)

def expr : Language Shape := part (IsExpression ts)

/-- An operand that binds so tight at least. -/
def operand (g : Nat) : Language Shape := part (IsOperand ts g)

/-- The operators of a level: its marks, and two closing brackets for a shift. -/
def operatorOf (level : Grammar.BinaryLevel) : Language Shape :=
  word ts (fun t => level.marks.any t.isMark = true) +
    if level.isShift then [mark ts ">", mark ts ">"].prod else 0

/-- A binary operation of some level.  What stands to its left may be of the same level. -/
def leveled : Language Shape :=
  {cs | ∃ l level, Grammar.binaryLevels[l]? = some level ∧
    cs ∈ [operand ts (l + 2), operatorOf ts level, operand ts (l + 3)].prod}

def plainType : Language Shape := part IsPlainType

def stmt : Language Shape := part IsStatement

/-- A node of a kind. -/
def a (k : NodeKind) : Language Shape := part (IsA k)

/-- A node of a kind in which nothing is evaluated. -/
def plain (k : NodeKind) : Language Shape := part fun s => IsA k s ∧ IsPlain s

/-- An expression in parentheses. -/
def parenthesized : Language Shape := [mark ts "(", expr ts, mark ts ")"].prod

/-- A list between two marks. -/
def enclosed (opening : String) (items : Language Shape) (close : String) : Language Shape :=
  [mark ts opening, items, mark ts close].prod

/-- The head of a for statement before its first semicolon: a declaration or expressions. -/
def beforeLoop : Language Shape := a .variableDeclaration + opt (separated ts (expr ts))

/-- A word that may modify a parameter: a keyword, or the one that restricts its scope. -/
def IsParameterModifier (t : Token) : Prop := t.kind = .keyword ∨ t.isContextual "scoped" = true

/-- What an argument holds in a list that ends with a mark. -/
def handedOver (close : String) : Language Shape :=
  [opt (a .nameColon), opt (anyWord ts), part (IsScanned ts { marks := [",", close] })].prod

/-- An argument of a list that ends with a mark. -/
def listedArgument (close : String) : Language Shape :=
  part fun s => ∃ id, ∃ cs ∈ handedOver ts close, s = .node id .argument cs

/-- Arguments between two marks, with commas between them. -/
def argumentsBetween (opening close : String) : Language Shape :=
  enclosed ts opening (opt (separated ts (listedArgument ts close))) close

/-- A parameter of a method. -/
def declaredParameter : Language Shape :=
  [(a .attributeList)∗, (word ts IsParameterModifier)∗, plainType,
    word ts fun t => t.isIdentifier, opt (a .equalsValueClause)].prod

/-- A parameter of a lambda, which may do without a type. -/
def lambdaParameter : Language Shape :=
  [(word ts fun t => t.kind = .keyword)∗, opt plainType, word ts fun t => t.isIdentifier].prod

/-- A lambda: a word that may precede it, what it takes, and a body behind the arrow. -/
def lambda (taken : NodeKind) : Language Shape :=
  [opt (anyWord ts), a taken, [mark ts "=>", a .block + expr ts].prod].prod

/-- The token is one of the operators that stand behind their operand. -/
def IsPostfix (t : Token) : Prop :=
  t.isMark "++" = true ∨ t.isMark "--" = true ∨ t.isMark "!" = true

/-- A word that begins the declaration of a type. -/
def IsTypeKeyword (t : Token) : Prop :=
  t.isKeyword "class" = true ∨ t.isKeyword "struct" = true ∨ t.isKeyword "interface" = true ∨
    t.isContextual "record" = true

/-- The declaration of a type: behind the word that begins it stands its name. -/
def typeDeclaration : Language Shape :=
  [⊤, word ts IsTypeKeyword, opt (anyWord ts), word ts fun t => t.isIdentifier, ⊤].prod

/-- What may stand in the place of the body of a member. -/
def memberBody : Language Shape :=
  a .block + [a .arrowExpressionClause, mark ts ";"].prod + mark ts ";"

/-- The declaration of a method. -/
def methodDeclaration : Language Shape :=
  [(a .attributeList)∗, (anyWord ts)∗, plainType, opt (plain .explicitInterfaceSpecifier),
    anyWord ts, opt (a .typeParameterList), a .parameterList,
    (a .typeParameterConstraintClause)∗, memberBody ts].prod

/-- The children of a node of a kind. -/
def production : NodeKind → Language Shape
  -- Names and types.
  | .predefinedType => bareWord ts
  | .identifierName => word ts fun t => t.isIdentifier
  | .genericName => [word ts fun t => t.isIdentifier, plain .typeArgumentList].prod
  | .typeArgumentList => enclosed ts "<" (separated ts plainType) ">"
  | .qualifiedName => [plainType, anyWord ts, plainType].prod
  | .arrayType => [plainType, (a .arrayRankSpecifier)∗].prod
  | .arrayRankSpecifier => enclosed ts "[" ((anyWord ts + expr ts)∗) "]"
  | .nullableType => [plainType, mark ts "?"].prod
  | .tupleType => enclosed ts "(" (separated ts (plain .tupleElement)) ")"
  | .tupleElement => [plainType, opt (anyWord ts)].prod
  -- Lists and their items.
  | .argumentList => argumentsBetween ts "(" ")"
  | .bracketedArgumentList => argumentsBetween ts "[" "]"
  | .parameterList => enclosed ts "(" (listed ts (a .parameter)) ")"
  | .parameter => declaredParameter ts + lambdaParameter ts
  | .argument => [opt (a .nameColon), opt (anyWord ts), expr ts].prod
  | .nameColon => [a .identifierName, mark ts ":"].prod
  -- Expressions.
  | .literalExpression | .thisExpression | .baseExpression | .singleVariableDesignation =>
    bareWord ts
  | .parenthesizedVariableDesignation =>
    enclosed ts "(" (separated ts (a .singleVariableDesignation)) ")"
  | .declarationExpression =>
    [plainType, a .singleVariableDesignation].prod +
      [a .identifierName, a .parenthesizedVariableDesignation].prod
  | .parenthesizedExpression => parenthesized ts
  | .tupleExpression => enclosed ts "(" (separated ts (a .argument)) ")"
  | .memberAccessExpression => [expr ts, anyWord ts, part (IsSimpleName ts)].prod
  | .memberBindingExpression => part (IsSimpleName ts)
  | .invocationExpression => [expr ts, a .argumentList].prod
  | .elementAccessExpression => [expr ts, a .bracketedArgumentList].prod
  | .elementBindingExpression => a .bracketedArgumentList
  | .conditionalAccessExpression => [expr ts, anyWord ts, expr ts].prod
  | .prefixUnaryExpression | .awaitExpression | .throwExpression => [anyWord ts, expr ts].prod
  | .postfixUnaryExpression => [expr ts, word ts IsPostfix].prod
  | .castExpression => [anyWord ts, plainType, mark ts ")", expr ts].prod
  | .binaryExpression => [operand ts 2, mark ts "??", expr ts].prod + leveled ts
  | .assignmentExpression => [expr ts, anyWord ts, opt (anyWord ts), expr ts].prod
  | .asExpression => [operand ts (testLevel + 2), anyWord ts, plainType].prod
  | .isPatternExpression => [operand ts (testLevel + 2), anyWord ts, part IsPattern].prod
  | .conditionalExpression => [operand ts 1, anyWord ts, expr ts, mark ts ":", expr ts].prod
  | .initializerExpression => enclosed ts "\x7b" (listed ts (expr ts)) "\x7d"
  | .objectCreationExpression =>
    [anyWord ts, plainType, opt (a .argumentList), opt (a .initializerExpression)].prod
  | .implicitObjectCreationExpression =>
    [bareWord ts, opt (a .argumentList), opt (a .initializerExpression)].prod
  | .arrayCreationExpression =>
    [anyWord ts, part (HasKind fun k => k.isType = true), opt (a .initializerExpression)].prod
  | .implicitArrayCreationExpression =>
    [anyWord ts, anyWord ts, (anyWord ts)∗, mark ts "]", a .initializerExpression].prod
  | .typeOfExpression | .defaultExpression =>
    [anyWord ts, mark ts "(", plainType, mark ts ")"].prod
  | .simpleLambdaExpression => lambda ts .parameter
  | .parenthesizedLambdaExpression => lambda ts .parameterList
  -- Patterns.
  | .constantPattern => expr ts
  | .notPattern => [anyWord ts, part IsPattern].prod
  | .declarationPattern => [plainType, a .singleVariableDesignation].prod
  | .typePattern => plainType
  -- Statements and their parts.
  | .block => enclosed ts "\x7b" (stmt∗) "\x7d"
  | .localDeclarationStatement =>
    [opt (anyWord ts), opt (anyWord ts), a .variableDeclaration, mark ts ";"].prod
  | .variableDeclaration => [plainType, separated ts (a .variableDeclarator)].prod
  | .variableDeclarator =>
    [opt (plain .explicitInterfaceSpecifier), anyWord ts, opt (a .equalsValueClause)].prod
  | .explicitInterfaceSpecifier => [plainType, mark ts "."].prod
  | .equalsValueClause => [mark ts "=", expr ts].prod
  | .expressionStatement => [expr ts, mark ts ";"].prod
  | .ifStatement => [anyWord ts, parenthesized ts, stmt, opt (a .elseClause)].prod
  | .elseClause => [anyWord ts, stmt].prod
  | .returnStatement | .throwStatement => [anyWord ts, opt (expr ts), mark ts ";"].prod
  | .whileStatement | .lockStatement => [anyWord ts, parenthesized ts, stmt].prod
  | .doStatement => [anyWord ts, stmt, anyWord ts, parenthesized ts, mark ts ";"].prod
  | .forStatement =>
    [word ts fun t => t.kind = .keyword, mark ts "(", beforeLoop ts, mark ts ";", opt (expr ts),
      mark ts ";", opt (separated ts (expr ts)), mark ts ")", stmt].prod
  | .forEachStatement =>
    [anyWord ts, mark ts "(", plainType, anyWord ts, anyWord ts, expr ts, mark ts ")",
      stmt].prod
  | .breakStatement | .continueStatement | .emptyStatement => [anyWord ts, mark ts ";"].prod
  | .yieldReturnStatement => [anyWord ts, opt (anyWord ts), expr ts, mark ts ";"].prod
  | .yieldBreakStatement => [anyWord ts, opt (anyWord ts), mark ts ";"].prod
  | .tryStatement =>
    [anyWord ts, a .block, (a .catchClause)∗, opt (a .finallyClause)].prod
  | .catchClause =>
    [anyWord ts, opt (a .catchDeclaration), opt [anyWord ts, parenthesized ts].prod, a .block].prod
  | .catchDeclaration => [anyWord ts, plainType, opt (anyWord ts), mark ts ")"].prod
  | .finallyClause => [anyWord ts, a .block].prod
  | .switchStatement =>
    [anyWord ts, parenthesized ts, mark ts "\x7b", (a .switchSection)∗, mark ts "\x7d"].prod
  | .switchSection =>
    [part IsLabel, (part IsLabel)∗, stmt∗].prod
  | .caseSwitchLabel =>
    [anyWord ts, a .declarationPattern + expr ts, opt [anyWord ts, expr ts].prod,
      mark ts ":"].prod
  | .defaultSwitchLabel => [anyWord ts, opt (anyWord ts)].prod
  | .usingStatement =>
    [anyWord ts, mark ts "(", a .variableDeclaration + expr ts, mark ts ")", stmt].prod
  | .arrowExpressionClause => [mark ts "=>", expr ts].prod
  -- Declarations and what is kept as plain tokens.
  | .attributeList => [(anyWord ts)∗, mark ts "]"].prod
  | .typeParameterList | .typeParameterConstraintClause => words ts
  | .classDeclaration | .structDeclaration | .interfaceDeclaration | .recordDeclaration =>
    typeDeclaration ts
  | .methodDeclaration => methodDeclaration ts
  | .compilationUnit | .usingDirective | .namespaceDeclaration | .fileScopedNamespaceDeclaration
  | .baseList | .constructorDeclaration | .constructorInitializer | .fieldDeclaration
  | .propertyDeclaration | .accessorList | .accessorDeclaration | .unknownMember
  | .localFunctionStatement => something

/-- Every node of a shape has children of its production. -/
inductive Conforms : Shape → Prop where
  | token (i : TokenId) : Conforms (.token i)
  | node (id : NodeId) (k : NodeKind) (cs : List Shape) (hcs : cs ∈ production ts k)
      (hall : ∀ s ∈ cs, Conforms s) : Conforms (.node id k cs)

end Productions

/-! ## Words that may be missing

Words that may be missing come up in almost every production. -/

theorem mem_opt_iff {l : Language Shape} {x : List Shape} : x ∈ opt l ↔ x = [] ∨ x ∈ l := by
  unfold opt
  rw [Language.mem_add, Language.mem_one]

theorem nil_mem_opt {l : Language Shape} : [] ∈ opt l := mem_opt_iff.mpr (.inl rfl)

theorem mem_opt_of_mem {l : Language Shape} {x : List Shape} (h : x ∈ l) : x ∈ opt l :=
  mem_opt_iff.mpr (.inr h)

/-! ## Larger languages

A rule often reads less than a production admits. -/

theorem part_mono {p q : Shape → Prop} (h : ∀ s, p s → q s) : part p ≤ part q := by
  rintro _ ⟨s, hs, rfl⟩
  exact ⟨s, h s hs, rfl⟩

theorem expr_le {ts : Array Token} : expr ts ≤ part (HasKind (· ∈ expressionKinds)) :=
  part_mono fun _ h => h.1

theorem simpleName_le {ts : Array Token} :
    part (IsSimpleName ts) ≤ part (HasKind (· ∈ nameKinds)) :=
  part_mono fun _ h => h.1

theorem operand_le_expr {ts : Array Token} {g : Nat} : operand ts g ≤ expr ts :=
  part_mono fun _ h => h.1

/-- A list without a comma behind it. -/
theorem opt_separated_le {ts : Array Token} {l : Language Shape} :
    opt (separated ts l) ≤ listed ts l := by
  intro x hx
  rcases mem_opt_iff.mp hx with rfl | hx
  · exact nil_mem_opt
  · refine mem_opt_of_mem ?_
    have h := Language.append_mem_mul hx (nil_mem_opt (l := mark ts ","))
    rwa [List.append_nil] at h

theorem separated_mono {ts : Array Token} {l m : Language Shape} (h : l ≤ m) :
    separated ts l ≤ separated ts m :=
  mul_le_mul' h (kstar_mono (mul_le_mul' le_rfl h))

theorem word_mono {ts : Array Token} {p q : Token → Prop} (h : ∀ t, p t → q t) :
    word ts p ≤ word ts q := by
  rintro _ ⟨i, hi, hp, rfl⟩
  exact ⟨i, hi, h _ hp, rfl⟩

theorem word_le_anyWord {ts : Array Token} {sort : Token → Prop} : word ts sort ≤ anyWord ts :=
  word_mono fun _ _ => trivial

theorem enclosed_mono {ts : Array Token} {opening close : String} {l m : Language Shape}
    (h : l ≤ m) : enclosed ts opening l close ≤ enclosed ts opening m close := by
  unfold enclosed
  simp only [List.prod_cons]
  exact mul_le_mul' le_rfl (mul_le_mul' h le_rfl)

theorem handedOver_le {ts : Array Token} {close : String} :
    handedOver ts close ≤ production ts .argument := by
  have hvalue : part (IsScanned ts { marks := [",", close] }) ≤ expr ts := part_mono fun _ h => h.1
  simp only [handedOver, production, List.prod_cons]
  exact mul_le_mul' le_rfl (mul_le_mul' le_rfl (mul_le_mul' hvalue le_rfl))

theorem listedArgument_le {ts : Array Token} {close : String} :
    listedArgument ts close ≤ a .argument :=
  part_mono fun _ ⟨id, cs, _, hs⟩ => ⟨id, .argument, cs, hs, rfl⟩

/-- Arguments are listed as any items are. -/
theorem argumentsBetween_le {ts : Array Token} {opening close : String} :
    argumentsBetween ts opening close ≤ enclosed ts opening (listed ts (a .argument)) close :=
  enclosed_mono ((add_le_add_right (separated_mono listedArgument_le) 1).trans opt_separated_le)

/-! ## Words made of words

What is read part by part makes up the word of a product. -/

theorem append_mem_prod {l : Language Shape} {ls : List (Language Shape)} {x y : List Shape}
    (hx : x ∈ l) (hy : y ∈ ls.prod) : x ++ y ∈ (l :: ls).prod := by
  rw [List.prod_cons]
  exact Language.append_mem_mul hx hy

theorem mem_prod_cons {l : Language Shape} {ls : List (Language Shape)} {x : List Shape} :
    x ∈ (l :: ls).prod ↔ ∃ y ∈ l, ∃ z ∈ ls.prod, y ++ z = x := by
  rw [List.prod_cons, Language.mem_mul]

theorem mem_prod_singleton {l : Language Shape} {x : List Shape} (hx : x ∈ l) : x ∈ [l].prod := by
  rwa [List.prod_singleton]

theorem mem_part {p : Shape → Prop} {s : Shape} (h : p s) : [s] ∈ part p := ⟨s, h, rfl⟩

/-- A larger language in front. -/
theorem prod_cons_mono {l m : Language Shape} {ls : List (Language Shape)} (h : l ≤ m) :
    (l :: ls).prod ≤ (m :: ls).prod := by
  rw [List.prod_cons, List.prod_cons]
  exact mul_le_mul' h le_rfl

/-! ## How tight operations bind

The operator of a shape is found among its tokens again, so that the grade of an operation is that
of the level it was read at. -/

section Operations

variable {ts : Array Token}

theorem wordsOf_append (x y : List Shape) :
    wordsOf ts (x ++ y) = wordsOf ts x ++ wordsOf ts y :=
  List.filterMap_append

theorem wordsOf_part {p : Shape → Prop} (hp : ∀ s, p s → IsExpression ts s) {x : List Shape}
    (hx : x ∈ part p) : wordsOf ts x = [] := by
  obtain ⟨s, hs, rfl⟩ := hx
  obtain ⟨⟨id, k, cs, rfl, -⟩, -⟩ := hp s hs
  rfl

/-- A word of one token has the text of that token. -/
theorem wordsOf_mark {m : String} {x : List Shape} (hx : x ∈ mark ts m) : wordsOf ts x = [m] := by
  obtain ⟨i, -, hm, rfl⟩ := hx
  simp only [Token.isMark, Bool.and_eq_true, beq_iff_eq] at hm
  show [(tokenAt ts i).text] = [m]
  rw [hm.2]

/-- The marks of the levels belong to one level each, and none is the operator that replaces
null. -/
theorem operatorLevel?_of_mem {l : Nat} {level : Grammar.BinaryLevel}
    (hl : Grammar.binaryLevels[l]? = some level) {m : String} (hm : m ∈ level.marks) :
    m ≠ "??" ∧ operatorLevel? [m] = some l := by
  have hall : ∀ p ∈ Grammar.binaryLevels.zipIdx, ∀ m ∈ p.1.marks,
      m ≠ "??" ∧ operatorLevel? [m] = some p.2 := by
    decide
  exact hall (level, l) (List.mk_mem_zipIdx_iff_getElem?.mpr hl) m hm

theorem operatorLevel?_of_isShift {l : Nat} {level : Grammar.BinaryLevel}
    (hl : Grammar.binaryLevels[l]? = some level) (hshift : level.isShift = true) :
    operatorLevel? [">", ">"] = some l := by
  have hall : ∀ p ∈ Grammar.binaryLevels.zipIdx, p.1.isShift = true →
      operatorLevel? [">", ">"] = some p.2 := by
    decide
  exact hall (level, l) (List.mk_mem_zipIdx_iff_getElem?.mpr hl) hshift

theorem eq_testLevel {l : Nat} {level : Grammar.BinaryLevel}
    (hl : Grammar.binaryLevels[l]? = some level) (htest : level.isRelational = true) :
    l = testLevel := by
  have hall : ∀ p ∈ Grammar.binaryLevels.zipIdx, p.1.isRelational = true → p.2 = testLevel := by
    decide
  exact hall (level, l) (List.mk_mem_zipIdx_iff_getElem?.mpr hl) htest

/-- The operator of a level tells the level. -/
theorem operatorLevel?_of_operatorOf {l : Nat} {level : Grammar.BinaryLevel}
    (hl : Grammar.binaryLevels[l]? = some level) {x : List Shape} (hx : x ∈ operatorOf ts level) :
    wordsOf ts x ≠ ["??"] ∧ operatorLevel? (wordsOf ts x) = some l := by
  rcases hx with ⟨i, hi, hany, rfl⟩ | hx
  · obtain ⟨m, hm, hmark⟩ := List.any_eq_true.mp hany
    obtain ⟨hne, hlevel⟩ := operatorLevel?_of_mem hl hm
    rw [wordsOf_mark (m := m) ⟨i, hi, hmark, rfl⟩]
    exact ⟨by simpa using hne, hlevel⟩
  · split at hx
    next hshift =>
      obtain ⟨y, hy, z, hz, rfl⟩ := mem_prod_cons.mp hx
      rw [List.prod_singleton] at hz
      rw [wordsOf_append, wordsOf_mark hy, wordsOf_mark hz]
      exact ⟨by simp, operatorLevel?_of_isShift hl hshift⟩
    next => exact absurd hx (Language.notMem_zero x)

/-- The words between two operands are those of the operator. -/
theorem wordsOf_between {g : Nat} {l m : Language Shape} {x : List Shape}
    (hm : m ≤ expr ts) (hx : x ∈ [operand ts g, l, m].prod) :
    ∃ y ∈ l, wordsOf ts x = wordsOf ts y := by
  obtain ⟨left, hleft, z, hz, rfl⟩ := mem_prod_cons.mp hx
  obtain ⟨y, hy, right, hright, rfl⟩ := mem_prod_cons.mp hz
  rw [List.prod_singleton] at hright
  refine ⟨y, hy, ?_⟩
  rw [wordsOf_append, wordsOf_append, wordsOf_part (fun _ h => h.1) hleft,
    wordsOf_part (fun _ h => h) (hm hright), List.append_nil, List.nil_append]

theorem gradeOf_leveled {l : Nat} {level : Grammar.BinaryLevel}
    (hl : Grammar.binaryLevels[l]? = some level) {x : List Shape}
    (hx : x ∈ [operand ts (l + 2), operatorOf ts level, operand ts (l + 3)].prod) :
    gradeOf .binaryExpression (wordsOf ts x) = l + 2 := by
  obtain ⟨y, hy, hwords⟩ := wordsOf_between operand_le_expr hx
  obtain ⟨hne, hlevel⟩ := operatorLevel?_of_operatorOf hl hy
  rw [gradeOf, hwords, if_neg hne, hlevel]
  rfl

theorem gradeOf_coalescing {x : List Shape}
    (hx : x ∈ [operand ts 2, mark ts "??", expr ts].prod) :
    gradeOf .binaryExpression (wordsOf ts x) = 1 := by
  obtain ⟨y, hy, hwords⟩ := wordsOf_between le_rfl hx
  rw [gradeOf, hwords, wordsOf_mark hy, if_pos rfl]

/-- The operator of a level is one token or two. -/
theorem operatorOf_le {level : Grammar.BinaryLevel} :
    operatorOf ts level ≤ anyWord ts * opt (anyWord ts) := by
  rintro x (hx | hx)
  · have h := Language.append_mem_mul (word_le_anyWord hx) (nil_mem_opt (l := anyWord ts))
    rwa [List.append_nil] at h
  · split at hx
    next =>
      obtain ⟨y, hy, z, hz, rfl⟩ := mem_prod_cons.mp hx
      rw [List.prod_singleton] at hz
      exact Language.append_mem_mul (word_le_anyWord hy) (mem_opt_of_mem (word_le_anyWord hz))
    next => exact absurd hx (Language.notMem_zero x)

/-- **A binary operation is two expressions** with an operator of one token or two between them. -/
theorem production_binary_le :
    production ts .binaryExpression ≤ [expr ts, anyWord ts, opt (anyWord ts), expr ts].prod := by
  rintro x (hx | ⟨l, level, -, hx⟩)
  · obtain ⟨left, hleft, z, hz, rfl⟩ := mem_prod_cons.mp hx
    obtain ⟨operator, hoperator, right, hright, rfl⟩ := mem_prod_cons.mp hz
    exact append_mem_prod (operand_le_expr hleft) <|
      append_mem_prod (word_le_anyWord hoperator) <| append_mem_prod nil_mem_opt hright
  · obtain ⟨left, hleft, z, hz, rfl⟩ := mem_prod_cons.mp hx
    obtain ⟨operator, hoperator, right, hright, rfl⟩ := mem_prod_cons.mp hz
    rw [List.prod_singleton] at hright
    obtain ⟨y, hy, y', hy', rfl⟩ := operatorOf_le hoperator
    rw [List.append_assoc]
    exact append_mem_prod (operand_le_expr hleft) <| append_mem_prod hy <| append_mem_prod hy' <|
      mem_prod_singleton (operand_le_expr hright)

end Operations

/-! ## Words of which every shape is of a sort

Many properties ask only of what sort the children are, in whatever order.  These lemmas reduce them
to the parts of a production. -/

/-- The lists of shapes of a sort. -/
def each (p : Shape → Prop) : Language Shape := {cs | ∀ s ∈ cs, p s}

section Each

variable {ts : Array Token} {p q : Shape → Prop} {l m : Language Shape}

theorem one_le_each : 1 ≤ each p := by
  intro x hx s hs
  rw [(Language.mem_one x).mp hx] at hs
  cases hs

theorem mul_le_each (hl : l ≤ each p) (hm : m ≤ each p) : l * m ≤ each p := by
  rintro _ ⟨x, hx, y, hy, rfl⟩ s hs
  rcases List.mem_append.mp hs with hs | hs
  · exact hl hx s hs
  · exact hm hy s hs

theorem add_le_each (hl : l ≤ each p) (hm : m ≤ each p) : l + m ≤ each p := by
  rintro x (hx | hx)
  · exact hl hx
  · exact hm hx

theorem opt_le_each (hl : l ≤ each p) : opt l ≤ each p := add_le_each one_le_each hl

theorem kstar_le_each (hl : l ≤ each p) : l∗ ≤ each p := by
  rintro x hx s hs
  obtain ⟨words, rfl, hwords⟩ := Language.mem_kstar.mp hx
  obtain ⟨y, hy, hs⟩ := List.mem_flatten.mp hs
  exact hl (hwords y hy) s hs

theorem nil_le_each : ([] : List (Language Shape)).prod ≤ each p := by
  rw [List.prod_nil]
  exact one_le_each

theorem cons_le_each {ls : List (Language Shape)} (hl : l ≤ each p) (hls : ls.prod ≤ each p) :
    (l :: ls).prod ≤ each p := by
  rw [List.prod_cons]
  exact mul_le_each hl hls

theorem word_le_each {sort : Token → Prop} (h : ∀ i, p (.token i)) : word ts sort ≤ each p := by
  rintro _ ⟨i, _, _, rfl⟩ s hs
  obtain rfl := List.mem_singleton.mp hs
  exact h i

theorem part_le_each (h : ∀ s, q s → p s) : part q ≤ each p := by
  rintro _ ⟨s, hq, rfl⟩ s' hs
  obtain rfl := List.mem_singleton.mp hs
  exact h s' hq

theorem separated_le_each (h : ∀ i, p (.token i)) (hl : l ≤ each p) :
    separated ts l ≤ each p :=
  mul_le_each hl (kstar_le_each (mul_le_each (word_le_each h) hl))

theorem listed_le_each (h : ∀ i, p (.token i)) (hl : l ≤ each p) : listed ts l ≤ each p :=
  opt_le_each (mul_le_each (separated_le_each h hl) (opt_le_each (word_le_each h)))

theorem enclosed_le_each {opening close : String} (h : ∀ i, p (.token i)) (hl : l ≤ each p) :
    enclosed ts opening l close ≤ each p :=
  cons_le_each (word_le_each h) <| cons_le_each hl <| cons_le_each (word_le_each h) nil_le_each

end Each

/-! ## No production is empty

Since no production is empty, every node spans a token. -/

section Empty

variable {l m : Language Shape}

@[simp] theorem nil_mem_mul_iff : [] ∈ l * m ↔ [] ∈ l ∧ [] ∈ m := by
  rw [Language.mem_mul]
  constructor
  · rintro ⟨x, hx, y, hy, hxy⟩
    obtain ⟨rfl, rfl⟩ := List.append_eq_nil_iff.mp hxy
    exact ⟨hx, hy⟩
  · rintro ⟨hl, hm⟩
    exact ⟨[], hl, [], hm, rfl⟩

@[simp] theorem nil_notMem_word (ts : Array Token) (p : Token → Prop) : [] ∉ word ts p := by
  rintro ⟨i, _, _, h⟩
  cases h

@[simp] theorem nil_notMem_part (p : Shape → Prop) : [] ∉ part p := by
  rintro ⟨s, _, h⟩
  cases h

@[simp] theorem nil_notMem_something : [] ∉ something := fun h => h rfl

/-- A sum of languages, as the simplifier writes it. -/
@[simp] theorem nil_mem_sup_iff : [] ∈ l ⊔ m ↔ [] ∈ l ∨ [] ∈ m := Iff.rfl

@[simp] theorem nil_notMem_leveled (ts : Array Token) : [] ∉ leveled ts := by
  rintro ⟨l, level, -, h⟩
  obtain ⟨left, ⟨s, -, rfl⟩, rest, -, hnil⟩ := mem_prod_cons.mp h
  cases hnil

@[simp] theorem nil_notMem_words (ts : Array Token) : [] ∉ words ts := by
  simp [words, anyWord]

@[simp] theorem nil_notMem_memberBody (ts : Array Token) : [] ∉ memberBody ts := by
  simp [memberBody, a, mark]

/-- **Every node has a child.** -/
theorem nil_notMem_production (ts : Array Token) (k : NodeKind) : [] ∉ production ts k := by
  cases k <;>
    simp [production, enclosed, separated, parenthesized, declaredParameter, lambdaParameter,
      lambda, typeDeclaration, methodDeclaration, mark, anyWord, bareWord, a, plain, expr, operand,
      plainType, stmt, argumentsBetween]

/-- Words that are not empty are something. -/
theorem le_something (h : [] ∉ l) : l ≤ something := fun _ hx hnil => h (hnil ▸ hx)

end Empty

end CodeMend.Production
