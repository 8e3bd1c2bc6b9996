import CodeMend.Binding.Binder
import CodeMend.Flow.Body
import CodeMend.Token.Interpolation

/-!
# CodeMend — from syntax to bodies

The nodes of a method body are read as `Flow.Expr` and `Flow.Stmt`, with the names bound to
variables.  Lambdas, local functions and jumps without a target have no such form.

* **`readPlace`** — the form of a place that is only written.
* **`readExpr?`** — the form of an expression.
* **`readStmt?`** — the form of a statement.
* **`readBody?`** — the form of a body in braces or behind an arrow.
-/

namespace CodeMend.Flow

/-- The variable that a token declares. -/
def declaredVariable (b : Binder) (identifier : TokenId) : VariableId :=
  ⟨b.document.id, (b.tree.token identifier).offset⟩

/-- The variable of a name that is in scope at a node.  Which one it is does not depend on types. -/
def variableInScope? (b : Binder) (name : String) (n : NodeId) : Option VariableId :=
  (siteLookup? b.tree name n).map fun site => declaredVariable b (site.identifier b.tree)

/-- The variable that a bare name means. -/
def namedVariable? (b : Binder) (identifier : NodeId) : Option VariableId :=
  variableInScope? b (b.frontName identifier) identifier

/-- The variables that the holes of a literal name. -/
def holeVariables (b : Binder) (literal : NodeId) : List VariableId :=
  let text := b.tree.text literal
  if !Interpolation.isInterpolated text.toList then []
  else
    let names := (Interpolation.namesInHoles text).filter fun h => !h.afterPoint && !h.called
    names.filterMap fun h => variableInScope? b h.name literal

/-- The variables that a declaration or a pattern declares. -/
def designatedVariables (b : Binder) (n : NodeId) : List VariableId :=
  let t := b.tree
  ((n :: t.descendants n).filter fun d => t.kind d == .singleVariableDesignation).map fun d =>
    declaredVariable b (t.firstToken d)

/-- The tokens right under a node, as one text: the operator of an operation. -/
def operatorText (t : Tree) (n : NodeId) : String :=
  String.join ((t.childTokens n).map fun i => (t.token i).text)

/-- The form of a literal. -/
def readLiteral (b : Binder) (n : NodeId) : Expr :=
  let token := b.tree.token (b.tree.firstToken n)
  if token.isKeyword "true" then .literal true
  else if token.isKeyword "false" then .literal false
  else .holes (holeVariables b n)

/-- An assignment by an operator: a plain one looks only at the receivers of its target, one that
asks whether the target is null may leave out the value, and any other reads the target. -/
def assignment (operator : String) (target value : Expr) : Expr :=
  let operands :=
    if operator == "=" then Expr.seq target.receivers value
    else if operator == "??=" then .optional target value
    else .seq target value
  .assign operands target.targets

/-- The form of a binary operation. -/
def binaryOperation (operator : String) (left right : Expr) : Expr :=
  match operator with
  | "&&" => .conjunction left right
  | "||" => .disjunction left right
  | "??" => .optional left right
  | _ => .seq left right

/-- The form of a unary operation: an increment or decrement also writes its operand. -/
def unaryOperation (t : Tree) (n : NodeId) (operand : Expr) : Expr :=
  if (t.childTokens n).any fun i => (t.token i).isMark "++" || (t.token i).isMark "--" then
    .assign operand operand.targets
  else if t.kind n == .prefixUnaryExpression && (t.token (t.firstToken n)).isMark "!" then
    .negation operand
  else .ofList [operand]

/-- How an argument is passed. -/
def passMode (t : Tree) (v : ArgumentView) : PassMode :=
  ((v.refKindText? t).bind PassMode.ofKeyword?).getD .value

/-- The items of a tuple. -/
def tupleItems (t : Tree) (n : NodeId) : List NodeId :=
  ((t.childrenOfKind n .argument).filterMap (ArgumentView.ofNode? t)).map ArgumentView.expression

/-- The form of a place that is only written, from the forms of the places under it.  A name, a
declaration and a tuple of places are written; anything else, even a lambda, is passed by. -/
def readPlaceStep (b : Binder) (read : NodeId → Expr) (n : NodeId) : Expr :=
  match b.tree.kind n with
  | .identifierName => .name (namedVariable? b n)
  | .parenthesizedExpression =>
    match b.tree.childNodes n with
    | inner :: _ => .parenthesized (read inner)
    | [] => .constant
  | .declarationExpression => .declaration (designatedVariables b n)
  | .tupleExpression => ((tupleItems b.tree n).map read).foldr .tuple .constant
  | _ => .constant

/-- The form of a place that is at most `fuel` nodes deep. -/
def readPlaceFuel (b : Binder) : Nat → NodeId → Expr
  | 0 => fun _ => .constant
  | fuel + 1 => readPlaceStep b (readPlaceFuel b fuel)

/-- The form of a place that is only written. -/
def readPlace (b : Binder) (n : NodeId) : Expr := readPlaceFuel b (b.tree.nodeCount + 1) n

/-- The form of an argument of a call.  An argument for giving out is a place and needs no form as
an expression. -/
def readPassed (b : Binder) (read : NodeId → Option Expr) (v : ArgumentView) : Option Expr :=
  match passMode b.tree v with
  | .out => some (.passed .out (readPlace b v.expression))
  | mode => (read v.expression).map (.passed mode)

/-- The form of an expression, from the forms of the expressions under it. -/
def readExprStep (b : Binder) (read : NodeId → Option Expr) (n : NodeId) : Option Expr :=
  let t := b.tree
  let nodes := t.childNodes n
  let all := fun (ns : List NodeId) => (ns.mapM read).map Expr.ofList
  match t.kind n with
  | .identifierName => some (.name (namedVariable? b n))
  | .literalExpression => some (readLiteral b n)
  -- Nothing under these is evaluated.
  | .thisExpression | .baseExpression | .predefinedType | .genericName | .qualifiedName
  | .memberBindingExpression | .typeOfExpression | .defaultExpression | .typePattern
  | .nameColon => some .constant
  -- What a lambda does happens when it is called, so a body with one is not analysed.
  | .simpleLambdaExpression | .parenthesizedLambdaExpression => none
  | .parenthesizedExpression =>
    match nodes with
    | inner :: _ => return .parenthesized (← read inner)
    | [] => some .constant
  -- The name or type behind the operand is left out, and so is the type in front of the next one.
  | .memberAccessExpression | .asExpression => all (nodes.take 1)
  | .castExpression => all ((nodes.drop 1).take 1)
  | .conditionalAccessExpression =>
    match nodes with
    | r :: whenPresent :: _ => return .optional (← read r) (← read whenPresent)
    | _ => all nodes
  | .invocationExpression => do
    let v ← InvocationView.ofNode? t n
    let arguments ← (v.argumentViews t).mapM (readPassed b read)
    return .call (← read v.callee) (.ofList arguments)
  | .argument => do
    let v ← ArgumentView.ofNode? t n
    return .argument (passMode t v) (← read v.expression)
  | .assignmentExpression =>
    match nodes with
    | target :: value :: _ => return assignment (operatorText t n) (← read target) (← read value)
    | _ => none
  | .prefixUnaryExpression | .postfixUnaryExpression =>
    match nodes with
    | operand :: _ => return unaryOperation t n (← read operand)
    | [] => some .constant
  | .binaryExpression =>
    match nodes with
    | left :: right :: _ => return binaryOperation (operatorText t n) (← read left) (← read right)
    | _ => none
  | .conditionalExpression =>
    match nodes with
    | test :: whenTrue :: whenFalse :: _ =>
      return .conditional (← read test) (← read whenTrue) (← read whenFalse)
    | _ => none
  -- The type is left out, and with it the sizes of an array, which stand inside of it.
  | .objectCreationExpression | .arrayCreationExpression =>
    all (nodes.filter fun c => !(t.kind c).isType)
  | .initializerExpression => (all nodes).map .initializer
  | .tupleExpression => do
    let items ← (tupleItems t n).mapM read
    return items.foldr .tuple .constant
  | .declarationExpression => some (.declaration (designatedVariables b n))
  | .declarationPattern => some (.pattern (designatedVariables b n))
  | .throwExpression => (all nodes).map .throwing
  | _ => all nodes

/-- The form of an expression that is at most `fuel` nodes deep. -/
def readExprFuel (b : Binder) : Nat → NodeId → Option Expr
  | 0 => fun _ => none
  | fuel + 1 => readExprStep b (readExprFuel b fuel)

/-- The form of an expression; there is none for a lambda or something with a lambda in it. -/
def readExpr? (b : Binder) (n : NodeId) : Option Expr := readExprFuel b (b.tree.nodeCount + 1) n

/-- The form of the first expression under a node, if there is one. -/
def readFirst? (b : Binder) (n : NodeId) : Option Expr :=
  match b.tree.childNodes n with
  | e :: _ => readExpr? b e
  | [] => some .constant

/-- The first value of the variable that a token declares, if there is one. -/
def declareToken (b : Binder) (identifier : Option TokenId) : Stmt :=
  (identifier.map fun i => Stmt.declare (declaredVariable b i)).getD .skip

/-- The form of a declarator: its value, then the variable.  A variable without a value is not
written. -/
def readDeclarator? (b : Binder) (declarator : NodeId) : Option Stmt :=
  let t := b.tree
  match t.childOfKind? declarator .equalsValueClause with
  | none => some .skip
  | some clause => do
    let value ← readFirst? b clause
    return .seq (.eval value) (declareToken b (t.childTokens declarator).head?)

/-- The form of a declaration of variables. -/
def readDeclaration? (b : Binder) (declaration : NodeId) : Option Stmt :=
  ((b.tree.childrenOfKind declaration .variableDeclarator).mapM (readDeclarator? b)).map .ofList

/-- The form of a part in the head of a statement: a declaration or an expression. -/
def readHeadPart? (b : Binder) (n : NodeId) : Option Stmt :=
  if b.tree.kind n == .variableDeclaration then readDeclaration? b n
  else (readExpr? b n).map .eval

/-- The parts of a for statement: what stands before, between and behind its two semicolons, and the
body. -/
structure ForParts where
  before : List NodeId := []
  test : List NodeId := []
  steps : List NodeId := []
  body : Option NodeId := none
  /-- The part that is being read; the body is the fourth. -/
  place : Nat := 0

/-- Sort a child of a for statement into its parts. -/
def ForParts.add (t : Tree) (p : ForParts) : Child → ForParts
  | .token i =>
    if (t.token i).isMark ";" then { p with place := p.place + 1 }
    else if (t.token i).isMark ")" then { p with place := 3 }
    else p
  | .node n =>
    match p.place with
    | 0 => { p with before := p.before ++ [n] }
    | 1 => { p with test := p.test ++ [n] }
    | 2 => { p with steps := p.steps ++ [n] }
    | _ => { p with body := some n }

/-- Where a jump may lead. -/
structure JumpTargets where
  /-- There is a loop or a switch around. -/
  canBreak : Bool := false
  /-- There is a loop around. -/
  canContinue : Bool := false

/-- The targets inside a loop. -/
def JumpTargets.inLoop : JumpTargets := ⟨true, true⟩

/-- The form of a catch clause: the variable, the filter and the block. -/
def readCatch? (b : Binder) (read : NodeId → Option Stmt) (clause : NodeId) : Option Stmt :=
  let t := b.tree
  ((t.childNodes clause).mapM fun part =>
    match t.kind part with
    | .catchDeclaration =>
      some (declareToken b (declaredIdentifier? t part))
    | .block => read part
    | _ => (readExpr? b part).map .eval).map .ofList

/-- The form of a try statement. -/
def readTry? (b : Binder) (read : NodeId → Option Stmt) (n : NodeId) : Option Stmt := do
  let t := b.tree
  let nodes := t.childNodes n
  let parts : List NodeKind := [.block, .catchClause, .finallyClause]
  if nodes.any fun c => !parts.contains (t.kind c) then none
  let body ← read (← nodes.find? fun c => t.kind c == .block)
  let catches ← (nodes.filter fun c => t.kind c == .catchClause).mapM (readCatch? b read)
  -- Which of the clauses catches an exception is not known.
  let guarded := match catches.reverse with
    | [] => body
    | last :: earlier => .attempt body (.chooseFrom last earlier.reverse)
  match (nodes.find? fun c => t.kind c == .finallyClause).bind fun c => (t.childNodes c).head? with
  | some final => return .cleanup guarded (← read final)
  | none => return guarded

/-- The form of a label of a switch. -/
def readLabel? (b : Binder) (label : NodeId) : Option Expr :=
  ((b.tree.childNodes label).mapM (readExpr? b)).map Expr.ofList

/-- The node is a label of a switch. -/
def isLabel (t : Tree) (n : NodeId) : Bool :=
  t.kind n == .caseSwitchLabel || t.kind n == .defaultSwitchLabel

/-- The form of a switch statement.  Without a default label all sections may be passed over. -/
def readSwitch? (b : Binder) (read : NodeId → Option Stmt) (n : NodeId) : Option Stmt := do
  let t := b.tree
  match t.childNodes n with
  | [] => none
  | governing :: sections =>
    let value ← readExpr? b governing
    let forms ← sections.mapM fun s => do
      let labels ← ((t.childNodes s).filter (isLabel t)).mapM (readLabel? b)
      let body ← ((t.childNodes s).filter fun c => !isLabel t c).mapM read
      return Stmt.labelled labels (.ofList body)
    let hasDefault := sections.any fun s => (t.childOfKind? s .defaultSwitchLabel).isSome
    -- With a default label some section is entered, without one perhaps none.
    let chosen := match hasDefault, forms.reverse with
      | true, last :: earlier => Stmt.chooseFrom last earlier.reverse
      | _, _ => .chooseFrom .skip forms
    return .seq (.eval value) (.switch chosen)

/-- The form of a statement, from the forms of the statements under it. -/
def readStmtStep (b : Binder) (read : JumpTargets → NodeId → Option Stmt) (jumps : JumpTargets)
    (n : NodeId) : Option Stmt :=
  let t := b.tree
  let nodes := t.childNodes n
  match t.kind n with
  | .block => (nodes.mapM (read jumps)).map .ofList
  | .emptyStatement => some .skip
  | .localDeclarationStatement => do
    readDeclaration? b (← t.childOfKind? n .variableDeclaration)
  | .expressionStatement | .yieldReturnStatement => (readFirst? b n).map .eval
  | .ifStatement => do
    let v ← IfView.ofNode? t n
    let otherwise ← match v.elseStatement with
      | some s => read jumps s
      | none => some .skip
    return .branch (← readExpr? b v.condition) (← read jumps v.statement) otherwise
  | .whileStatement =>
    match nodes with
    | test :: body :: _ => return .whileLoop (← readExpr? b test) (← read .inLoop body)
    | _ => none
  | .doStatement =>
    match nodes with
    | body :: test :: _ => return .doLoop (← read .inLoop body) (← readExpr? b test)
    | _ => none
  -- The steps run behind the body, but stand in front of it.
  | .forStatement => do
    let p := (t.children n).foldl (ForParts.add t) {}
    let body ← read .inLoop (← p.body)
    let before ← p.before.mapM (readHeadPart? b)
    let test ← match p.test with
      | test :: _ => (readExpr? b test).map some
      | [] => some none
    let steps ← p.steps.mapM (readExpr? b)
    return .seq (.ofList before) (.forLoop test body (.ofList steps))
  | .forEachStatement =>
    match nodes with
    | _ :: collection :: body :: _ => do
      let v := (declaredIdentifier? t n).map (declaredVariable b)
      return .seq (.eval (← readExpr? b collection)) (.forEach v (← read .inLoop body))
    | _ => none
  | .returnStatement => (readFirst? b n).map .leave
  | .yieldBreakStatement => some (.leave .constant)
  | .throwStatement => (readFirst? b n).map .throwing
  -- A jump out of nothing has no form.
  | .breakStatement => if jumps.canBreak then some .leaveLoop else none
  | .continueStatement => if jumps.canContinue then some .nextRound else none
  | .tryStatement => readTry? b (read jumps) n
  | .switchStatement => readSwitch? b (read { jumps with canBreak := true }) n
  -- What is disposed of stands in front; the statement behind it is the last one.
  | .usingStatement => do
    let isBody := fun c => (t.kind c).isStatement
    let body ← read jumps (← (nodes.filter isBody).getLast?)
    let head ← (nodes.filter fun c => !isBody c).mapM (readHeadPart? b)
    return .seq (.ofList head) body
  | .lockStatement =>
    match nodes with
    | lock :: body :: _ => return .seq (.eval (← readExpr? b lock)) (← read jumps body)
    | _ => none
  | _ => none

/-- The form of a statement that is at most `fuel` nodes deep. -/
def readStmtFuel (b : Binder) : Nat → JumpTargets → NodeId → Option Stmt
  | 0 => fun _ _ => none
  | fuel + 1 => readStmtStep b (readStmtFuel b fuel)

/-- The form of a statement outside of all loops. -/
def readStmt? (b : Binder) (n : NodeId) : Option Stmt :=
  readStmtFuel b (b.tree.nodeCount + 1) {} n

/-- The form of a body in braces or behind an arrow. -/
def readBody? (b : Binder) (body : NodeId) : Option Stmt :=
  match b.tree.kind body with
  | .block => readStmt? b body
  | .arrowExpressionClause => do
    return .eval (← readExpr? b (← (b.tree.childNodes body).head?))
  | _ => none

end CodeMend.Flow
