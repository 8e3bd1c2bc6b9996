import CodeMend.Grammar.Types

/-!
# CodeMend — the grammar of expressions

From loose to tight: lambdas and assignments, the conditional, the operator that replaces null, the
binary operators by level, unary operators and casts, and the operators behind an operand.
-/

namespace CodeMend.Grammar

open CodeMend.Parser

/-! ## Operators

The levels are data, so that one rule serves all of them. -/

/-- Binary operators that bind equally tight.  Type tests stand with the relational operators;
right shifts are two adjacent closing brackets. -/
structure BinaryLevel where
  marks : List String
  isRelational : Bool := false
  isShift : Bool := false

/-- The levels that bind looser than shifts, the loosest first. -/
def looseLevels : List BinaryLevel := [
  { marks := ["||"] },
  { marks := ["&&"] },
  { marks := ["|"] },
  { marks := ["^"] },
  { marks := ["&"] },
  { marks := ["==", "!="] },
  { marks := ["<", ">", "<=", ">="], isRelational := true }]

/-- The levels from shifts on, the loosest first. -/
def tightLevels : List BinaryLevel := [
  { marks := ["<<"], isShift := true },
  { marks := ["+", "-"] },
  { marks := ["*", "/", "%"] }]

/-- All levels, the loosest first. -/
def binaryLevels : List BinaryLevel := looseLevels ++ tightLevels

def assignmentMarks : List String :=
  ["=", "+=", "-=", "*=", "/=", "%=", "&=", "|=", "^=", "<<=", "??="]

/-- The marks of the operators that stand before their operand. -/
def unaryMarks : List String := ["+", "-", "!", "~", "++", "--"]

/-- What may follow a name with type arguments for it to be one. -/
def genericFollowers : List String :=
  ["(", ")", "]", "\x7d", ":", ";", ",", ".", "?", "?.", "==", "!=", "|", "^", "&&", "||", "&", "["]

/-- The next token but one is a mark that follows without a gap. -/
def gluedNext (c : Cursor) (mark : String) : Bool := (c.nth 1).isMark mark && c.nextIsAdjacent

/-- The number of tokens of the assignment operator ahead. -/
def assignmentOperator? (c : Cursor) : Option Nat :=
  if assignmentMarks.any c.atMark then some 1
  else if c.atMark ">" && gluedNext c ">=" then some 2
  else none

/-- The number of tokens of the operator of a level ahead. -/
def BinaryLevel.operator? (level : BinaryLevel) (c : Cursor) : Option Nat :=
  if c.atMark ">" then
    let shift := gluedNext c ">"
    let shiftAssign := gluedNext c ">="
    if level.isShift && shift then some 2
    else if level.isRelational && !shift && !shiftAssign then some 1
    else none
  else if level.marks.any c.atMark then some 1
  else none

/-- A token can begin the operand of a unary operator. -/
def startsOperand (t : Token) : Bool :=
  match t.kind with
  | .identifier | .integerLiteral | .realLiteral | .stringLiteral | .characterLiteral => true
  | .keyword =>
    ["this", "base", "new", "typeof", "default", "true", "false", "null"].contains t.text ||
      predefinedTypes.contains t.text
  | .punctuation => t.isMark "(" || t.isMark "!" || t.isMark "~"
  | .endOfFile => false

/-- A type in parentheses stands ahead, and an operand follows it. -/
def atCast (c : Cursor) : Bool :=
  match Scan.type? c.tokens (c.pos + 1) true with
  | none => false
  | some stop =>
    let next := tokenAt c.tokens (stop + 1)
    Scan.markAt c.tokens stop ")" &&
      (((c.nth 1).kind == .keyword && ["-", "+", "++", "--"].any next.isMark) ||
        startsOperand next)

/-! ## Names and literals

A bracket behind a name may compare or begin type arguments, and what follows the closing one
decides. -/

/-- A node around the next token. -/
def single (kind : NodeKind) : Parser Shape := node kind bump

/-- The type arguments behind the next token are ones: what follows them cannot be an operand. -/
def atGenericName (c : Cursor) : Bool :=
  match Scan.typeArguments? c.tokens (c.pos + 1) with
  | some stop =>
    let follow := tokenAt c.tokens stop
    follow.kind == .endOfFile || genericFollowers.any follow.isMark
  | none => false

/-- A name in an expression, with or without type arguments. -/
def simpleName (rules : Rules) : Parser Shape := choose fun c =>
  if !c.atIdentifier then unexpected "identifier"
  else if atGenericName c then node .genericName (seq [bump, one (typeArgumentList rules)])
  else single .identifierName

/-- A keyword applied to a type in parentheses. -/
def typeOperator (rules : Rules) (kind : NodeKind) : Parser Shape :=
  node kind (seq [bump, expect "(", one (rules (.type true)), expect ")"])

/-! ## Arguments and declarations in expressions

The forms of an argument are one rule; what stands around them tells the mark that closes the list.
-/

def atNameColon (c : Cursor) : Bool := c.atIdentifier && (c.nth 1).isMark ":"

/-- The name of an argument or tuple element with its colon. -/
def nameColon : Parser Shape := node .nameColon (seq [one (single .identifierName), bump])

def singleVariableDesignation : Parser Shape := node .singleVariableDesignation expectIdentifier

/-- A type and a name where an expression is expected. -/
def declarationExpression (rules : Rules) : Parser Shape :=
  node .declarationExpression
    (seq [one (rules (.type true)), one singleVariableDesignation])

/-- A declaration when a typed name followed as given stands ahead, and else an expression. -/
def declarationOrExpression (rules : Rules) (followers : Scan.Followers) : Parser Shape :=
  choose fun c =>
    if (Scan.typedName? c.tokens c.pos followers).isSome then declarationExpression rules
    else rules .expression

def argument (rules : Rules) (close : String) : Parser Shape :=
  node .argument (seq [
    whenAt atNameColon (one nameColon),
    whenAt (fun c => c.atWord "ref" || c.atWord "out" || c.atWord "in") bump,
    one (declarationOrExpression rules { marks := [",", close] })])

/-- Arguments between an opening and a closing mark. -/
def arguments (rules : Rules) (opening close : String) : Parser (List Shape) :=
  seq [expect opening,
    whenAt (fun c => !c.atMark close) (commaSeparated (one (argument rules close))),
    expect close]

def argumentList (rules : Rules) : Parser Shape := node .argumentList (arguments rules "(" ")")

def bracketedArgumentList (rules : Rules) : Parser Shape :=
  node .bracketedArgumentList (arguments rules "[" "]")

/-- An element of a tuple, and whether it can be nothing but that. -/
def tupleElement (rules : Rules) : Parser (List Shape × Bool) := do
  let named := atNameColon (← get)
  let name ← whenAt atNameColon (one nameColon)
  let c ← get
  let declares := (Scan.typedName? c.tokens c.pos { marks := [",", ")"] }).isSome
  let value ← if declares then declarationExpression rules else rules .expression
  return (name ++ [value], named || declares)

/-- A parenthesized expression or a tuple. -/
def parenthesizedOrTuple (rules : Rules) : Parser Shape := do
  let cp ← checkpoint
  let opening ← expect "("
  let firstCp ← checkpoint
  let (first, forced) ← tupleElement rules
  if (← get).atMark "," || forced then
    let first ← nodeAt firstCp .argument (pure first)
    let more ← manyWhile (·.atMark ",") (seq [bump,
      one (node .argument do return (← tupleElement rules).1)])
    let close ← expect ")"
    nodeAt cp .tupleExpression (pure (opening ++ [first] ++ more ++ close))
  else
    let close ← expect ")"
    nodeAt cp .parenthesizedExpression (pure (opening ++ first ++ close))

/-! ## Deconstruction

A list of names in parentheses declares variables only if it is assigned to. -/

/-- Names with commas between them, a closing parenthesis and an equals sign stand at an index. -/
def namesThenAssignment (ts : Array Token) : Nat → Nat → Bool
  | 0, _ => false
  | fuel + 1, i =>
    (tokenAt ts i).isIdentifier &&
      (if Scan.markAt ts (i + 1) "," then namesThenAssignment ts fuel (i + 2)
      else Scan.markAt ts (i + 1) ")" && Scan.markAt ts (i + 2) "=")

/-- A declaration of several variables in parentheses stands ahead. -/
def atDeconstruction (c : Cursor) : Bool :=
  c.atContextual "var" && (c.nth 1).isMark "(" &&
    namesThenAssignment c.tokens (c.tokens.size + 1) (c.pos + 2)

def deconstructionDeclaration : Parser Shape :=
  node .declarationExpression (seq [
    one (single .identifierName),
    one (node .parenthesizedVariableDesignation
      (seq [expect "(", commaSeparated (one singleVariableDesignation), expect ")"]))])

/-! ## Creation

Brackets with sizes stand inside of the type that is created. -/

/-- Elements between braces; an element in braces is itself an initializer. -/
def initializer (rules : Rules) : Parser Shape :=
  node .initializerExpression (seq [
    expect "\x7b",
    commaItems "\x7d" (choose fun c =>
      one (rules (if c.atMark "\x7b" then .initializer else .expression))),
    expect "\x7d"])

/-- Brackets with sizes. -/
def sizedRank (rules : Rules) : Parser Shape :=
  node .arrayRankSpecifier (seq [
    bump,
    manyWhile (fun c => !c.atMark "]") (choose fun c =>
      if c.atMark "," then bump else one (rules .expression)),
    bump])

/-- An initializer if a brace stands ahead. -/
def optionalInitializer (rules : Rules) : Parser (List Shape) :=
  whenAt (·.atMark "\x7b") (one (rules .initializer))

/-- Arguments if a parenthesis stands ahead. -/
def optionalArguments (rules : Rules) : Parser (List Shape) :=
  whenAt (·.atMark "(") (one (argumentList rules))

/-- The token before the cursor is a closing bracket. -/
def behindBracket (c : Cursor) : Bool := (tokenAt c.tokens (c.pos - 1)).isMark "]"

/-- The creation of an object or an array. -/
def creation (rules : Rules) : Parser Shape := do
  let cp ← checkpoint
  let new ← expectWord "new"
  let c ← get
  if c.atMark "(" || c.atMark "\x7b" then
    let parts ← seq [optionalArguments rules, optionalInitializer rules]
    nodeAt cp .implicitObjectCreationExpression (pure (new ++ parts))
  else if c.atMark "[" then
    let parts ← seq [bump, manyWhile (·.atMark ",") bump, expect "]", one (rules .initializer)]
    nodeAt cp .implicitArrayCreationExpression (pure (new ++ parts))
  else
    let typeCp ← checkpoint
    let element ← rules (.type true)
    let c ← get
    if c.atMark "[" then
      let array ← nodeAt typeCp .arrayType
        (seq [pure [element], manyWhile (·.atMark "[") (one (sizedRank rules))])
      let init ← optionalInitializer rules
      nodeAt cp .arrayCreationExpression (pure (new ++ [array] ++ init))
    else if behindBracket c then
      let init ← one (rules .initializer)
      nodeAt cp .arrayCreationExpression (pure (new ++ [element] ++ init))
    else
      let parts ← seq [optionalArguments rules, optionalInitializer rules]
      nodeAt cp .objectCreationExpression (pure (new ++ [element] ++ parts))

/-! ## Operands

An operand is read first and then wrapped by each operator behind it, from a checkpoint in front of
it. -/

def primary (rules : Rules) : Parser Shape := choose fun c =>
  let t := c.current
  match t.kind with
  | .integerLiteral | .realLiteral | .stringLiteral | .characterLiteral =>
    single .literalExpression
  | .identifier =>
    -- The word `var` in front of names in parentheses.
    if atDeconstruction c then deconstructionDeclaration else simpleName rules
  | .keyword =>
    if ["true", "false", "null"].contains t.text then single .literalExpression
    else if t.text == "this" then single .thisExpression
    else if t.text == "base" then single .baseExpression
    else if t.text == "new" then creation rules
    else if t.text == "typeof" then typeOperator rules .typeOfExpression
    else if t.text == "default" then
      if (c.nth 1).isMark "(" then typeOperator rules .defaultExpression
      else single .literalExpression
    else if predefinedTypes.contains t.text then single .predefinedType
    else unexpected "expression"
  | .punctuation =>
    if t.isMark "(" then parenthesizedOrTuple rules else unexpected "expression"
  | .endOfFile => unexpected "expression"

/-- The mark that asserts that a value is not null stands ahead. -/
def atNullForgiving (c : Cursor) : Bool :=
  c.atMark "!" && [".", "?.", ")", ";", ",", "]", "[", "\x7d"].any (c.nth 1).isMark

/-- The operator behind an operand that is ahead, conditional access left aside. -/
def operandSuffix? (rules : Rules) (cp : Checkpoint) (c : Cursor) :
    Option (Shape → Parser Shape) :=
  if c.atMark "." || c.atMark "::" then
    some fun e => nodeAt cp .memberAccessExpression (seq [pure [e], bump, one (simpleName rules)])
  else if c.atMark "(" then
    some fun e => nodeAt cp .invocationExpression (seq [pure [e], one (argumentList rules)])
  else if c.atMark "[" then
    some fun e =>
      nodeAt cp .elementAccessExpression (seq [pure [e], one (bracketedArgumentList rules)])
  else if c.atMark "++" || c.atMark "--" || atNullForgiving c then
    some fun e => nodeAt cp .postfixUnaryExpression (seq [pure [e], bump])
  else none

/-- Conditional access by brackets stands ahead. -/
def atConditionalElement (c : Cursor) : Bool := c.atMark "?" && gluedNext c "["

/-- The operators behind what follows a conditional access, which begins with a binding. -/
def accessed (rules : Rules) (binding : Parser Shape) : Parser Shape := do
  let cp ← checkpoint
  rules (.operators cp (← binding))

/-- The operators behind an operand that was built since a checkpoint.  What follows a conditional
access belongs to it. -/
def operators (rules : Rules) (cp : Checkpoint) (operand : Shape) : Parser Shape := do
  let e ← grow (operandSuffix? rules cp) operand
  let c ← get
  if c.atMark "?." then
    nodeAt cp .conditionalAccessExpression (seq [
      pure [e], bump,
      one (accessed rules (node .memberBindingExpression (one (simpleName rules))))])
  else if atConditionalElement c then
    nodeAt cp .conditionalAccessExpression (seq [
      pure [e], bump,
      one (accessed rules (node .elementBindingExpression (one (bracketedArgumentList rules))))])
  else return e

/-- An operand with the operators behind it. -/
def fullOperand (rules : Rules) : Parser Shape := do
  let cp ← checkpoint
  operators rules cp (← primary rules)

def unary (rules : Rules) : Parser Shape := choose fun c =>
  if unaryMarks.any c.atMark then
    node .prefixUnaryExpression (seq [bump, one (rules .unary)])
  else if c.atContextual "await" && startsOperand (c.nth 1) then
    node .awaitExpression (seq [bump, one (rules .unary)])
  else if c.atWord "throw" then
    node .throwExpression (seq [bump, one (rules .expression)])
  else if c.atMark "(" && atCast c then
    node .castExpression
      (seq [bump, one (rules (.type true)), expect ")", one (rules .unary)])
  else fullOperand rules

/-! ## Binary operators

The rules above operands, from the tightest to the loosest. -/

/-- The operator of a level that is ahead, with its right operand. -/
def binarySuffix? (rules : Rules) (level : BinaryLevel) (operand : Parser Shape) (cp : Checkpoint)
    (c : Cursor) : Option (Shape → Parser Shape) :=
  if level.isRelational && c.atWord "is" then
    some fun e => nodeAt cp .isPatternExpression (seq [pure [e], bump, one (rules .pattern)])
  else if level.isRelational && c.atWord "as" then
    some fun e => nodeAt cp .asExpression (seq [pure [e], bump, one (rules (.type false))])
  else
    (level.operator? c).map fun length => fun e =>
      nodeAt cp .binaryExpression
        (seq [pure [e], bump, whenAt (fun _ => length == 2) bump, one operand])

/-- Operands of the first of some levels, which are the tighter ones, with its operators. -/
def binary (rules : Rules) : List BinaryLevel → Parser Shape
  | [] => unary rules
  | level :: tighter => do
    let cp ← checkpoint
    let first ← binary rules tighter
    grow (binarySuffix? rules level (binary rules tighter) cp) first

/-- The operator that replaces null groups to the right. -/
def coalesce (rules : Rules) : Parser Shape := do
  let cp ← checkpoint
  let e ← binary rules binaryLevels
  if (← get).atMark "??" then
    nodeAt cp .binaryExpression (seq [pure [e], bump, one (rules .coalesce)])
  else return e

def conditional (rules : Rules) : Parser Shape := do
  let cp ← checkpoint
  let e ← coalesce rules
  if (← get).atMark "?" then
    nodeAt cp .conditionalExpression (seq [
      pure [e], bump, one (rules .expression), expect ":", one (rules .expression)])
  else return e

/-! ## Patterns

A pattern is told from an expression by the tokens it begins with. -/

def declarationPattern (rules : Rules) (nullable : Bool) : Parser Shape :=
  node .declarationPattern
    (seq [one (rules (.type nullable)), one singleVariableDesignation])

/-- A token that can only begin a constant pattern. -/
def startsConstant (t : Token) : Bool :=
  t.isLiteral || t.isKeyword "null" || t.isKeyword "true" || t.isKeyword "false" || t.isMark "-"

/-- A pattern behind a type test. -/
def pattern (rules : Rules) : Parser Shape := choose fun c =>
  let constant := node .constantPattern (one (binary rules tightLevels))
  if c.atContextual "not" && (c.nth 1).kind != .punctuation then
    node .notPattern (seq [bump, one (rules .pattern)])
  else if startsConstant c.current then constant
  else
    match Scan.type? c.tokens c.pos false with
    | some stop =>
      let next := tokenAt c.tokens stop
      if next.isIdentifier && !(["and", "or", "when"].contains next.text) then
        declarationPattern rules false
      else node .typePattern (one (rules (.type false)))
    | none => constant

/-! ## Lambdas

A parenthesis in front may begin a lambda, a cast, a tuple or an expression; lambdas are looked for
first. -/

/-- The two forms of a lambda. -/
inductive LambdaForm where
  /-- One parameter without parentheses. -/
  | simple
  | parenthesized

/-- The form of the lambda ahead, if one is. -/
def lambdaAt? (c : Cursor) : Option LambdaForm :=
  let i := if c.atContextual "async" && ((c.nth 1).isIdentifier || (c.nth 1).isMark "(") then
    c.pos + 1 else c.pos
  if (tokenAt c.tokens i).isIdentifier && Scan.markAt c.tokens (i + 1) "=>" then some .simple
  else if Scan.markAt c.tokens i "(" then
    match Scan.balanced c.tokens i with
    | some stop => if Scan.markAt c.tokens stop "=>" then some .parenthesized else none
    | none => none
  else none

def lambdaParameter (rules : Rules) : Parser Shape :=
  node .parameter (seq [
    manyWhile (fun c => c.atWord "ref" || c.atWord "out" || c.atWord "in") bump,
    whenAt (fun c => (Scan.typedName? c.tokens c.pos { marks := [",", ")"] }).isSome)
      (one (rules (.type true))),
    expectIdentifier])

def lambdaParameterList (rules : Rules) : Parser Shape :=
  node .parameterList
    (seq [expect "(", commaItems ")" (one (lambdaParameter rules)), expect ")"])

/-- The arrow of a lambda and what follows it. -/
def lambdaBody (rules : Rules) : Parser (List Shape) :=
  seq [expect "=>",
    choose fun c => one (rules (if c.atMark "\x7b" then .block else .expression))]

def lambda (rules : Rules) : LambdaForm → Parser Shape
  | .simple =>
    node .simpleLambdaExpression (seq [
      whenAt (fun c => c.atContextual "async" && !(c.nth 1).isMark "=>") bump,
      one (node .parameter expectIdentifier),
      lambdaBody rules])
  | .parenthesized =>
    node .parenthesizedLambdaExpression (seq [
      whenAt (·.atContextual "async") bump,
      one (lambdaParameterList rules),
      lambdaBody rules])

/-- Any expression. -/
def expression (rules : Rules) : Parser Shape := do
  match lambdaAt? (← get) with
  | some form => lambda rules form
  | none =>
    let cp ← checkpoint
    let target ← conditional rules
    match assignmentOperator? (← get) with
    | some length =>
      nodeAt cp .assignmentExpression (seq [
        pure [target], bump, whenAt (fun _ => length == 2) bump, one (rules .expression)])
    | none => return target

end CodeMend.Grammar
