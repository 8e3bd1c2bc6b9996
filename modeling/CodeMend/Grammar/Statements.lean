import CodeMend.Grammar.Expressions

/-!
# CodeMend — the grammar of statements

Each statement is recognised by its first token; a local declaration or a local function by the
typed name ahead; everything else is an expression.
-/

namespace CodeMend.Grammar

open CodeMend.Parser

/-! ## Parts that members and statements share

The parts of a declaration that local functions have as well. -/

/-- A value after an equals sign. -/
def equalsValueClause (rules : Rules) : Parser Shape :=
  node .equalsValueClause (seq [
    expect "=",
    choose fun c => one (rules (if c.atMark "\x7b" then .initializer else .expression))])

def optionalEqualsValue (rules : Rules) : Parser (List Shape) :=
  whenAt (·.atMark "=") (one (equalsValueClause rules))

/-- A name with an optional value. -/
def variableDeclarator (rules : Rules) : Parser Shape :=
  node .variableDeclarator (seq [expectIdentifier, optionalEqualsValue rules])

/-- The further names of a declaration, each after a comma. -/
def moreDeclarators (rules : Rules) : Parser (List Shape) :=
  manyWhile (·.atMark ",") (seq [bump, one (variableDeclarator rules)])

def variableDeclaration (rules : Rules) : Parser Shape :=
  node .variableDeclaration (seq [
    one (rules (.type true)), one (variableDeclarator rules), moreDeclarators rules])

/-- The bracketed lists of attributes ahead, kept as plain tokens. -/
def attributeLists : Parser (List Shape) :=
  manyWhile (·.atMark "[") (choose fun c =>
    match Scan.balanced c.tokens c.pos with
    | some stop => one (node .attributeList (bumpTo stop))
    | none => unexpected "']'")

/-- Type parameters, kept as plain tokens. -/
def typeParameterList : Parser Shape := choose fun c =>
  match Scan.balanced c.tokens c.pos with
  | some stop => node .typeParameterList (bumpTo stop)
  | none => unexpected "'>'"

def optionalTypeParameters : Parser (List Shape) :=
  whenAt (·.atMark "<") (one typeParameterList)

/-- A keyword or word that changes how a parameter is passed. -/
def atParameterModifier (c : Cursor) : Bool :=
  let t := c.current
  (t.kind == .keyword && ["ref", "out", "in", "params", "this", "readonly"].contains t.text) ||
    (t.isContextual "scoped" && (c.nth 1).kind != .punctuation)

def parameter (rules : Rules) : Parser Shape :=
  node .parameter (seq [
    attributeLists, manyWhile atParameterModifier bump, one (rules (.type true)),
    expectIdentifier, optionalEqualsValue rules])

def parameterList (rules : Rules) : Parser Shape :=
  node .parameterList (seq [
    expect "(",
    whenAt (fun c => !c.atMark ")") (commaSeparated (one (parameter rules))),
    expect ")"])

def arrowExpressionClause (rules : Rules) : Parser Shape :=
  node .arrowExpressionClause (seq [expect "=>", one (rules .expression)])

/-- A block, an arrow with an expression, or nothing but a semicolon. -/
def memberBody (rules : Rules) : Parser (List Shape) := choose fun c =>
  if c.atMark "\x7b" then one (rules .block)
  else if c.atMark "=>" then seq [one (arrowExpressionClause rules), expect ";"]
  else expect ";"

/-! ## Lookahead

Declarations begin as expressions may begin.  Scans of the tokens ahead settle what it is before any
node is begun. -/

/-- A type and the name of a local variable stand ahead. -/
def atLocalDeclaration (c : Cursor) : Bool :=
  !(c.atContextual "await" || c.atContextual "yield") &&
    (Scan.typedName? c.tokens c.pos { marks := ["=", ";", ","] }).isSome

/-- A type, a name and the parameters of a local function stand at an index. -/
def localFunctionAt (ts : Array Token) (i : Nat) : Bool :=
  (do
    if (tokenAt ts i).isContextual "await" then none
    let name ← Scan.type? ts i true
    if !(tokenAt ts name).isIdentifier then none
    let j ← if Scan.markAt ts (name + 1) "<" then Scan.balanced ts (name + 1) else some (name + 1)
    if !Scan.markAt ts j "(" then none
    let stop ← Scan.balanced ts j
    let next := tokenAt ts stop
    return next.isMark "\x7b" || next.isMark "=>" || next.isContextual "where").getD false

/-! ## Statements

The first word of a statement tells which one it is; without such a word it is a declaration, a
local function or an expression. -/

def block (rules : Rules) : Parser Shape :=
  node .block (seq [expect "\x7b", untilBrace (one (rules .statement))])

/-- A statement of one token and a semicolon. -/
def simpleStatement (kind : NodeKind) : Parser Shape := node kind (seq [bump, expect ";"])

/-- A keyword, an optional expression and a semicolon. -/
def returnLike (rules : Rules) (kind : NodeKind) : Parser Shape :=
  node kind (seq [
    bump, whenAt (fun c => !c.atMark ";") (one (rules .expression)), expect ";"])

def yieldReturn (rules : Rules) : Parser Shape :=
  node .yieldReturnStatement (seq [bump, bump, one (rules .expression), expect ";"])

def yieldBreak : Parser Shape := node .yieldBreakStatement (seq [bump, bump, expect ";"])

def expressionStatement (rules : Rules) : Parser Shape :=
  node .expressionStatement (seq [one (rules .expression), expect ";"])

/-- An expression in parentheses. -/
def condition (rules : Rules) : Parser (List Shape) :=
  seq [expect "(", one (rules .expression), expect ")"]

def elseClause (rules : Rules) : Parser Shape :=
  node .elseClause (seq [bump, one (rules .statement)])

def ifStatement (rules : Rules) : Parser Shape :=
  node .ifStatement (seq [
    bump, condition rules, one (rules .statement),
    whenAt (·.atWord "else") (one (elseClause rules))])

/-- A keyword, a condition and a statement. -/
def guarded (rules : Rules) (kind : NodeKind) : Parser Shape :=
  node kind (seq [bump, condition rules, one (rules .statement)])

def doStatement (rules : Rules) : Parser Shape :=
  node .doStatement (seq [
    bump, one (rules .statement), expectWord "while", condition rules, expect ";"])

def expressionList (rules : Rules) : Parser (List Shape) :=
  commaSeparated (one (rules .expression))

def forStatement (rules : Rules) : Parser Shape :=
  node .forStatement (seq [
    bump, expect "(",
    choose fun c =>
      if atLocalDeclaration c then one (variableDeclaration rules)
      else whenAt (fun c => !c.atMark ";") (expressionList rules),
    expect ";",
    whenAt (fun c => !c.atMark ";") (one (rules .expression)),
    expect ";",
    whenAt (fun c => !c.atMark ")") (expressionList rules),
    expect ")", one (rules .statement)])

def forEachStatement (rules : Rules) : Parser Shape :=
  node .forEachStatement (seq [
    bump, expect "(", one (rules (.type true)), expectIdentifier, expectWord "in",
    one (rules .expression), expect ")", one (rules .statement)])

def catchDeclaration (rules : Rules) : Parser Shape :=
  node .catchDeclaration (seq [
    bump, one (rules (.type true)), whenAt (·.atIdentifier) bump, expect ")"])

def catchClause (rules : Rules) : Parser Shape :=
  node .catchClause (seq [
    bump,
    whenAt (·.atMark "(") (one (catchDeclaration rules)),
    whenAt (·.atContextual "when") (seq [bump, condition rules]),
    one (block rules)])

def tryStatement (rules : Rules) : Parser Shape :=
  node .tryStatement (seq [
    bump, one (block rules),
    manyWhile (·.atWord "catch") (one (catchClause rules)),
    whenAt (·.atWord "finally") (one (node .finallyClause (seq [bump, one (block rules)])))])

/-- A label of a switch section stands ahead. -/
def atSwitchLabel (c : Cursor) : Bool :=
  c.atWord "case" || (c.atWord "default" && (c.nth 1).isMark ":")

def switchLabel (rules : Rules) : Parser Shape := choose fun c =>
  if c.atWord "default" then node .defaultSwitchLabel (seq [bump, bump])
  else
    node .caseSwitchLabel (seq [
      bump,
      choose fun c =>
        let followers : Scan.Followers := { marks := [":"], words := ["when"] }
        if (Scan.typedName? c.tokens c.pos followers).isSome then
          one (declarationPattern rules true)
        else one (rules .expression),
      whenAt (·.atContextual "when") (seq [bump, one (rules .expression)]),
      expect ":"])

def switchSection (rules : Rules) : Parser Shape :=
  node .switchSection (seq [
    manyWhile atSwitchLabel (one (switchLabel rules)),
    manyWhile (fun c => !(c.atMark "\x7d" || c.atWord "case" || c.atWord "default" || c.atEnd))
      (one (rules .statement))])

def switchStatement (rules : Rules) : Parser Shape :=
  node .switchStatement (seq [
    bump, condition rules, expect "\x7b",
    manyWhile (fun c => !c.atMark "\x7d") (choose fun c =>
      if atSwitchLabel c then one (switchSection rules) else unexpected "'case' or 'default'"),
    bump])

/-- A declaration of local variables, which may be constants or disposed of at the end. -/
def localDeclaration (rules : Rules) : Parser Shape :=
  node .localDeclarationStatement (seq [
    whenAt (·.atWord "using") bump, whenAt (·.atWord "const") bump,
    one (variableDeclaration rules), expect ";"])

def usingStatement (rules : Rules) : Parser Shape := choose fun c =>
  if !(c.nth 1).isMark "(" then localDeclaration rules
  else
    node .usingStatement (seq [
      bump, expect "(",
      choose fun c =>
        if atLocalDeclaration c then one (variableDeclaration rules) else one (rules .expression),
      expect ")", one (rules .statement)])

/-- The constraints of a local function, kept as plain tokens. -/
def localConstraintClause : Parser Shape :=
  node .typeParameterConstraintClause
    (manyWhile (fun c => !(c.atMark "\x7b" || c.atMark "=>" || c.atEnd)) bump)

def localFunction (rules : Rules) : Parser Shape :=
  node .localFunctionStatement (seq [
    manyWhile (fun c => c.atWord "static" || c.atContextual "async" || c.atWord "unsafe") bump,
    one (rules (.type true)), expectIdentifier, optionalTypeParameters, one (parameterList rules),
    manyWhile (·.atContextual "where") (one localConstraintClause),
    memberBody rules])

/-- The statement that a keyword begins, if it begins one. -/
def keywordStatement? (rules : Rules) (word : String) : Option (Parser Shape) :=
  match word with
  | "if" => some (ifStatement rules)
  | "while" => some (guarded rules .whileStatement)
  | "do" => some (doStatement rules)
  | "for" => some (forStatement rules)
  | "foreach" => some (forEachStatement rules)
  | "return" => some (returnLike rules .returnStatement)
  | "throw" => some (returnLike rules .throwStatement)
  | "break" => some (simpleStatement .breakStatement)
  | "continue" => some (simpleStatement .continueStatement)
  | "try" => some (tryStatement rules)
  | "switch" => some (switchStatement rules)
  | "lock" => some (guarded rules .lockStatement)
  | "using" => some (usingStatement rules)
  | "const" => some (localDeclaration rules)
  | "static" => some (localFunction rules)
  | _ => none

/-- The statement that the next tokens announce by themselves, if they do. -/
def announcedStatement? (rules : Rules) (c : Cursor) : Option (Parser Shape) :=
  let t := c.current
  match t.kind with
  | .punctuation =>
    if t.text == "\x7b" then some (block rules)
    else if t.text == ";" then some (simpleStatement .emptyStatement)
    else none
  | .keyword => keywordStatement? rules t.text
  | .identifier =>
    if t.text == "yield" && (c.nth 1).isKeyword "return" then some (yieldReturn rules)
    else if t.text == "yield" && (c.nth 1).isKeyword "break" then some yieldBreak
    else if t.text == "async" && localFunctionAt c.tokens (c.pos + 1) then
      some (localFunction rules)
    else none
  | _ => none

def statement (rules : Rules) : Parser Shape := choose fun c =>
  match announcedStatement? rules c with
  | some p => p
  | none =>
    if atLocalDeclaration c then localDeclaration rules
    else if localFunctionAt c.tokens c.pos then localFunction rules
    else expressionStatement rules

end CodeMend.Grammar
