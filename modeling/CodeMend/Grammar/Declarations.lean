import CodeMend.Grammar.Statements

/-!
# CodeMend — the grammar of declarations

Using directives, namespaces, types and their members.  A member is told apart by what follows its
attributes and modifiers; forms that have no node of their own are kept as plain tokens.
-/

namespace CodeMend.Grammar

open CodeMend.Parser

/-- The keywords that modify types and members. -/
def modifierWords : List String := [
  "public", "private", "protected", "internal", "static", "virtual", "override", "abstract",
  "sealed", "readonly", "extern", "unsafe", "new", "const", "volatile", "fixed"]

/-- A modifier stands ahead.  Some words are modifiers only in front of a declaration. -/
def atModifier (c : Cursor) : Bool :=
  let t := c.current
  match t.kind with
  | .keyword => modifierWords.contains t.text
  | .identifier =>
    ["async", "partial", "required", "file"].contains t.text &&
      ((c.nth 1).kind == .keyword || ((c.nth 1).kind == .identifier && !(c.nth 2).isMark "("))
  | _ => false

def modifiers : Parser (List Shape) := manyWhile atModifier bump

/-! ## Parts of declarations

What the program does not look at is read as plain tokens. -/

/-- The tokens of a constraint clause, at most `fuel` of them, inside `depth` brackets. -/
def constraintTokens : Nat → Nat → Parser (List Shape)
  | 0, _ => tooDeep
  | fuel + 1, depth => do
    let t := (← get).current
    if t.kind == .endOfFile then return []
    else if depth == 0 &&
        (t.isMark "\x7b" || t.isMark ";" || t.isMark "=>" || t.isContextual "where") then
      return []
    else
      let depth :=
        -- A bracket too many closes nothing.
        if t.isMark "(" || t.isMark "<" then depth + 1
        else if t.isMark ")" || t.isMark ">" then depth - 1
        else depth
      let token ← bump
      return token ++ (← constraintTokens fuel depth)

/-- The constraints of a declaration, kept as plain tokens. -/
def constraintClauses : Parser (List Shape) :=
  manyWhile (fun c => c.atContextual "where" && (c.nth 1).isIdentifier)
    (one (node .typeParameterConstraintClause (seq [
      bump, choose fun c => constraintTokens (c.tokens.size + 1) 0])))

/-- The tokens of an unknown member, at most `fuel` of them, inside `depth` brackets.  `valued`
tells that an equals sign or an arrow was seen, after which a closing brace does not end it. -/
def unknownTokens : Nat → Nat → Bool → Parser (List Shape)
  | 0, _, _ => tooDeep
  | fuel + 1, depth, valued => do
    let t := (← get).current
    let closes := t.isMark ")" || t.isMark "]" || t.isMark "\x7d"
    if t.kind == .endOfFile then unexpected "';' or '\x7d'"
    else if depth == 0 && closes then unexpected "member declaration"
    else
      let opens := t.isMark "(" || t.isMark "[" || t.isMark "\x7b"
      let valued := valued || (depth == 0 && (t.isMark "=>" || t.isMark "="))
      let depth := if opens then depth + 1 else if closes then depth - 1 else depth
      let token ← bump
      if depth == 0 && t.isMark ";" then return token
      -- A body in braces ends the member, unless a value was begun.
      else if depth == 0 && t.isMark "\x7d" && !valued then
        return token ++ (← whenAt (·.atMark ";") bump)
      else return token ++ (← unknownTokens fuel depth valued)

/-- A member of no known form, after the parts of it that were read. -/
def unknownMember (cp : Checkpoint) (front : List Shape) : Parser Shape :=
  nodeAt cp .unknownMember
    (seq [pure front, choose fun c => unknownTokens (c.tokens.size + 1) 0 false])

/-- A base type, with the arguments of its primary constructor. -/
def baseType (rules : Rules) : Parser (List Shape) :=
  seq [one (rules (.type true)), optionalArguments rules]

def baseList (rules : Rules) : Parser Shape :=
  node .baseList (seq [bump, commaSeparated (baseType rules)])

/-! ## Types

The node of a declaration begins in front of its modifiers, which were read before its kind is
known; so it is begun at a checkpoint. -/

/-- The members of a type between braces, or a semicolon in their place. -/
def typeBody (rules : Rules) : Parser (List Shape) := choose fun c =>
  if c.atMark ";" then bump
  else
    seq [expect "\x7b", untilBrace (one (rules .member)), whenAt (·.atMark ";") bump]

/-- A type declaration, after its attributes and modifiers. -/
def typeDeclaration (rules : Rules) (cp : Checkpoint) (front : List Shape) (kind : NodeKind) :
    Parser Shape :=
  nodeAt cp kind (seq [
    pure front, bump,
    whenAt (fun c => kind == .recordDeclaration && (c.atWord "class" || c.atWord "struct")) bump,
    expectIdentifier, optionalTypeParameters,
    whenAt (·.atMark "(") (one (parameterList rules)),
    whenAt (·.atMark ":") (one (baseList rules)),
    constraintClauses, typeBody rules])

/-- The kind of type declaration that the next tokens begin. -/
def typeDeclarationKind? (c : Cursor) : Option NodeKind :=
  let next := c.nth 1
  if c.atWord "class" then some .classDeclaration
  else if c.atWord "struct" then some .structDeclaration
  else if c.atWord "interface" then some .interfaceDeclaration
  else if c.atContextual "record" &&
      (next.isIdentifier || next.isKeyword "class" || next.isKeyword "struct") then
    some .recordDeclaration
  else none

/-! ## Members

A member is told by what follows its type and its name. -/

/-- A call of another constructor in front of a constructor's body. -/
def constructorInitializer (rules : Rules) : Parser Shape :=
  node .constructorInitializer (seq [
    bump,
    choose fun c =>
      if c.atWord "base" || c.atWord "this" then bump else unexpected "'base' or 'this'",
    one (argumentList rules)])

def constructor (rules : Rules) (cp : Checkpoint) (front : List Shape) : Parser Shape :=
  nodeAt cp .constructorDeclaration (seq [
    pure front, expectIdentifier, one (parameterList rules),
    whenAt (·.atMark ":") (one (constructorInitializer rules)), memberBody rules])

/-- A method, after its name. -/
def methodRest (rules : Rules) (cp : Checkpoint) (front : List Shape) : Parser Shape :=
  nodeAt cp .methodDeclaration (seq [
    pure front, optionalTypeParameters, one (parameterList rules), constraintClauses,
    memberBody rules])

def accessor (rules : Rules) : Parser Shape :=
  node .accessorDeclaration (seq [
    attributeLists, modifiers,
    choose fun c =>
      if c.atIdentifier && ["get", "set", "init", "add", "remove"].contains c.current.text then bump
      else unexpected "accessor",
    memberBody rules])

/-- A property, after its name. -/
def propertyRest (rules : Rules) (cp : Checkpoint) (front : List Shape) : Parser Shape :=
  nodeAt cp .propertyDeclaration (seq [
    pure front,
    choose fun c =>
      if c.atMark "=>" then seq [one (arrowExpressionClause rules), expect ";"]
      else seq [
        one (node .accessorList (seq [expect "\x7b", untilBrace (one (accessor rules))])),
        whenAt (·.atMark "=") (seq [one (equalsValueClause rules), expect ";"])]])

/-- The checkpoints in front of a member, of its type and of its name. -/
structure MemberCheckpoints where
  whole : Checkpoint
  type : Checkpoint
  name : Checkpoint

/-- A field, after its first name. -/
def fieldRest (rules : Rules) (cps : MemberCheckpoints) (front : List Shape) (fieldType : Shape)
    (name : List Shape) : Parser Shape := do
  let first ← nodeAt cps.name .variableDeclarator (seq [pure name, optionalEqualsValue rules])
  let more ← moreDeclarators rules
  let declaration ← nodeAt cps.type .variableDeclaration (pure (fieldType :: first :: more))
  let semicolon ← expect ";"
  nodeAt cps.whole .fieldDeclaration (pure (front ++ [declaration] ++ semicolon))

/-- The points between two indexes that are outside of type arguments. -/
def countPoints (ts : Array Token) (start stop : Nat) : Nat :=
  ((List.range' start (stop - start)).foldl (fun (depth, points) i =>
    let t := tokenAt ts i
    if t.isMark "<" then (depth + 1, points)
    else if t.isMark ">" then (depth - 1, points)
    else if t.isMark "." && depth == 0 then (depth, points + 1)
    else (depth, points)) ((0 : Nat), (0 : Nat))).2

/-- The further segments of the name of an interface, which was built since a checkpoint. -/
def interfaceSegments (rules : Rules) (cp : Checkpoint) : Nat → Shape → Parser Shape
  | 0, name => return name
  | n + 1, name => do
    let longer ← nodeAt cp .qualifiedName
      (seq [pure [name], expect ".", one (simpleTypeName rules)])
    interfaceSegments rules cp n longer

/-- A name of some segments. -/
def interfaceName (rules : Rules) (segments : Nat) : Parser Shape := do
  let cp ← checkpoint
  interfaceSegments rules cp (segments - 1) (← simpleTypeName rules)

/-- The interface in front of a member's name, which takes all segments but the last. -/
def explicitInterfaceSpecifier (rules : Rules) (points : Nat) : Parser Shape :=
  node .explicitInterfaceSpecifier (seq [one (interfaceName rules points), expect "."])

/-- The interface in front of a member's name, if one is there. -/
def optionalInterface (rules : Rules) : Parser (List Shape) := choose fun c =>
  match Scan.name? c.tokens c.pos with
  | some stop =>
    let points := countPoints c.tokens c.pos stop
    if points > 0 then one (explicitInterfaceSpecifier rules points) else return []
  | none => return []

/-- A member after its attributes, modifiers and type, which were built since two checkpoints. -/
def typedMember (rules : Rules) (cp typeCp : Checkpoint) (front : List Shape) (memberType : Shape) :
    Parser Shape := do
  if !(← get).atIdentifier then unknownMember cp (front ++ [memberType])
  else
    let nameCp ← checkpoint
    let name ← seq [optionalInterface rules, expectIdentifier]
    let c ← get
    let whole := front ++ memberType :: name
    -- What stands behind the name tells the member.
    if c.atMark "(" || c.atMark "<" then methodRest rules cp whole
    else if c.atMark "\x7b" || c.atMark "=>" then propertyRest rules cp whole
    else if c.atMark "=" || c.atMark ";" || c.atMark "," then
      fieldRest rules ⟨cp, typeCp, nameCp⟩ front memberType name
    else unknownMember cp whole

/-- A token that begins a member kept as plain tokens. -/
def startsUnknownMember (c : Cursor) : Bool :=
  ["enum", "delegate", "event", "implicit", "explicit"].any c.atWord || c.atMark "~"

/-- A declaration of a type or a member. -/
def member (rules : Rules) : Parser Shape := do
  let cp ← checkpoint
  let start := (← get).pos
  let front ← seq [attributeLists, modifiers]
  let c ← get
  match typeDeclarationKind? c with
  | some kind => typeDeclaration rules cp front kind
  | none =>
    if startsUnknownMember c then unknownMember cp front
    else if c.atIdentifier && (c.nth 1).isMark "(" then constructor rules cp front
    else
      let typeCp ← checkpoint
      if (Scan.type? c.tokens c.pos true).isNone then
        if c.pos == start then unexpected "member declaration" else unknownMember cp front
      else typedMember rules cp typeCp front (← rules (.type true))

/-! ## Namespaces

A namespace holds what a file may hold. -/

def usingDirective (rules : Rules) : Parser Shape :=
  node .usingDirective (seq [
    whenAt (·.atContextual "global") bump, expectWord "using", whenAt (·.atWord "static") bump,
    whenAt (fun c => c.atIdentifier && (c.nth 1).isMark "=") (seq [bump, bump]),
    one (typeName rules), expect ";"])

/-- A namespace with braces, or one that takes the rest of the file. -/
def namespaceDeclaration (rules : Rules) : Parser Shape := do
  let cp ← checkpoint
  let front ← seq [expectWord "namespace", one (typeName rules)]
  if (← get).atMark ";" then
    let semicolon ← bump
    nodeAt cp .fileScopedNamespaceDeclaration (seq [
      pure (front ++ semicolon),
      manyWhile (fun c => !c.atEnd) (one (rules .namespaceMember))])
  else
    nodeAt cp .namespaceDeclaration (seq [
      pure front, expect "\x7b", untilBrace (one (rules .namespaceMember)),
      whenAt (·.atMark ";") bump])

def namespaceMember (rules : Rules) : Parser Shape := choose fun c =>
  if c.atWord "using" || (c.atContextual "global" && (c.nth 1).isKeyword "using") then
    usingDirective rules
  else if c.atWord "namespace" then namespaceDeclaration rules
  else member rules

/-- A whole file. -/
def compilationUnit (rules : Rules) : Parser Shape :=
  node .compilationUnit
    (seq [manyWhile (fun c => !c.atEnd) (one (namespaceMember rules)), endOfFile])

end CodeMend.Grammar
