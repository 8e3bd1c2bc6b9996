import CodeMend.Binding.Overloads
import CodeMend.Binding.Sites
import CodeMend.Model.Error
import CodeMend.Model.Program

/-!
# CodeMend — binding names and typing expressions

What a name refers to, which method a call calls and which type an expression has depend on each
other: the type of a variable may be that of its first value, and a call is resolved by the types of
its arguments.  All of this goes through the type of an expression, so a `Binder` holds the function
that types the expressions of its document, and every rule is stated over it.  `Binder.typeStep` is
one step of that function, and `typeOfFuel` iterates the step.

The search for a type need not come to an end: the variable of a loop over a collection is in sight
inside of that collection, so that in `foreach (var x in x)` the type of `x` asks for itself.  A
search that uses up its steps is such an error, which every rule hands on.  `Binder.ofDocument`
allows as many steps as the document has nodes, which every search that ends can do with.

* **`lookupVariable?`**, **`bindIdentifier?`**, **`referencedSymbol?`** — what names refer to.
* **`calleeCandidates`**, **`resolveInvocation?`** — which method a call calls.
* **`typeOf`** — the type of an expression.
-/

namespace CodeMend

structure Binder where
  program : Program
  document : Document
  /-- The type of an expression of the document. -/
  typeOf : NodeId → Analysis StaticType

/-- What stands on the left of a point. -/
inductive Receiver where
  /-- A value of a type. -/
  | value (type : StaticType)
  /-- The name of a type. -/
  | typeName (type : TypeId)
  | unknown
deriving DecidableEq, Repr

/-- What a bare name on the left of a point stands for, by what it refers to. -/
def Receiver.ofSymbol : Option Symbol → Receiver
  | some (.var v) => .value v.type
  | some (.member _ m) => .value m.type
  | some (.type type) => .typeName type
  | _ => .unknown

namespace Binder

def tree (b : Binder) : Tree := b.document.tree

def resolveType (b : Binder) (n : NodeId) : StaticType := b.program.resolveType b.document n

/-- The name at the front of a node. -/
def frontName (b : Binder) (n : NodeId) : String :=
  (b.tree.token (b.tree.firstToken n)).valueText

/-! ## Enclosing types and members

A name is looked for from where it stands outwards, through the types around it. -/

/-- The types around a node, the innermost first. -/
def enclosingTypes (b : Binder) (n : NodeId) : List TypeId :=
  (b.tree.ancestors n).filterMap (b.program.declaredType? b.document.id)

def enclosingType? (b : Binder) (n : NodeId) : Option TypeId := (b.enclosingTypes n).head?

/-- The field or property that a bare name means at a node. -/
def lookupMember? (b : Binder) (name : String) (n : NodeId) : Option (TypeId × MemberSymbol) :=
  (b.enclosingTypes n).findSome? fun type => b.program.findMember? type name

/-- The methods that a bare name means at a node: those of the innermost enclosing type that has
any. -/
def methodsInScope (b : Binder) (name : String) (n : NodeId) : List MethodId :=
  (((b.enclosingTypes n).map fun type => b.program.methodsNamed type name).find? fun ms =>
    !ms.isEmpty).getD []

/-! ## Variables

The search for a variable ends at the place that declares it.  The type of the variable is the one
written there, unless the place leaves it to a value. -/

/-- The variable that a token declares. -/
def declare (b : Binder) (identifier : TokenId) (type : StaticType) (kind : VariableKind) :
    VariableSymbol :=
  let token := b.tree.token identifier
  ⟨⟨b.document.id, token.offset⟩, token.valueText, type, kind⟩

/-- The type that the value of a declaration gives to its variable; null gives none. -/
def typeOfValue (b : Binder) (value : NodeId) : Analysis StaticType := do
  match ← b.typeOf value with
  | .null => return .unknown
  | type => return type

/-- The type of the elements of a collection. -/
def elementType : StaticType → StaticType
  | .array element => element
  | .primitive .string => .primitive .char
  | _ => .unknown

/-- The type that a declaration without a written type takes from a value: a loop over a collection
takes that of the elements.  Only local variables are declared so; elsewhere the word is the name of
a type. -/
def inferredType (b : Binder) (site : VariableSite) (type : NodeId) : Analysis StaticType :=
  match site, site.typingNode? b.tree with
  | .declarator _ _, some value => b.typeOfValue value
  | .forEach _, some collection => elementType <$> b.typeOf collection
  | .declarator _ _, none | .forEach _, none | .designation _, _ => return .unknown
  | _, _ => return b.resolveType type

/-- The type of the variable that a place declares. -/
def variableType (b : Binder) (site : VariableSite) : Analysis StaticType :=
  match site.typeNode? b.tree with
  | none => return .unknown
  | some type => if isVar b.tree type then b.inferredType site type else return b.resolveType type

/-- The variable that a place declares. -/
def variableAt (b : Binder) (site : VariableSite) : Analysis VariableSymbol := do
  return b.declare (site.identifier b.tree) (← b.variableType site) site.variableKind

/-- The parameter or local variable of a name that is in scope at a node. -/
def lookupVariable? (b : Binder) (name : String) (n : NodeId) :
    Analysis (Option VariableSymbol) :=
  match siteLookup? b.tree name n with
  | some site => some <$> b.variableAt site
  | none => return none

/-- The name of a local function. -/
def localFunctionName? (t : Tree) (function : NodeId) : Option String := do
  let returnType ← (t.childNodes function).head?
  let name ← (t.childTokens function).find? fun i =>
    (t.token i).offset ≥ (t.span returnType).stop && (t.token i).isIdentifier
  return (t.token name).valueText

/-- A block around a node declares a local function of a name. -/
def localFunctionInScope (b : Binder) (name : String) (n : NodeId) : Bool :=
  let t := b.tree
  (((t.ancestors n).filter fun a => t.kind a == .block || t.kind a == .switchSection).flatMap
    fun a => t.childrenOfKind a .localFunctionStatement).any fun f =>
      localFunctionName? t f == some name

/-! ## Names

A bare name means a variable first, then a field or a property, then a type, and a method last. -/

/-- What a bare name refers to when it is no variable: a member, a type, or a method that is the
only one of its name. -/
def bindOutside? (b : Binder) (n : NodeId) : Option Symbol :=
  let name := b.frontName n
  match b.lookupMember? name n with
  | some (owner, m) => some (.member owner m)
  | none =>
    match b.program.lookupType? b.document n name with
    | some type => some (.type type)
    | none => (Overloads.only? (b.methodsInScope name n)).map .method

/-- What a bare name refers to. -/
def bindIdentifier? (b : Binder) (n : NodeId) : Analysis (Option Symbol) := do
  match ← b.lookupVariable? (b.frontName n) n with
  | some v => return some (.var v)
  | none => return b.bindOutside? n

/-- The bare name refers to a value. -/
def bindsAsValue (b : Binder) (identifier : NodeId) : Analysis Bool := do
  match ← b.bindIdentifier? identifier with
  | some (.var _) | some (.member _ _) => return true
  | _ => return false

/-- The names of a chain of member accesses with points between them; `fuel` bounds its length. -/
def dottedNameFuel (t : Tree) : Nat → NodeId → Option String
  | 0, _ => none
  | fuel + 1, n =>
    match t.kind n with
    | .identifierName => some (Program.typeName t n)
    | .memberAccessExpression =>
      match t.childNodes n with
      | receiver :: rest => do
        let name ← rest.getLast?
        if t.kind name != .identifierName then none
        else
          let front ← dottedNameFuel t fuel receiver
          return front ++ "." ++ (t.token (t.firstToken name)).valueText
      | [] => none
    | _ => none

def dottedName? (t : Tree) (n : NodeId) : Option String := dottedNameFuel t (t.nodeCount + 1) n

/-- The first name of a chain of member accesses; `fuel` bounds its length. -/
def dottedRootFuel (t : Tree) : Nat → NodeId → Option NodeId
  | 0, _ => none
  | fuel + 1, n =>
    match t.kind n with
    | .identifierName => some n
    | .memberAccessExpression => (t.childNodes n).head?.bind (dottedRootFuel t fuel)
    | _ => none

def dottedRoot? (t : Tree) (n : NodeId) : Option NodeId := dottedRootFuel t (t.nodeCount + 1) n

/-! ## Receivers

What stands in front of a point is the name of a type or a value.  A chain of names is the name of a
type only if its first name is not that of a value. -/

/-- A type as the receiver of a member access. -/
def namedReceiver (b : Binder) (type : TypeId) : Receiver :=
  .value (.named (b.program.qualifiedName type))

/-- The first name of a chain of names refers to a value. -/
def startsAsValue (b : Binder) (n : NodeId) : Analysis Bool :=
  match dottedRoot? b.tree n with
  | some root => b.bindsAsValue root
  | none => return false

/-- What the left side of a point stands for. -/
def receiver (b : Binder) (n : NodeId) : Analysis Receiver := do
  let t := b.tree
  match t.kind n with
  | .thisExpression => return ((b.enclosingType? n).map b.namedReceiver).getD .unknown
  | .predefinedType => return .unknown
  | .identifierName => return .ofSymbol (← b.bindIdentifier? n)
  | .memberAccessExpression =>
    let type? :=
      -- A dotted name is that of a type only if its first part is no value.
      if ← b.startsAsValue n then none
      else (dottedName? t n).bind fun name => b.program.lookupType? b.document n name
    match type? with
    | some type => return .typeName type
    | none => return .value (← b.typeOf n)
  | _ => return .value (← b.typeOf n)

def receiverType? (b : Binder) : Receiver → Option TypeId
  | .value (.named name) => b.program.typeNamed? name
  | .typeName type => some type
  | _ => none

/-- The field or property of a name on a receiver. -/
def memberOn? (b : Binder) (r : Receiver) (name : String) : Option (TypeId × MemberSymbol) :=
  (b.receiverType? r).bind fun type => b.program.findMember? type name

/-- The methods of a name on a receiver. -/
def methodsOn (b : Binder) (r : Receiver) (name : String) : List MethodId :=
  ((b.receiverType? r).map fun type => b.program.methodsNamed type name).getD []

/-- The type of a member of a receiver.  Arrays and strings have a length. -/
def memberType (b : Binder) (r : Receiver) (name : String) : StaticType :=
  match b.memberOn? r name with
  | some (_, m) => m.type
  | none =>
    match r with
    | .value (.array _) | .value (.primitive .string) =>
      if name == "Length" then .primitive .int else .unknown
    | _ => .unknown

/-- What stands on the left of the conditional access that a binding belongs to. -/
def bindingReceiver? (t : Tree) (binding : NodeId) : Option NodeId :=
  ((t.ancestors binding).filter fun a => t.kind a == .conditionalAccessExpression).findSome?
    fun access => do
      let r ← (t.childNodes access).head?
      if r == binding || t.isAncestor r binding then none else return r

/-! ## Calls

A call may mean the methods of a name on what stands in front of the point.  Of those that take its
arguments, the one that fits best is called. -/

/-- The first node and the last one of the others, of nodes that are two or more. -/
def firstAndLast? : List NodeId → Option (NodeId × NodeId)
  | first :: rest => rest.getLast?.map fun last => (first, last)
  | [] => none

/-- The methods that a callee may mean by its name. -/
def calleeCandidates (b : Binder) (callee : NodeId) : Analysis (List MethodId) := do
  let t := b.tree
  match t.kind callee with
  | .identifierName | .genericName =>
    let name := b.frontName callee
    -- A local function hides the methods of its name, and is none of the program.
    return if b.localFunctionInScope name callee then [] else b.methodsInScope name callee
  | .memberAccessExpression =>
    match firstAndLast? (t.childNodes callee) with
    | none => return []
    | some (r, name) =>
      let name := b.frontName name
      -- All of the base list is asked, interfaces included.
      if t.kind r == .baseExpression then
        return ((b.enclosingType? callee).map fun type =>
          (b.program.basesOf type).flatMap fun base => b.program.methodsNamed base name).getD []
      else return b.methodsOn (← b.receiver r) name
  | .memberBindingExpression =>
    match (t.childNodes callee).head?, bindingReceiver? t callee with
    | some name, some r => return b.methodsOn (.value (← b.typeOf r)) (b.frontName name)
    | _, _ => return []
  | _ => return []

/-- The number of type arguments that a callee writes. -/
def genericArity? (t : Tree) (callee : NodeId) : Option Nat := do
  let name ← match t.kind callee with
    | .genericName => some callee
    | .memberAccessExpression | .memberBindingExpression => (t.childNodes callee).getLast?
    | _ => none
  if t.kind name != .genericName then none
  else
    let list ← t.childOfKind? name .typeArgumentList
    return (t.childNodes list).length

def argumentInfo (b : Binder) (v : ArgumentView) : Analysis ArgumentInfo := do
  return {
    name := v.name? b.tree
    mode := ((v.refKindText? b.tree).bind PassMode.ofKeyword?).getD .value
    type := ← b.typeOf v.expression }

/-- The candidate that fits the arguments of a call best. -/
def bestCandidate? (b : Binder) (v : InvocationView) (candidates : List MethodId)
    (arguments : List ArgumentInfo) : Option MethodId :=
  let arity := genericArity? b.tree v.callee
  let methods := (candidates.filterMap b.program.method?).filter fun m =>
    arity.all fun n => m.typeParameterCount == n
  Overloads.best? (methods.filterMap fun m => Overloads.applicable? m arguments)

/-- The method that a call calls, when one candidate fits best.  Without candidates the arguments
are not looked at. -/
def resolveInvocation? (b : Binder) (invocation : NodeId) : Analysis (Option MethodId) := do
  match InvocationView.ofNode? b.tree invocation with
  | none => return none
  | some v =>
    let candidates ← b.calleeCandidates v.callee
    if candidates.isEmpty then return none
    else return b.bestCandidate? v candidates (← (v.argumentViews b.tree).mapM b.argumentInfo)

/-- The call whose callee is the node. -/
def invocationOfCallee? (b : Binder) (n : NodeId) : Option NodeId := do
  let p ← b.tree.parent? n
  if b.tree.kind p == .invocationExpression && (b.tree.childNodes p).head? == some n then return p
  else none

/-- What a member access refers to: a member of what stands in front of the point, or a method that
is the only one of its name there. -/
def accessedSymbol? (b : Binder) (r : Receiver) (name : String) : Option Symbol :=
  match b.memberOn? r name with
  | some (owner, m) => some (.member owner m)
  | none => (Overloads.only? (b.methodsOn r name)).map .method

/-- What an expression refers to.  A call and its callee refer to the method that is called. -/
def referencedSymbol? (b : Binder) (n : NodeId) : Analysis (Option Symbol) := do
  let t := b.tree
  -- What is called is settled by the call, with its arguments.
  match b.invocationOfCallee? n with
  | some invocation => return (← b.resolveInvocation? invocation).map .method
  | none =>
    match t.kind n with
    | .invocationExpression => return (← b.resolveInvocation? n).map .method
    | .identifierName => b.bindIdentifier? n
    | .memberAccessExpression =>
      match (t.childNodes n).head?, (t.childNodes n).getLast? with
      | some r, some name => return b.accessedSymbol? (← b.receiver r) (b.frontName name)
      | _, _ => return none
    | .thisExpression => return (b.enclosingType? n).map .type
    | _ => return none

/-! ## Types of expressions

The types of the parts of an expression decide its own type; names, members and calls have the type
of what they refer to.  An expression outside of these rules has an unknown type. -/

/-- The text ends in one of some characters, whatever their case. -/
def endsIn (text : String) (ending : String) : Bool :=
  ending.toList.reverse.isPrefixOf (text.toList.reverse.map Char.toLower)

/-- The type of a literal. -/
def literalType (token : Token) : StaticType :=
  match token.kind with
  | .integerLiteral =>
    -- The suffix alone decides, whatever the value is.
    if endsIn token.text "ul" || endsIn token.text "lu" then .primitive .ulong
    else if endsIn token.text "u" then .primitive .uint
    else if endsIn token.text "l" then .primitive .long
    else .primitive .int
  | .realLiteral =>
    if endsIn token.text "f" then .primitive .float
    else if endsIn token.text "m" then .primitive .decimal
    else .primitive .double
  | .stringLiteral => .primitive .string
  | .characterLiteral => .primitive .char
  | .keyword =>
    if token.text == "true" || token.text == "false" then .primitive .bool
    else if token.text == "null" then .null
    else .unknown
  | _ => .unknown

/-- The type of a conditional whose branches have the given types. -/
def conditionalType (whenTrue whenFalse : StaticType) : StaticType :=
  if whenTrue == whenFalse then whenTrue
  else if !whenTrue.isKnown || !whenFalse.isKnown then .unknown
  else
    match whenTrue.convertsTo whenFalse, whenFalse.convertsTo whenTrue with
    | true, false => whenFalse
    | false, true => whenTrue
    | _, _ => .unknown

/-- The type of a unary operation. -/
def unaryType (operator : String) (operand : StaticType) : StaticType :=
  if operator == "!" then .primitive .bool
  else if operator == "++" || operator == "--" then operand
  else
    match operand with
    | .primitive .byte | .primitive .sbyte | .primitive .short | .primitive .ushort
    | .primitive .char => .primitive .int
    | _ => operand

/-- The type of a binary operation. -/
def operationType (operator : String) (left right : StaticType) : StaticType :=
  if ["==", "!=", "<", ">", "<=", ">=", "&&", "||"].contains operator then .primitive .bool
  else if operator == "??" then
    match left with
    | .null => right
    -- What replaces null takes the question mark off.
    | .nullable inner => if inner == right then right else left
    | _ => left
  else if operator == "+" && (left == .primitive .string || right == .primitive .string) then
    .primitive .string
  else if ["&", "|", "^"].contains operator && left == .primitive .bool &&
      right == .primitive .bool then
    .primitive .bool
  else if operator == "<<" || operator == ">>" then
    match left with
    | .primitive p => if p.isNumeric then left.promote (.primitive .int) else .unknown
    | _ => .unknown
  else left.promote right

/-- The type that the first child of a kind of nodes writes. -/
def writtenType (b : Binder) (n : NodeId) (p : NodeKind → Bool) : StaticType :=
  (((b.tree.childNodes n).find? fun c => p (b.tree.kind c)).map b.resolveType).getD .unknown

/-- The type of a value that a symbol stands for. -/
def valueType : Option Symbol → StaticType
  | some (.var v) => v.type
  | some (.member _ m) => m.type
  | _ => .unknown

/-- The type of an optional expression. -/
def typeOfOptional (b : Binder) : Option NodeId → Analysis StaticType
  | some n => b.typeOf n
  | none => return .unknown

/-- The type of an expression over the types of the others. -/
def typeStep (b : Binder) (n : NodeId) : Analysis StaticType := do
  let t := b.tree
  let children := t.childNodes n
  match t.kind n with
  | .literalExpression => return literalType (t.token (t.firstToken n))
  | .identifierName => return valueType (← b.bindIdentifier? n)
  | .parenthesizedExpression | .postfixUnaryExpression | .assignmentExpression =>
    b.typeOfOptional children.head?
  | .memberAccessExpression =>
    match firstAndLast? children with
    | some (r, name) => return b.memberType (← b.receiver r) (b.frontName name)
    | none => return .unknown
  | .memberBindingExpression =>
    match children.head?, bindingReceiver? t n with
    | some name, some r => return b.memberType (.value (← b.typeOf r)) (b.frontName name)
    | _, _ => return .unknown
  | .invocationExpression =>
    return (((← b.resolveInvocation? n).bind b.program.method?).map
      MethodSymbol.returnType).getD .unknown
  | .binaryExpression =>
    match children with
    | left :: right :: _ =>
      let operator := String.join ((t.childTokens n).map fun i => (t.token i).text)
      return operationType operator (← b.typeOf left) (← b.typeOf right)
    | _ => return .unknown
  | .prefixUnaryExpression =>
    match children with
    | operand :: _ => return unaryType (t.token (t.firstToken n)).text (← b.typeOf operand)
    | [] => return .unknown
  -- These write their type.
  | .castExpression | .defaultExpression | .objectCreationExpression =>
    return b.writtenType n NodeKind.isType
  | .asExpression => return (children[1]?.map b.resolveType).getD .unknown
  | .isPatternExpression => return .primitive .bool
  | .conditionalExpression =>
    match children with
    | _ :: whenTrue :: whenFalse :: _ =>
      return conditionalType (← b.typeOf whenTrue) (← b.typeOf whenFalse)
    | _ => return .unknown
  | .arrayCreationExpression => return b.writtenType n (· == .arrayType)
  | .thisExpression =>
    return ((b.enclosingType? n).map fun type => .named (b.program.qualifiedName type)).getD .unknown
  | .tupleExpression =>
    return .tuple (← (t.childrenOfKind n .argument).mapM fun a =>
      b.typeOfOptional ((ArgumentView.ofNode? t a).map ArgumentView.expression))
  | .elementAccessExpression => return elementType (← b.typeOfOptional children.head?)
  -- The type behind `var` would be that of what is assigned, which is not looked at.
  | .declarationExpression =>
    match children with
    | type :: _ =>
      return if (t.kind type).isType && !isVar t type then b.resolveType type else .unknown
    | [] => return .unknown
  | .typeOfExpression => return .named "System.Type"
  | _ => return .unknown

/-- The type of an expression, if at most `fuel` steps tell it. -/
def typeOfFuel (p : Program) (d : Document) : Nat → NodeId → Analysis StaticType
  | 0, _ => .error .endlessType
  | fuel + 1, n => typeStep ⟨p, d, typeOfFuel p d fuel⟩ n

/-- The binder of a document. -/
def ofDocument (p : Program) (d : Document) : Binder :=
  ⟨p, d, typeOfFuel p d (d.tree.nodeCount + 1)⟩

end Binder

end CodeMend
