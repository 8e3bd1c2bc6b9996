import CodeMend.Tree.Navigate

/-!
# CodeMend — views of nodes

A tree keeps the children of a node in one flat list.  The views pick the parts of methods,
parameters, arguments, calls and if statements out of that list, so that everything else can speak
of "the return type" or "the comma behind the second argument".
-/

namespace CodeMend

/-- A list in brackets with commas between its items. -/
structure SeparatedList where
  node : NodeId
  opening : TokenId
  close : TokenId
  items : List NodeId
  /-- The comma at an index follows the item at that index. -/
  separators : List TokenId
deriving DecidableEq, Repr, Inhabited

/-- The list that a node holds. -/
def SeparatedList.ofNode (t : Tree) (n : NodeId) : SeparatedList where
  node := n
  opening := t.firstToken n
  close := t.lastToken n
  items := t.childNodes n
  separators := (t.childTokens n).filter fun i => (t.token i).isMark ","

/-- The parts of a method declaration. -/
structure MethodView where
  node : NodeId
  attributes : List NodeId
  modifiers : List TokenId
  returnType : NodeId
  explicitInterface : Option NodeId
  name : TokenId
  typeParameters : Option NodeId
  parameterList : NodeId
  /-- The body in braces. -/
  body : Option NodeId
  /-- The body behind an arrow. -/
  arrow : Option NodeId
deriving DecidableEq, Repr, Inhabited

namespace MethodView

/-- The parts of a method found so far. -/
structure Parts where
  attributes : List NodeId := []
  modifiers : List TokenId := []
  returnType : Option NodeId := none
  explicitInterface : Option NodeId := none
  name : Option TokenId := none
  typeParameters : Option NodeId := none
  parameterList : Option NodeId := none
  body : Option NodeId := none
  arrow : Option NodeId := none

/-- Sort a child into the parts.  Tokens before the return type are modifiers, and the last one
before the lists of parameters is the name. -/
def Parts.add (t : Tree) (p : Parts) : Child → Parts
  | .node n =>
    match t.kind n with
    | .attributeList => { p with attributes := p.attributes ++ [n] }
    | .explicitInterfaceSpecifier => { p with explicitInterface := some n }
    | .typeParameterList => { p with typeParameters := some n }
    | .parameterList => { p with parameterList := some n }
    | .block => { p with body := some n }
    | .arrowExpressionClause => { p with arrow := some n }
    | k => if k.isType && p.returnType.isNone then { p with returnType := some n } else p
  | .token i =>
    if p.returnType.isNone then { p with modifiers := p.modifiers ++ [i] }
    else if p.parameterList.isNone && p.typeParameters.isNone then { p with name := some i }
    else p

/-- The parts of a node that declares a method. -/
def ofNode? (t : Tree) (n : NodeId) : Option MethodView :=
  if t.kind n != .methodDeclaration then none
  else do
    let p := (t.children n).foldl (Parts.add t) {}
    return {
      node := n
      attributes := p.attributes
      modifiers := p.modifiers
      returnType := ← p.returnType
      explicitInterface := p.explicitInterface
      name := ← p.name
      typeParameters := p.typeParameters
      parameterList := ← p.parameterList
      body := p.body
      arrow := p.arrow }

def hasModifier (v : MethodView) (t : Tree) (word : String) : Bool :=
  v.modifiers.any fun i => (t.token i).text == word

def nameText (v : MethodView) (t : Tree) : String := (t.token v.name).valueText

def parameters (v : MethodView) (t : Tree) : SeparatedList := .ofNode t v.parameterList

end MethodView

/-- The parts of a parameter. -/
structure ParameterView where
  node : NodeId
  attributes : List NodeId
  modifiers : List TokenId
  /-- Parameters of lambdas may come without a type. -/
  typeNode : Option NodeId
  name : TokenId
  defaultValue : Option NodeId
deriving DecidableEq, Repr, Inhabited

namespace ParameterView

/-- The parts of a parameter found so far. -/
structure Parts where
  attributes : List NodeId := []
  modifiers : List TokenId := []
  typeNode : Option NodeId := none
  name : Option TokenId := none
  defaultValue : Option NodeId := none

/-- Sort a child into the parts.  Keywords before the type are modifiers, the identifier behind it
is the name. -/
def Parts.add (t : Tree) (p : Parts) : Child → Parts
  | .node n =>
    match t.kind n with
    | .attributeList => { p with attributes := p.attributes ++ [n] }
    | .equalsValueClause => { p with defaultValue := some n }
    | _ => { p with typeNode := some n }
  | .token i =>
    if (t.token i).isIdentifier then
      if p.typeNode.isSome || p.name.isNone then { p with name := some i } else p
    else if p.typeNode.isNone then { p with modifiers := p.modifiers ++ [i] }
    else p

/-- The parts of a node that declares a parameter.  The word that restricts the scope of a reference
is an identifier for the lexer; in front of a type it is a modifier. -/
def ofNode? (t : Tree) (n : NodeId) : Option ParameterView :=
  if t.kind n != .parameter then none
  else do
    let p := (t.children n).foldl (Parts.add t) {}
    let name ← p.name
    let scopes := if p.typeNode.isSome then
        (t.childTokens n).filter fun i => i != name && (t.token i).isContextual "scoped"
      else []
    return {
      node := n
      attributes := p.attributes
      modifiers := p.modifiers ++ scopes
      typeNode := p.typeNode
      name := name
      defaultValue := p.defaultValue }

def nameText (v : ParameterView) (t : Tree) : String := (t.token v.name).valueText

/-- The text of the modifier of a parameter that has exactly one. -/
def singleModifier? (v : ParameterView) (t : Tree) : Option String :=
  match v.modifiers with
  | [i] => some (t.token i).text
  | _ => none

end ParameterView

/-- The parts of an argument. -/
structure ArgumentView where
  node : NodeId
  nameColon : Option NodeId
  /-- The keyword that says how the argument is passed. -/
  refKind : Option TokenId
  expression : NodeId
deriving DecidableEq, Repr, Inhabited

namespace ArgumentView

/-- The parts of a node that is an argument. -/
def ofNode? (t : Tree) (n : NodeId) : Option ArgumentView :=
  if t.kind n != .argument then none
  else do
    return {
      node := n
      nameColon := t.childOfKind? n .nameColon
      refKind := (t.childTokens n).head?
      expression := ← (t.childNodes n).find? fun c => t.kind c != .nameColon }

def refKindText? (v : ArgumentView) (t : Tree) : Option String :=
  v.refKind.map fun i => (t.token i).text

/-- The label of a named argument. -/
def name? (v : ArgumentView) (t : Tree) : Option String := do
  let identifier ← t.childOfKind? (← v.nameColon) .identifierName
  return (t.token (t.firstToken identifier)).valueText

end ArgumentView

/-- A call: what is called, and the arguments. -/
structure InvocationView where
  node : NodeId
  callee : NodeId
  arguments : SeparatedList
deriving DecidableEq, Repr, Inhabited

namespace InvocationView

/-- The parts of a node that is a call. -/
def ofNode? (t : Tree) (n : NodeId) : Option InvocationView :=
  if t.kind n != .invocationExpression then none
  else do
    return {
      node := n
      callee := ← (t.childNodes n).head?
      arguments := .ofNode t (← t.childOfKind? n .argumentList) }

def argument? (v : InvocationView) (t : Tree) (i : Nat) : Option ArgumentView := do
  ArgumentView.ofNode? t (← v.arguments.items[i]?)

def argumentViews (v : InvocationView) (t : Tree) : List ArgumentView :=
  v.arguments.items.filterMap (ArgumentView.ofNode? t)

/-- The token that names the called method, with or without a receiver in front. -/
def nameToken? (v : InvocationView) (t : Tree) : Option TokenId := do
  let name ← match t.kind v.callee with
    | .identifierName | .genericName => some v.callee
    | .memberAccessExpression | .memberBindingExpression => (t.childNodes v.callee).getLast?
    | _ => none
  match t.kind name with
  | .identifierName | .genericName => some (t.firstToken name)
  | _ => none

end InvocationView

/-- The parts of an if statement. -/
structure IfView where
  node : NodeId
  ifKeyword : TokenId
  openParen : TokenId
  condition : NodeId
  statement : NodeId
  elseStatement : Option NodeId
deriving DecidableEq, Repr, Inhabited

/-- The parts of a node that is an if statement. -/
def IfView.ofNode? (t : Tree) (n : NodeId) : Option IfView :=
  if t.kind n != .ifStatement then none
  else
    match t.childNodes n with
    | condition :: statement :: rest => do
      let keyword := t.firstToken n
      let elseStatement := match rest with
        | c :: _ => if t.kind c == .elseClause then (t.childNodes c).head? else none
        | [] => none
      return {
        node := n
        ifKeyword := keyword
        openParen := ← t.nextToken? keyword
        condition := condition
        statement := statement
        elseStatement := elseStatement }
    | _ => none

/-- The variable that a statement declares by a bare name. -/
def declaredIdentifier? (t : Tree) (n : NodeId) : Option TokenId :=
  (t.childTokens n).find? fun i => (t.token i).isIdentifier

end CodeMend
