import CodeMend.Model.Symbols
import CodeMend.Tree.Navigate
import CodeMend.Tree.Views

/-!
# CodeMend — where variables are declared

Which declaration the name of a variable means depends on the tree alone.  The search for it goes
from the use outwards and asks one node after the other; what it finds is a place that declares a
variable, and only the type of that variable may need the types of expressions.

* **`VariableSite`** — a place that declares a variable, with its token and the type written there.
* **`scopeSite?`** — what one node around a use declares.
* **`siteLookup?`** — the search for the place that declares a name at a use.
-/

namespace CodeMend

/-- The type node leaves the type to the value. -/
def isVar (t : Tree) (typeNode : NodeId) : Bool :=
  t.kind typeNode == .identifierName && t.text typeNode == "var"

/-- A place that declares a variable. -/
inductive VariableSite where
  | declarator (declaration declarator : NodeId)
  | designation (n : NodeId)
  | forEach (statement : NodeId)
  | catchDeclaration (declaration : NodeId)
  | parameter (v : ParameterView)
  | accessorValue (property : NodeId) (keyword : TokenId)
deriving DecidableEq, Repr

namespace VariableSite

/-- The token that the variable is known by. -/
def identifier (t : Tree) : VariableSite → TokenId
  | declarator _ d => (t.childTokens d).head?.getD 0
  | designation n => t.firstToken n
  | forEach s => (declaredIdentifier? t s).getD 0
  | catchDeclaration d => (declaredIdentifier? t d).getD 0
  | parameter v => v.name
  | accessorValue _ keyword => keyword

/-- The type that is written at the place, or the word that leaves it to the value. -/
def typeNode? (t : Tree) : VariableSite → Option NodeId
  | declarator declaration _ => (t.childNodes declaration).head?
  | designation n =>
    (t.parent? n).bind fun p =>
      if t.kind p == .declarationExpression || t.kind p == .declarationPattern then
        (t.childNodes p).head?.bind fun type => if type == n then none else some type
      else none
  | forEach s => (t.childNodes s).head?
  | catchDeclaration d => (t.childNodes d).head?
  | parameter v => v.typeNode
  | accessorValue property _ => (t.childNodes property).find? fun n => (t.kind n).isType

/-- The value that a declaration without a written type takes its type from. -/
def typingNode? (t : Tree) : VariableSite → Option NodeId
  | declarator _ d =>
    (t.childOfKind? d .equalsValueClause).bind fun clause => (t.childNodes clause).head?
  | forEach s => (t.childNodes s)[1]?
  | _ => none

def variableKind : VariableSite → VariableKind
  | parameter _ | accessorValue _ _ => .parameter
  | _ => .local

end VariableSite

/-! ## What a statement declares

A list of statements declares the variables of its declaration statements, and those that arguments
and patterns anywhere in its statements declare.  Only declarations that end in front of the use
count. -/

/-- The nodes of a statement that can declare variables for the block around it, each before what is
under it and the later ones first.  Nested blocks, lambdas and local functions are left out; `fuel`
bounds the number of nodes. -/
def designationScope (t : Tree) (statement : NodeId) : Nat → List NodeId → List NodeId
  | 0, _ => []
  | _ + 1, [] => []
  | fuel + 1, n :: rest =>
    let k := t.kind n
    if n != statement && (k == .block || k.isLambda || k == .localFunctionStatement) then
      designationScope t statement fuel rest
    else n :: designationScope t statement fuel ((t.childNodes n).reverse ++ rest)

/-- The statements of a list up to and with a given one. -/
def throughStatement (last : NodeId) : List NodeId → List NodeId
  | [] => []
  | n :: rest => if n == last then [n] else n :: throughStatement last rest

/-- The declarator of a name that ends at or before an offset. -/
def declaratorSite? (t : Tree) (declaration : NodeId) (name : String) (offset : Nat) :
    Option VariableSite :=
  ((t.childrenOfKind declaration .variableDeclarator).find? fun d =>
    (t.span d).stop ≤ offset &&
      (t.childTokens d).head?.any fun i => (t.token i).valueText == name).map
    (.declarator declaration)

/-- The designation of a name that ends at or before an offset. -/
def designationSite? (t : Tree) (statement : NodeId) (name : String) (offset : Nat) :
    Option VariableSite :=
  if t.kind statement == .block then none
  else
    ((designationScope t statement (t.nodeCount + 1) [statement]).find? fun n =>
      t.kind n == .singleVariableDesignation && (t.span n).stop ≤ offset &&
        (t.token (t.firstToken n)).valueText == name).map .designation

/-- What one statement of a block declares. -/
def statementSite? (t : Tree) (statement : NodeId) (name : String) (offset : Nat) :
    Option VariableSite :=
  (if t.kind statement == .localDeclarationStatement then
    (t.childOfKind? statement .variableDeclaration).bind fun d => declaratorSite? t d name offset
  else none).or (designationSite? t statement name offset)

/-! ## The search

The nodes around a use are asked from the inside to the outside.  Members and types end the search:
no variable further out is seen across them. -/

/-- The parameters of a method, constructor, local function or lambda. -/
def parametersOf (t : Tree) (owner : NodeId) : List ParameterView :=
  (t.childrenOfKind ((t.childOfKind? owner .parameterList).getD owner) .parameter).filterMap
    (ParameterView.ofNode? t)

/-- What a node around a use declares; `last` is the node below it on the way to the use. -/
def scopeSite? (t : Tree) (scope last : NodeId) (name : String) (offset : Nat) :
    Option VariableSite :=
  match t.kind scope with
  | .block | .switchSection =>
    (throughStatement last (t.childNodes scope)).findSome? fun s => statementSite? t s name offset
  | .forStatement | .usingStatement =>
    (t.childOfKind? scope .variableDeclaration).bind fun d => declaratorSite? t d name offset
  | .forEachStatement =>
    (declaredIdentifier? t scope).bind fun i =>
      if (t.token i).valueText != name then none
      else (t.childNodes scope).head?.map fun _ => .forEach scope
  | .catchClause =>
    (t.childOfKind? scope .catchDeclaration).bind fun d => (declaredIdentifier? t d).bind fun i =>
      if (t.token i).valueText != name then none else some (.catchDeclaration d)
  | .simpleLambdaExpression | .parenthesizedLambdaExpression | .localFunctionStatement
  | .methodDeclaration | .constructorDeclaration =>
    ((parametersOf t scope).find? fun v => v.nameText t == name).map .parameter
  | .accessorDeclaration =>
    if name != "value" then none
    else
      ((t.childTokens scope).find? fun i =>
        (t.token i).isContextual "set" || (t.token i).isContextual "init").bind fun keyword =>
          (t.ancestorOfKind? scope .propertyDeclaration).map fun property =>
            .accessorValue property keyword
  | _ => none

/-- Variables further out are not seen across a node of the kind. -/
def closesScope (k : NodeKind) : Bool :=
  k == .methodDeclaration || k == .constructorDeclaration || k == .accessorDeclaration ||
    k == .propertyDeclaration || k == .fieldDeclaration || k.isTypeDeclaration

/-- Ask the nodes around a use one after the other. -/
def siteLookupFrom? (t : Tree) (name : String) (offset : Nat) :
    NodeId → List NodeId → Option VariableSite
  | _, [] => none
  | last, scope :: rest =>
    match scopeSite? t scope last name offset with
    | some site => some site
    | none =>
      if closesScope (t.kind scope) then none else siteLookupFrom? t name offset scope rest

/-- The place that declares the variable of a name in scope at a node. -/
def siteLookup? (t : Tree) (name : String) (n : NodeId) : Option VariableSite :=
  siteLookupFrom? t name (t.span n).start n (t.ancestors n)

end CodeMend
