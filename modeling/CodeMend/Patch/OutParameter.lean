import CodeMend.Patch.ListItems

/-!
# CodeMend — patches that return what was given out

A method that gives out values declares them as variables at the top of its body instead, and
returns them wherever it is left.  Its calls drop the arguments and assign the result to what stood
there.

* **`returnOutParameters?`** — the patches of the declaration.
* **`assignResult?`** — the patches of a call.
-/

namespace CodeMend.Patch

/-- A parameter that the patched method declares as a variable. -/
structure OutParameter where
  type : String
  name : String
deriving DecidableEq, Repr

namespace OutParameter

/-- The parameter at an index of a list, if it has a type and is given out. -/
def ofList? (t : Tree) (l : SeparatedList) (index : Nat) : Option OutParameter := do
  let v ← ParameterView.ofNode? t (← l.items[index]?)
  if v.singleModifier? t == some "out" then
    return ⟨t.text (← v.typeNode), (t.token v.name).text⟩
  else none

/-- The declaration of the variable. -/
def declaration (p : OutParameter) : String := p.type ++ " " ++ p.name ++ ";"

end OutParameter

/-- Texts as the items of a tuple. -/
def tupled (texts : List String) : String := "(" ++ String.intercalate ", " texts ++ ")"

/-- A return without a value. -/
def isBareReturn (t : Tree) (n : NodeId) : Bool :=
  t.kind n == .returnStatement && (t.childNodes n).isEmpty

/-- The statement belongs to a function inside of the body. -/
def isInInnerFunction (t : Tree) (body n : NodeId) : Bool :=
  ((t.ancestors n).takeWhile (· != body)).any fun a =>
    t.kind a == .localFunctionStatement || (t.kind a).isLambda

/-- The returns without a value that leave the method itself. -/
def bareReturns (t : Tree) (body : NodeId) : List NodeId :=
  (t.descendants body).filter fun n => isBareReturn t n && !isInInnerFunction t body n

/-- The patch that gives lines to a body in braces without statements. -/
def fillEmptyBody (t : Tree) (body : NodeId) (lines : List String) : Patch :=
  let opening := t.token (t.firstToken body)
  let close := t.token (t.lastToken body)
  if Trivia.hasEndOfLine opening.trailing then
    let indent := Trivia.render (Trivia.splitIndentation close.leading).2 ++ "    "
    insert close.fullStart (String.join (lines.map fun l => indent ++ l ++ lineEnding t.source))
  else
    ⟨⟨opening.stop, close.offset⟩, " " ++ String.intercalate " " lines ++ " ", false⟩

/-- Insertions that put declarations before the first statement of a body and a return behind the
last one, unless that is a return already. -/
def wrapStatements (t : Tree) (body first last : NodeId) (declarations : List String)
    (returning : String) : List Patch :=
  let opening := t.token (t.firstToken body)
  let front := t.token (t.firstToken first)
  let back := t.token (t.lastToken last)
  let newline := lineEnding t.source
  let indent := Trivia.render (Trivia.splitIndentation front.leading).2
  let ownLines := Trivia.hasEndOfLine opening.trailing
  -- A body on one line stays on one line.
  let before :=
    if ownLines then
      insert front.fullStart (String.join (declarations.map fun l => indent ++ l ++ newline))
    else insert front.offset (String.intercalate " " declarations ++ " ")
  let behind :=
    -- A return statement at the end is rewritten itself.
    if isBareReturn t last then []
    else if ownLines && Trivia.hasEndOfLine back.trailing then
      [insert back.fullStop (indent ++ returning ++ newline)]
    else [insert back.stop (" " ++ returning)]
  before :: behind

/-- The patches of a body that declares variables first and returns a value wherever it is left. -/
def bodyPatches (t : Tree) (body : NodeId) (declarations : List String) (value : String) :
    List Patch :=
  let returning := "return " ++ value ++ ";"
  let returns := (bareReturns t body).map fun n =>
    insert (t.token (t.firstToken n)).stop (" " ++ value)
  let statements := t.childNodes body
  returns ++
    match statements.head?, statements.getLast? with
    | some first, some last => wrapStatements t body first last declarations returning
    | _, _ => [fillEmptyBody t body (declarations ++ [returning])]

/-- The patches of a method without result that turn the parameters at some indices into its result,
which is of the type and the value that `type` and `value` make of them. -/
def returnOutParameters? (t : Tree) (method : NodeId) (indices : List Nat)
    (type value : List OutParameter → String) : Option (List Patch) := do
  let v ← MethodView.ofNode? t method
  let outs ← indices.mapM (OutParameter.ofList? t (v.parameters t))
  let body ← v.body
  if t.text v.returnType != "void" then none
  let removals ← (v.parameters t).removeItems? t indices
  return ⟨t.span v.returnType, type outs, false⟩ :: removals ++
    bodyPatches t body (outs.map OutParameter.declaration) (value outs)

/-- The patches of a method that returns its single out parameter. -/
def returnOne? (t : Tree) (method : NodeId) (indices : List Nat) : Option (List Patch) :=
  if indices.length != 1 then none
  else
    returnOutParameters? t method indices
      (fun outs => String.join (outs.map OutParameter.type))
      (fun outs => String.join (outs.map OutParameter.name))

/-- The patches of a method that returns its out parameters as a tuple with their names. -/
def returnTuple? (t : Tree) (method : NodeId) (indices : List Nat) : Option (List Patch) :=
  if indices.length < 2 then none
  else
    returnOutParameters? t method indices
      (fun outs => tupled (outs.map fun p => p.type ++ " " ++ p.name))
      (fun outs => tupled (outs.map OutParameter.name))

/-- What is passed to the parameters at some positions of a call.  The result of a call that may be
left out cannot be assigned, and a declaration can only stand in front of a call that is a
statement. -/
def outTargets? (t : Tree) (invocation : NodeId) (positions : List Nat) :
    Option (List String) := do
  let v ← InvocationView.ofNode? t invocation
  if t.kind v.callee == .memberBindingExpression then none
  let isStatement := (t.parent? invocation).any fun p => t.kind p == .expressionStatement
  positions.mapM fun i => do
    let a ← v.argument? t i
    if a.refKindText? t != some "out" then none
    else if t.kind a.expression == .declarationExpression && !isStatement then none
    else return t.text a.expression

/-- The patches of a call that drops the arguments at some positions and assigns its result to what
`target` makes of them. -/
def assignResult? (t : Tree) (invocation : NodeId) (positions : List Nat)
    (target : List String → String) : Option (List Patch) := do
  let targets ← outTargets? t invocation positions
  let v ← InvocationView.ofNode? t invocation
  let removals ← v.arguments.removeItems? t positions
  return removals ++ [insert (t.span invocation).start (target targets ++ " = ")]

end CodeMend.Patch
