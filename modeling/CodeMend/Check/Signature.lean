import CodeMend.Flow.Analysis
import CodeMend.Rule.Finding

/-!
# CodeMend — checks of method signatures

Parameters that are passed in a way that the body of their method does not need, and methods that
give out what they could return.  A method whose signature is bound by a base class or an interface
is left alone.

* **`refParameter`** — a parameter passed by reference that is never written, or always written
  before it is read.
* **`outParameters`** — a method without result that gives out values.
-/

namespace CodeMend.Check

/-- The symbol of a method declaration. -/
def declaredMethod (b : Binder) (declaration : NodeId) : Analysis MethodSymbol :=
  match b.program.declaredMethod? b.document.id declaration with
  | some m => .ok m
  | none =>
    .error (.internal ("no symbol for method declaration at " ++
      toString (b.tree.span declaration).start ++ " in " ++ b.document.path))

/-- A modifier says that the method stands in for that of a base class, or that others may stand in
for it. -/
def isOverridable (t : Tree) (v : MethodView) : Bool :=
  v.hasModifier t "virtual" || v.hasModifier t "override"

/-- An interface fixes the signature of the method. -/
def boundByInterface (p : Program) (m : MethodSymbol) : Bool :=
  m.explicitInterface.isSome || p.implementsInterface m.id

/-- The rule that a parameter passed by reference falls under, by the data flow of its method. -/
def refRule? (flow : DataFlow) (v : VariableId) : Option Rule :=
  if !flow.written.contains v then some .unneededRef
  else if flow.alwaysAssigned.contains v && !flow.flowsIn.contains v then some .refAsOut
  else none

/-- The method that a parameter belongs to, when it has a body in braces and may be changed. -/
def changeableMethod? (t : Tree) (parameter : NodeId) : Option (MethodView × NodeId) := do
  let v ← MethodView.ofNode? t (← t.parent? (← t.parent? parameter))
  let body ← v.body
  if isOverridable t v then none else return (v, body)

/-- What there is to report about a parameter: it is passed by reference without need.  The anchor
is the modifier. -/
def refParameter (b : Binder) (parameter : NodeId) : Analysis (Option Finding) :=
  let t := b.tree
  match ParameterView.ofNode? t parameter, changeableMethod? t parameter with
  | some v, some (method, body) =>
    match v.modifiers with
    | [modifier] =>
      if (t.token modifier).text != "ref" then .ok none
      else do
        let m ← declaredMethod b method.node
        -- The interface fixes the signature.
        if boundByInterface b.program m then return none
        return do
          let flow ← b.dataFlow? body
          let rule ← refRule? flow (Flow.declaredVariable b v.name)
          return ⟨rule, b.document.id, (t.token modifier).span, [v.nameText t]⟩
    | _ => .ok none
  | _, _ => .ok none

/-- The parameters of a list that the method gives out. -/
def outParameterViews (t : Tree) (parameters : SeparatedList) : List ParameterView :=
  (parameters.items.filterMap (ParameterView.ofNode? t)).filter fun v =>
    v.singleModifier? t == some "out"

/-- What there is to report about a method: it gives out values that it could return.  The anchor is
the modifier of a single such parameter, and the return type when there are several. -/
def outParameters (b : Binder) (node : NodeId) : Analysis (Option Finding) :=
  let t := b.tree
  match MethodView.ofNode? t node with
  | none => .ok none
  | some v =>
    let outs := outParameterViews t (v.parameters t)
    if t.text v.returnType != "void" || v.body.isNone || isOverridable t v || outs.isEmpty ||
        outs.any (fun p => !p.attributes.isEmpty) then
      .ok none
    else do
      let m ← declaredMethod b node
      if boundByInterface b.program m then return none
      -- One result becomes the return value, several become a tuple.
      match outs with
      | [single] =>
        return single.modifiers.head?.map fun modifier =>
          ⟨.outAsResult, b.document.id, (t.token modifier).span, [m.name]⟩
      | _ => return some ⟨.outsAsTuple, b.document.id, t.span v.returnType, [m.name]⟩

end CodeMend.Check
