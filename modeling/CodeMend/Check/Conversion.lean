import CodeMend.Binding.Binder
import CodeMend.Rule.Finding

/-!
# CodeMend — redundant conversions

Calls of the conversion methods of the library whose argument already has the type of the result,
and what becomes of that result.
-/

namespace CodeMend.Check

/-- The type whose methods convert values. -/
def conversionType : String := "System.Convert"

/-- A method that converts its argument. -/
def isConversion (p : Program) (m : MethodSymbol) : Bool :=
  p.qualifiedName m.containingType == conversionType &&
    (dropFront? ['T', 'o'] m.name.toList).isSome

/-- The finding about the call of a conversion whose argument has a type. -/
def conversionFinding? (b : Binder) (v : InvocationView) (m : MethodSymbol) (type : StaticType) :
    Option Finding :=
  if !type.isKnown || type != m.returnType then none
  else some ⟨.redundantConversion, b.document.id, b.tree.span v.callee, [m.name, type.render]⟩

/-- The conversion that a call with a single argument calls. -/
def calledConversion? (b : Binder) (invocation : NodeId) : Analysis (Option MethodSymbol) := do
  return ((← b.resolveInvocation? invocation).bind b.program.method?).filter
    (isConversion b.program)

/-- What there is to report about a call: it converts a value to the type that it has.  The anchor
is what the call calls. -/
def conversion? (b : Binder) (invocation : NodeId) : Analysis (Option Finding) := do
  match InvocationView.ofNode? b.tree invocation with
  | none => return none
  | some v =>
    if v.arguments.items.length != 1 then return none
    else
      match ← calledConversion? b invocation, v.argument? b.tree 0 with
      | some m, some a => return conversionFinding? b v m (← b.typeOf a.expression)
      | _, _ => return none

/-- What becomes of the result of a call. -/
inductive ResultUse where
  | used
  | discarded
  /-- The surroundings are none that the check knows. -/
  | unclear
deriving DecidableEq, Repr

/-- What the node around a call does with its result.  The right side of an assignment is not among
the uses. -/
def resultUse (t : Tree) (invocation : NodeId) : ResultUse :=
  match t.parent? invocation with
  | none => .unclear
  | some p =>
    match t.kind p with
    | .expressionStatement => .discarded
    | .argument | .equalsValueClause | .returnStatement | .binaryExpression
    | .parenthesizedExpression | .memberAccessExpression | .conditionalExpression => .used
    | .conditionalAccessExpression =>
      if (t.childNodes p).head? == some invocation then .used else .unclear
    | _ => .unclear

end CodeMend.Check
