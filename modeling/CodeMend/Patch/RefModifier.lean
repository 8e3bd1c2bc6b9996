import CodeMend.Patch.Basic

/-!
# CodeMend — patches of a reference modifier

A parameter and the arguments for it lose their modifier together, or have it replaced together.
-/

namespace CodeMend.Patch

/-- The modifier of the parameter at an index of a method, if it is passed by reference. -/
def parameterModifier? (t : Tree) (method : NodeId) (index : Nat) : Option TokenId := do
  let v ← MethodView.ofNode? t method
  let p ← ParameterView.ofNode? t (← (v.parameters t).items[index]?)
  match p.modifiers with
  | [i] => if (t.token i).text == "ref" then return i else none
  | _ => none

/-- The modifier of the argument at an index of a call, if it is a bare name passed by reference. -/
def argumentModifier? (t : Tree) (invocation : NodeId) (index : Nat) : Option TokenId := do
  let v ← InvocationView.ofNode? t invocation
  let a ← v.argument? t index
  let i ← a.refKind
  if (t.token i).text == "ref" && t.kind a.expression == .identifierName then return i else none

/-- Replace a modifier by the one for values that are given out. -/
def toOut (t : Tree) (i : TokenId) : Patch := ⟨(t.token i).span, "out", false⟩

end CodeMend.Patch
