import CodeMend.Check.Conversion
import CodeMend.Patch.Basic

/-!
# CodeMend — patches of a redundant conversion

The argument takes the place of the call, with the comments that stand around its ends.
-/

namespace CodeMend.Patch

/-- Nodes whose operands have to bind as tightly as a call. -/
def isTight (k : NodeKind) : Bool :=
  ([.memberAccessExpression, .conditionalAccessExpression, .binaryExpression,
    .prefixUnaryExpression, .postfixUnaryExpression] : List NodeKind).contains k

/-- Expressions that bind as tightly as a call. -/
def isPrimary (k : NodeKind) : Bool :=
  ([.literalExpression, .identifierName, .genericName, .qualifiedName, .predefinedType,
    .thisExpression, .baseExpression, .memberAccessExpression, .invocationExpression,
    .elementAccessExpression, .parenthesizedExpression, .tupleExpression,
    .objectCreationExpression, .typeOfExpression, .defaultExpression] : List NodeKind).contains k

/-- The expression needs parentheses when it takes the place of the call. -/
def needsParentheses (t : Tree) (invocation expression : NodeId) : Bool :=
  (t.parent? invocation).any (fun p => isTight (t.kind p)) && !isPrimary (t.kind expression)

/-- The patch that puts the only argument of a call in the place of the call.  The result has to be
used, and the argument to be neither labelled nor passed by reference. -/
def unwrapArgument? (t : Tree) (invocation : NodeId) : Option (List Patch) := do
  if Check.resultUse t invocation != .used then none
  let v ← InvocationView.ofNode? t invocation
  if v.arguments.items.length != 1 then none
  let a ← v.argument? t 0
  if a.refKind.isSome || (a.name? t).isSome then none
  let first := t.token (t.firstToken invocation)
  let last := t.token (t.lastToken invocation)
  let close := t.token v.arguments.close
  let text := t.text a.expression
  let text := if needsParentheses t invocation a.expression then "(" ++ text ++ ")" else text
  -- The remarks of the call and of its parentheses come along with the argument.
  let text := String.join [Trivia.render first.leading,
    Trivia.render (t.token v.arguments.opening).trailing,
    Trivia.render (t.token (t.firstToken a.expression)).leading, text,
    Trivia.render (t.token (t.lastToken a.expression)).trailing,
    Trivia.render close.leading, Trivia.render close.trailing]
  return [⟨⟨first.fullStart, last.fullStop⟩, text, false⟩]

end CodeMend.Patch
