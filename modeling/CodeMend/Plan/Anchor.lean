import CodeMend.Tree.Views

/-!
# CodeMend — from anchors to nodes

A finding is anchored at a small span.  These functions find the node that the anchor stands for
again.
-/

namespace CodeMend.Anchor

/-- The token with exactly the given span. -/
def token? (t : Tree) (anchor : Span) : Option TokenId := do
  let i ← t.tokenAt? anchor.start
  if (t.token i).span == anchor then return i else none

/-- The method and the index of the parameter whose modifier is the anchor. -/
def parameter? (t : Tree) (anchor : Span) : Option (NodeId × Nat) := do
  let parameter := t.tokenParent (← token? t anchor)
  let list ← t.parent? parameter
  let method ← t.parent? list
  if t.kind parameter != .parameter || t.kind method != .methodDeclaration then none
  return (method, ← (t.childNodes list).idxOf? parameter)

/-- The method whose return type is the anchor. -/
def method? (t : Tree) (anchor : Span) : Option MethodView := do
  let n := t.covering anchor
  let method ← (n :: t.ancestors n).find? fun a => t.kind a == .methodDeclaration
  let v ← MethodView.ofNode? t method
  if t.span v.returnType == anchor then return v else none

/-- The if statement or conditional whose keyword or question mark is the anchor. -/
def branching? (t : Tree) (anchor : Span) : Option NodeId := do
  let n := t.tokenParent (← token? t anchor)
  if t.kind n == .ifStatement || t.kind n == .conditionalExpression then return n else none

/-- The call whose callee is the anchor. -/
def invocation? (t : Tree) (anchor : Span) : Option NodeId :=
  (t.startingAt .invocationExpression anchor.start).find? fun n =>
    (InvocationView.ofNode? t n).any fun v => t.span v.callee == anchor

end CodeMend.Anchor
