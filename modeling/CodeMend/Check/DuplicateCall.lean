import CodeMend.Binding.Binder
import CodeMend.Rule.Finding

/-!
# CodeMend — duplicate calls

The branches of an if statement or of a conditional that call the same method with arguments of
which exactly one differs.

* **`ifCalls?`**, **`conditionalCalls?`** — the calls of the two branches.
* **`matchCalls?`** — how the arguments of two calls compare, when the calls can be one.
* **`singleDifference?`** — the one argument that differs.
-/

namespace CodeMend.Check

/-- How two arguments at the same position compare. -/
inductive Comparison where
  /-- They are the same tokens. -/
  | equivalent
  /-- They differ, under the same label or both without one. -/
  | different
  /-- They have different labels. -/
  | notComparable
deriving DecidableEq, Repr

/-- The texts of the tokens of a node. -/
def tokenTexts (t : Tree) (n : NodeId) : List String := (t.tokenIds n).map fun i => (t.token i).text

/-- The nodes are the same tokens, whatever trivia stands between them. -/
def sameTokens (t : Tree) (a b : NodeId) : Bool := tokenTexts t a == tokenTexts t b

/-- Compare two arguments at the same position. -/
def compareArguments (t : Tree) (a b : ArgumentView) : Comparison :=
  if sameTokens t a.node b.node then .equivalent
  else if a.name? t != b.name? t then .notComparable
  else .different

/-- The position of the argument that differs, when it is the only one. -/
def singleDifference? (comparisons : List Comparison) : Option Nat :=
  match comparisons.zipIdx.filter fun c => c.1 == .different with
  | [(_, i)] => some i
  | _ => none

/-- The call that is all of a branch, and the kind of its statement.  Braces around the statement do
not count. -/
def branchCall? (t : Tree) (branch : NodeId) : Option (NodeKind × NodeId) := do
  let statement ←
    if t.kind branch == .block then Overloads.only? (t.childNodes branch) else some branch
  let call ← Overloads.only? (t.childNodes statement)
  if t.kind call == .invocationExpression then return (t.kind statement, call) else none

/-- The calls of the two branches of an if statement, when their statements are of one kind. -/
def ifCalls? (t : Tree) (n : NodeId) : Option (NodeId × NodeId) := do
  let v ← IfView.ofNode? t n
  let (kind, whenTrue) ← branchCall? t v.statement
  let (otherKind, whenFalse) ← branchCall? t (← v.elseStatement)
  if kind == otherKind then return (whenTrue, whenFalse) else none

/-- The calls that are the two arms of a conditional. -/
def conditionalCalls? (t : Tree) (n : NodeId) : Option (NodeId × NodeId) :=
  match t.childNodes n with
  | _ :: whenTrue :: whenFalse :: _ =>
    if t.kind whenTrue == .invocationExpression && t.kind whenFalse == .invocationExpression then
      some (whenTrue, whenFalse)
    else none
  | _ => none

/-- How the arguments of two calls compare, position by position, when no labels are in the way. -/
def compareCalls? (t : Tree) (v w : InvocationView) : Option (List Comparison) :=
  let comparisons := List.zipWith (compareArguments t) (v.argumentViews t) (w.argumentViews t)
  if comparisons.length != v.arguments.items.length || comparisons.contains .notComparable then none
  else some comparisons

/-- How the arguments of two calls compare, when both call the same method and have as many
arguments, at least one. -/
def matchCalls? (b : Binder) (whenTrue whenFalse : NodeId) :
    Analysis (Option (List Comparison)) := do
  let t := b.tree
  match InvocationView.ofNode? t whenTrue, InvocationView.ofNode? t whenFalse with
  | some v, some w =>
    if v.arguments.items.isEmpty || v.arguments.items.length != w.arguments.items.length then
      return none
    else
      -- Both have to be calls of one method.
      match ← b.resolveInvocation? whenTrue with
      | none => return none
      | some m =>
        return if (← b.resolveInvocation? whenFalse) == some m then compareCalls? t v w else none
  | _, _ => return none

/-- The keyword or mark that stands for a choice between two calls, and the calls. -/
def branching? (t : Tree) (n : NodeId) : Option (TokenId × NodeId × NodeId) :=
  match t.kind n with
  | .ifStatement => do
    let calls ← ifCalls? t n
    return ((← IfView.ofNode? t n).ifKeyword, calls)
  | .conditionalExpression => do
    let calls ← conditionalCalls? t n
    return (← t.childToken? n "?", calls)
  | _ => none

/-- What there is to report about an if statement or a conditional: its branches could be one call.
The anchor is the keyword or the question mark. -/
def duplicateCall? (b : Binder) (n : NodeId) : Analysis (Option Finding) := do
  let t := b.tree
  match branching? t n with
  | none => return none
  | some (anchor, whenTrue, whenFalse) =>
    if ((← matchCalls? b whenTrue whenFalse).bind singleDifference?).isNone then return none
    else
      let m? := (← b.resolveInvocation? whenTrue).bind b.program.method?
      return m?.map fun m => ⟨.duplicateCall, b.document.id, (t.token anchor).span, [m.name]⟩

end CodeMend.Check
