import CodeMend.Check.DuplicateCall
import CodeMend.Patch.Basic

/-!
# CodeMend — patches of duplicate calls

The calls of two branches become one, and the argument that differs becomes a conditional between
the two.
-/

namespace CodeMend.Patch

/-- The source of a tree with another text in the place of `inner`, cut to `outer`. -/
def splice? (source : String) (outer inner : Span) (text : String) : Option String := do
  let front ← extract? source outer.start inner.start
  let back ← extract? source inner.stop outer.stop
  return front ++ text ++ back

/-- An expression as a part of a conditional: in parentheses where it would not be read as that
part. -/
def conditionalPart (t : Tree) (n : NodeId) (isCondition : Bool) : String :=
  let k := t.kind n
  if k == .assignmentExpression || k.isLambda || (isCondition && k == .conditionalExpression) then
    "(" ++ t.text n ++ ")"
  else t.text n

/-- The text of the first call with a conditional in the place of the one argument that differs. -/
def mergedCall? (t : Tree) (condition whenTrue whenFalse : NodeId) : Option String := do
  let v ← InvocationView.ofNode? t whenTrue
  let w ← InvocationView.ofNode? t whenFalse
  if !Check.sameTokens t v.callee w.callee then none
  let arguments := v.argumentViews t
  let others := w.argumentViews t
  if arguments.length != others.length then none
  let comparisons := List.zipWith (Check.compareArguments t) arguments others
  if comparisons.contains .notComparable then none
  -- The place at which the calls differ gets the conditional.
  let index ← Check.singleDifference? comparisons
  let a ← arguments[index]?
  let b ← others[index]?
  if a.refKind.isSome || b.refKind.isSome then none
  splice? t.source (t.span whenTrue) (t.span a.expression)
    (conditionalPart t condition true ++ " ? " ++ conditionalPart t a.expression false ++ " : " ++
      conditionalPart t b.expression false)

/-- The comments of a list of trivia that starts at an offset, with their spans. -/
def placedComments : Nat → List Trivia → List (Span × String)
  | _, [] => []
  | offset, piece :: rest =>
    let stop := offset + piece.text.utf8ByteSize
    (if piece.isComment then [(⟨offset, stop⟩, piece.text)] else []) ++ placedComments stop rest

/-- The comments between the first and the last token of a node, with their spans. -/
def interiorComments (t : Tree) (n : NodeId) : List (Span × String) :=
  (t.tokenIds n).flatMap fun i =>
    let token := t.token i
    (if i == t.firstToken n then [] else placedComments token.fullStart token.leading) ++
      (if i == t.lastToken n then [] else placedComments token.stop token.trailing)

/-- The patch that makes an if statement the statement of its first branch.  The comments outside of
that statement come to stand in front of it. -/
def mergeIf? (t : Tree) (n : NodeId) : Option (List Patch) := do
  let v ← IfView.ofNode? t n
  let (whenTrue, whenFalse) ← Check.ifCalls? t n
  let merged ← mergedCall? t v.condition whenTrue whenFalse
  let statement := t.span (← t.parent? whenTrue)
  let text ← splice? t.source statement (t.span whenTrue) merged
  let indent ← indentationAt? t.source (t.span n).start
  let comments := ((interiorComments t n).filter fun c => !statement.contains c.1).map fun c =>
    c.2 ++ lineEnding t.source ++ indent
  return [⟨t.span n, String.join comments ++ text, false⟩]

/-- The patch that makes a conditional its first call.  There must be no comment outside of that
call. -/
def mergeConditional? (t : Tree) (n : NodeId) : Option (List Patch) := do
  let condition ← (t.childNodes n).head?
  let (whenTrue, whenFalse) ← Check.conditionalCalls? t n
  if (interiorComments t n).any fun c => !(t.span whenTrue).contains c.1 then none
  return [⟨t.span n, ← mergedCall? t condition whenTrue whenFalse, false⟩]

/-- The patch that makes one call of the two in the branches of a node. -/
def mergeCalls? (t : Tree) (n : NodeId) : Option (List Patch) :=
  match t.kind n with
  | .ifStatement => mergeIf? t n
  | .conditionalExpression => mergeConditional? t n
  | _ => none

end CodeMend.Patch
