import CodeMend.Tree.Basic

/-!
# CodeMend — finding one's way in a tree

Ancestors and descendants of a node, and the nodes and tokens at a place in the source.
-/

namespace CodeMend.Tree

/-- The nodes above a node, the nearest first, at most `fuel` of them. -/
def ancestorsFrom (t : Tree) : Nat → NodeId → List NodeId
  | 0, _ => []
  | fuel + 1, n =>
    match t.parent? n with
    | some p => p :: ancestorsFrom t fuel p
    | none => []

/-- The nodes above a node, the nearest first.  No chain of parents is longer than the tree has
nodes. -/
def ancestors (t : Tree) (n : NodeId) : List NodeId := t.ancestorsFrom t.nodes.size n

def ancestorOfKind? (t : Tree) (n : NodeId) (k : NodeKind) : Option NodeId :=
  (t.ancestors n).find? fun a => t.kind a == k

def isAncestor (t : Tree) (ancestor n : NodeId) : Bool := (t.ancestors n).contains ancestor

/-- The nodes of a list and all that is under them, each before what is under it. -/
def preorder (t : Tree) : Nat → List NodeId → List NodeId
  | 0, _ => []
  | _ + 1, [] => []
  | fuel + 1, n :: rest => n :: preorder t fuel (t.childNodes n ++ rest)

/-- The nodes under a node, each before what is under it and in source order. -/
def descendants (t : Tree) (n : NodeId) : List NodeId :=
  t.preorder t.nodes.size (t.childNodes n)

/-- All nodes, each before what is under it. -/
def allNodes (t : Tree) : List NodeId := t.preorder t.nodes.size [root]

/-- How many of the tokens numbered below `hi`, and from `lo` on, start at or before an offset with
their trivia; the full starts ascend. -/
def countStarts (t : Tree) (offset : Nat) (lo hi : Nat) : Nat :=
  if lo < hi then
    let mid := (lo + hi) / 2
    if (t.token mid).fullStart ≤ offset then countStarts t offset (mid + 1) hi
    else countStarts t offset lo mid
  else lo
termination_by hi - lo

/-- The token that covers an offset with its trivia; between two tokens, the later one. -/
def tokenAt? (t : Tree) (offset : Nat) : Option TokenId :=
  if offset > t.source.utf8ByteSize then none
  else prevToken? (t.countStarts offset 0 t.tokens.size)

/-- Go down from a node as long as a child covers the span. -/
def coveringFrom (t : Tree) (span : Span) : Nat → NodeId → NodeId
  | 0, n => n
  | fuel + 1, n =>
    match (t.childNodes n).find? fun c => (t.span c).contains span with
    | some c => coveringFrom t span fuel c
    | none => n

/-- The deepest node whose span covers a span; the root when no other node does. -/
def covering (t : Tree) (span : Span) : NodeId := t.coveringFrom span t.nodes.size root

/-- The deepest node of a kind with exactly the given span. -/
def findNode? (t : Tree) (k : NodeKind) (span : Span) : Option NodeId :=
  let n := t.covering span
  (n :: t.ancestors n).find? fun a => t.kind a == k && t.span a == span

/-- The nodes of a kind whose first token starts at an offset, the innermost first.  Where a node
ends does not matter, so a node can be found again after its inside was changed. -/
def startingAt (t : Tree) (k : NodeKind) (offset : Nat) : List NodeId :=
  match t.tokenAt? offset with
  | none => []
  | some i =>
    if (t.token i).offset ≠ offset then []
    else
      let p := t.tokenParent i
      ((p :: t.ancestors p).takeWhile fun a => t.firstToken a == i).filter fun a => t.kind a == k

end CodeMend.Tree
