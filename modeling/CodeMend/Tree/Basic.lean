import CodeMend.Token.Basic
import CodeMend.Tree.Kind

/-!
# CodeMend — syntax trees

A `Tree` keeps its nodes in an array, so that parents, children and the first and last token of a
node can be looked up by number.  A `TreeBuilder` fills the arrays while a source is read: nodes are
begun and ended around the tokens, and a node may be begun behind the children that it is to take
in.

* **`Shape`** — a node with all that is under it, as it comes to be while a source is read.
* **`TreeBuilder.startNode`**, **`TreeBuilder.startNodeAt`**, **`TreeBuilder.token`**,
  **`TreeBuilder.finishNode`** — the steps in which a tree is built.
* **`span`**, **`text`** and so on — what a node covers in the source.
-/

namespace CodeMend

/-- The number of a node in its tree. -/
abbrev NodeId := Nat

/-- The number of a token in its tree. -/
abbrev TokenId := Nat

/-- A node with all that is under it, or a token. -/
inductive Shape where
  | token (index : TokenId)
  | node (id : NodeId) (kind : NodeKind) (children : List Shape)
deriving Repr, Inhabited

/-- A child of a node. -/
inductive Child where
  | node (id : NodeId)
  | token (id : TokenId)
deriving DecidableEq, Repr

namespace Child

def node? : Child → Option NodeId
  | .node id => some id
  | .token _ => none

def token? : Child → Option TokenId
  | .node _ => none
  | .token id => some id

end Child

namespace Shape

/-- The shape as a child of the node above it. -/
def asChild : Shape → Child
  | .token i => .token i
  | .node id _ _ => .node id

end Shape

/-- What a tree keeps of a node. -/
structure NodeData where
  kind : NodeKind
  parent : Option NodeId
  children : List Child
  first : TokenId
  last : TokenId
deriving Repr, Inhabited

/-- A parsed source. -/
structure Tree where
  source : String
  tokens : Array Token
  nodes : Array NodeData
  /-- The node that each token hangs under. -/
  tokenParents : Array NodeId
deriving Inhabited

/-! ## Building

The steps are told by the node that is open, which is the innermost of those whose construction has
begun and not ended.  A node gets its number when it is begun, and it becomes a child of the open
one at once; its own children come to hang under it when it is ended.  A checkpoint is a place among
the children of the open node.  A node that is begun at a checkpoint takes in all children behind
it, which is how an operand that was read becomes a part of the operation that it turns out to
belong to. -/

/-- A place among the children of the open node: the number of those in front of it. -/
abbrev Checkpoint := Nat

/-- A tree while it is built. -/
structure TreeBuilder where
  nodes : Array NodeData
  /-- The nodes whose construction has begun and not ended, the innermost first. -/
  opened : List NodeId
  tokenParents : Array NodeId

namespace TreeBuilder

/-- Nothing is built yet over a number of tokens. -/
def ofTokens (count : Nat) : TreeBuilder := ⟨#[], [], Array.replicate count 0⟩

def data (b : TreeBuilder) (n : NodeId) : NodeData := b.nodes.getD n default

/-- Change what is kept of a node. -/
def alter (b : TreeBuilder) (n : NodeId) (f : NodeData → NodeData) : TreeBuilder :=
  { b with nodes := b.nodes.setIfInBounds n (f (b.data n)) }

/-- Put a child behind those of a node. -/
def addChild (b : TreeBuilder) (parent : NodeId) (child : Child) : TreeBuilder :=
  b.alter parent fun d => { d with children := d.children ++ [child] }

/-- Make the next node, with children that stand already. -/
def alloc (b : TreeBuilder) (kind : NodeKind) (children : List Child) : TreeBuilder :=
  { b with nodes := b.nodes.push ⟨kind, b.opened.head?, children, 0, 0⟩ }

/-- Begin a node, which is the last child of the open one so far. -/
def startNode (b : TreeBuilder) (kind : NodeKind) : TreeBuilder :=
  let n := b.nodes.size
  let b := b.alloc kind []
  let b := match b.opened with
    | [] => b
    | parent :: _ => b.addChild parent (.node n)
  { b with opened := n :: b.opened }

/-- The place behind the children of the open node. -/
def checkpoint (b : TreeBuilder) : Checkpoint :=
  match b.opened with
  | [] => 0
  | parent :: _ => (b.data parent).children.length

/-- Begin a node that takes in the children of the open one behind a checkpoint. -/
def startNodeAt (b : TreeBuilder) (checkpoint : Checkpoint) (kind : NodeKind) : TreeBuilder :=
  match b.opened with
  | [] => b.startNode kind
  | parent :: _ =>
    let n := b.nodes.size
    let moved := (b.data parent).children.drop checkpoint
    let b := b.alter parent fun d => { d with children := d.children.take checkpoint }
    let b := (b.alloc kind moved).addChild parent (.node n)
    { b with opened := n :: b.opened }

/-- Begin a node, at a checkpoint if there is one. -/
def startNodeSince (b : TreeBuilder) : Option Checkpoint → NodeKind → TreeBuilder
  | none => b.startNode
  | some cp => b.startNodeAt cp

/-- Put a token behind the children of the open node. -/
def token (b : TreeBuilder) (i : TokenId) : TreeBuilder :=
  match b.opened with
  | [] => b
  | parent :: _ => b.addChild parent (.token i)

/-- The first and the last token of a child. -/
def ends (b : TreeBuilder) : Child → TokenId × TokenId
  | .token i => (i, i)
  | .node n => ((b.data n).first, (b.data n).last)

/-- From now on, a child hangs under a node. -/
def adopt (b : TreeBuilder) (parent : NodeId) : Child → TreeBuilder
  | .token i => { b with tokenParents := b.tokenParents.setIfInBounds i parent }
  | .node n => b.alter n fun d => { d with parent := some parent }

/-- Let the children of a node hang under it, one after the other, and tell the first token of the
first of them and the last token of the last one. -/
def adoptAll (parent : NodeId) (children : List Child) (b : TreeBuilder) :
    TreeBuilder × Option TokenId × TokenId :=
  children.foldl (fun (b, first, _) child =>
    (b.adopt parent child, first.or (some (b.ends child).1), (b.ends child).2)) (b, none, 0)

/-- End the open node, which covers the tokens from the first to the last one of its children. -/
def finishNode (b : TreeBuilder) : TreeBuilder :=
  match b.opened with
  | [] => b
  | n :: outer =>
    let (b, first, last) := adoptAll n (b.data n).children { b with opened := outer }
    b.alter n fun d => { d with first := first.getD last, last }

/-- The tree, once all nodes that are still open are ended. -/
def finish (b : TreeBuilder) (source : String) (tokens : Array Token) : Tree :=
  let b := b.opened.foldl (fun b _ => b.finishNode) b
  ⟨source, tokens, b.nodes, b.tokenParents⟩

end TreeBuilder

namespace Tree

/-! ## Nodes and tokens -/

/-- The node around the whole source. -/
def root : NodeId := 0

def nodeCount (t : Tree) : Nat := t.nodes.size

def data (t : Tree) (n : NodeId) : NodeData := t.nodes.getD n default

/-- A token that stands for the end of an empty source. -/
def noToken : Token := ⟨.endOfFile, "", 0, [], []⟩

def token (t : Tree) (i : TokenId) : Token := t.tokens.getD i noToken

def kind (t : Tree) (n : NodeId) : NodeKind := (t.data n).kind

def parent? (t : Tree) (n : NodeId) : Option NodeId := (t.data n).parent

def tokenParent (t : Tree) (i : TokenId) : NodeId := t.tokenParents.getD i 0

def children (t : Tree) (n : NodeId) : List Child := (t.data n).children

def childNodes (t : Tree) (n : NodeId) : List NodeId := (t.children n).filterMap Child.node?

def childTokens (t : Tree) (n : NodeId) : List TokenId := (t.children n).filterMap Child.token?

def childOfKind? (t : Tree) (n : NodeId) (k : NodeKind) : Option NodeId :=
  (t.childNodes n).find? fun c => t.kind c == k

def childrenOfKind (t : Tree) (n : NodeId) (k : NodeKind) : List NodeId :=
  (t.childNodes n).filter fun c => t.kind c == k

/-- The first token right under a node with a given text. -/
def childToken? (t : Tree) (n : NodeId) (text : String) : Option TokenId :=
  (t.childTokens n).find? fun i => (t.token i).text == text

def firstToken (t : Tree) (n : NodeId) : TokenId := (t.data n).first

def lastToken (t : Tree) (n : NodeId) : TokenId := (t.data n).last

/-- All tokens under a node, in source order. -/
def tokenIds (t : Tree) (n : NodeId) : List TokenId :=
  List.range' (t.firstToken n) (t.lastToken n + 1 - t.firstToken n)

def nextToken? (t : Tree) (i : TokenId) : Option TokenId :=
  if i + 1 < t.tokens.size then some (i + 1) else none

def prevToken? (i : TokenId) : Option TokenId :=
  match i with
  | 0 => none
  | j + 1 => some j

/-! ## Spans and texts -/

/-- What a node covers without the trivia around it. -/
def span (t : Tree) (n : NodeId) : Span :=
  ⟨(t.token (t.firstToken n)).offset, (t.token (t.lastToken n)).stop⟩

/-- What a node covers with the trivia around it. -/
def fullSpan (t : Tree) (n : NodeId) : Span :=
  ⟨(t.token (t.firstToken n)).fullStart, (t.token (t.lastToken n)).fullStop⟩

/-- The source between two tokens, both with their trivia. -/
def renderRange (t : Tree) (first last : TokenId) : String :=
  Token.renderAll ((List.range' first (last + 1 - first)).map t.token)

/-- The source from the text of one token to the text of another. -/
def textRange (t : Tree) (first last : TokenId) : String :=
  if last ≤ first then (t.token first).text
  else
    let a := t.token first
    let b := t.token last
    a.text ++ Trivia.render a.trailing ++
      Token.renderAll ((List.range' (first + 1) (last - first - 1)).map t.token) ++
      Trivia.render b.leading ++ b.text

/-- The source of a node without the trivia around it. -/
def text (t : Tree) (n : NodeId) : String := t.textRange (t.firstToken n) (t.lastToken n)

/-- The source of a node with the trivia around it. -/
def fullText (t : Tree) (n : NodeId) : String := t.renderRange (t.firstToken n) (t.lastToken n)

end Tree

end CodeMend
