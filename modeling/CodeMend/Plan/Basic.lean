import CodeMend.Rule.Finding

/-!
# CodeMend — plans

A fix that changes the signature of a method has to change every call of it.  The plan of a fix
names all the nodes that it touches, its sites, by document.  A site records where its node starts
and not its number: the document is parsed again after every change, and as long as only the text
behind the start has changed, the node is found there again.

* **`Site.ofNode`**, **`Site.relocate?`** — from a node to its site and back.
* **`ByDocument`** — values by document.
-/

namespace CodeMend

/-- Values by document, in the order of the documents, each document at most once. -/
abbrev ByDocument (α : Type) := List (DocumentId × List α)

namespace ByDocument

variable {α : Type}

/-- The values of a document. -/
def ofDocument (m : ByDocument α) (d : DocumentId) : List α :=
  ((m.find? fun entry => entry.1 == d).map Prod.snd).getD []

/-- Add values to those of a document. -/
def append : ByDocument α → DocumentId → List α → ByDocument α
  | [], d, new => [(d, new)]
  | (e, xs) :: rest, d, new =>
    if d < e then (d, new) :: (e, xs) :: rest
    else if d == e then (e, xs ++ new) :: rest
    else (e, xs) :: append rest d new

end ByDocument

/-- What a site is to a fix. -/
inductive SiteRole where
  /-- The node that the finding is about. -/
  | declaration
  /-- A call of the changed method, with the positions of the arguments for the affected
  parameters. -/
  | call (positions : List Nat)
deriving DecidableEq, Repr

/-- A node to change. -/
structure Site where
  role : SiteRole
  kind : NodeKind
  /-- What the node covered when the plan was made. -/
  span : Span
  /-- The position among the nodes of the kind that start there, the innermost first. -/
  depth : Nat
deriving DecidableEq, Repr

namespace Site

/-- The site of a node. -/
def ofNode (t : Tree) (n : NodeId) (role : SiteRole) : Site where
  role := role
  kind := t.kind n
  span := t.span n
  depth := ((t.startingAt (t.kind n) (t.span n).start).idxOf? n).getD 0

/-- The node of a site in a tree whose text is unchanged up to the start of the site. -/
def relocate? (s : Site) (t : Tree) : Option NodeId :=
  (t.startingAt s.kind s.span.start)[s.depth]?

/-- Sites are taken from the back of the document; of those that start together, the innermost comes
first. -/
def compareFromBack (a b : Site) : Ordering :=
  (compare b.span.start a.span.start).then (compare a.depth b.depth)

end Site

/-- Everything that one fix changes. -/
structure Plan where
  rule : Rule
  /-- The method whose signature changes. -/
  method : Option Nat
  /-- The indices of the affected parameters. -/
  parameters : List Nat
  sites : ByDocument Site
deriving Repr

/-- The number of sites. -/
def Plan.size (p : Plan) : Nat := (p.sites.flatMap Prod.snd).length

end CodeMend
