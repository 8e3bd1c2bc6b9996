import CodeMend.Proofs.Tree.Children
import CodeMend.Proofs.Tree.Trivia

/-!
# CodeMend — phrases

What stands at a node, apart from where it stands: the words under it and the forms over them.  Two
trees can be compared by their phrases, and what an expression does is told of its phrase.

* **`Phrase.nodes`**, **`Phrase.spelling`** — the parts and the words of a phrase.
* **`Phrase.putArgument`** — a call with another argument in the place of one.
* **`Tree.phrase`** — the phrase of a node; `Parsed.phrase_eq` reads it off the node's children.
-/

namespace CodeMend

/-- A stretch of source as it is read, without trivia and places. -/
inductive Phrase where
  | word (text : String)
  | node (kind : NodeKind) (parts : List Phrase)
deriving Repr, Inhabited

namespace Phrase

mutual

/-- Equality of phrases can be decided part by part. -/
def decEq : (p q : Phrase) → Decidable (p = q)
  | .word a, .word b => if h : a = b then .isTrue (by rw [h]) else .isFalse (by simp [h])
  | .word _, .node _ _ => .isFalse (by simp)
  | .node _ _, .word _ => .isFalse (by simp)
  | .node k ps, .node l qs =>
    if hk : k = l then
      match decEqList ps qs with
      | .isTrue h => .isTrue (by rw [hk, h])
      | .isFalse h => .isFalse (by simp [h])
    else .isFalse (by simp [hk])

def decEqList : (ps qs : List Phrase) → Decidable (ps = qs)
  | [], [] => .isTrue rfl
  | [], _ :: _ => .isFalse (by simp)
  | _ :: _, [] => .isFalse (by simp)
  | p :: ps, q :: qs =>
    match decEq p q with
    | .isTrue h =>
      match decEqList ps qs with
      | .isTrue hs => .isTrue (by rw [h, hs])
      | .isFalse hs => .isFalse (by simp [hs])
    | .isFalse h => .isFalse (by simp [h])

end

instance : DecidableEq Phrase := decEq

/-! ## Parts

A phrase is words and forms over them.  Marks are words too, so the nodes among the parts are what
has a meaning of its own. -/

def isNode : Phrase → Bool
  | .word _ => false
  | .node _ _ => true

@[simp] theorem isNode_word (text : String) : (word text).isNode = false := rfl

@[simp] theorem isNode_node (k : NodeKind) (parts : List Phrase) :
    (node k parts).isNode = true := rfl

def kind? : Phrase → Option NodeKind
  | .word _ => none
  | .node k _ => some k

/-- The nodes right under a phrase. -/
def nodes : Phrase → List Phrase
  | .word _ => []
  | .node _ parts => parts.filter isNode

/-- The words among some phrases. -/
def wordsOf (parts : List Phrase) : List String :=
  parts.filterMap fun
    | .word text => some text
    | .node _ _ => none

mutual

/-- All words of a phrase. -/
def spelling : Phrase → List String
  | .word text => [text]
  | .node _ parts => spellingOfList parts

def spellingOfList : List Phrase → List String
  | [] => []
  | p :: ps => spelling p ++ spellingOfList ps

end

/-! ## Phrases with other parts

Only nodes are counted when a part is exchanged, so that the marks between arguments stay where they
are. -/

/-- Some phrases with another one in the place of the node at a position. -/
def alterNodes : Nat → (Phrase → Phrase) → List Phrase → List Phrase
  | _, _, [] => []
  | i, f, .word text :: ps => .word text :: alterNodes i f ps
  | 0, f, .node k parts :: ps => f (.node k parts) :: ps
  | i + 1, f, .node k parts :: ps => .node k parts :: alterNodes i f ps

def alterNode (p : Phrase) (i : Nat) (f : Phrase → Phrase) : Phrase :=
  match p with
  | .word text => .word text
  | .node k parts => .node k (alterNodes i f parts)

theorem exists_of_isNode {p : Phrase} (hp : p.isNode = true) :
    ∃ kind parts, p = .node kind parts := by
  cases p with
  | word text => cases hp
  | node kind parts => exact ⟨kind, parts, rfl⟩

/-- A node that gives way to itself. -/
theorem alterNodes_id (i : Nat) (ps : List Phrase) : alterNodes i id ps = ps := by
  induction ps generalizing i with
  | nil => cases i <;> rfl
  | cons p ps ih =>
    cases p with
    | word text => rw [alterNodes, ih]
    | node k parts =>
      cases i with
      | zero => rfl
      | succ i => rw [alterNodes, ih]

theorem nodes_alterNodes {f : Phrase → Phrase} (hf : ∀ p, p.isNode = true → (f p).isNode = true)
    (i : Nat) (ps : List Phrase) :
    (alterNodes i f ps).filter isNode = (ps.filter isNode).modify i f := by
  induction ps generalizing i with
  | nil => simp [alterNodes]
  | cons p ps ih =>
    cases p with
    | word text => simpa [alterNodes, isNode] using ih i
    | node k parts =>
      cases i with
      | zero =>
        rw [alterNodes, List.filter_cons_of_pos (hf (.node k parts) rfl),
          List.filter_cons_of_pos (isNode_node k parts), List.modify_zero_cons]
      | succ i =>
        rw [alterNodes, List.filter_cons_of_pos (isNode_node k parts),
          List.filter_cons_of_pos (isNode_node k parts), ih i, List.modify_succ_cons]

theorem nodes_alterNode {f : Phrase → Phrase} (hf : ∀ p, p.isNode = true → (f p).isNode = true)
    (p : Phrase) (i : Nat) : (p.alterNode i f).nodes = p.nodes.modify i f := by
  cases p with
  | word text => simp [alterNode, nodes]
  | node k parts => exact nodes_alterNodes hf i parts

@[simp] theorem isNode_alterNode (p : Phrase) (i : Nat) (f : Phrase → Phrase) :
    (p.alterNode i f).isNode = p.isNode := by
  cases p <;> rfl

@[simp] theorem kind?_alterNode (p : Phrase) (i : Nat) (f : Phrase → Phrase) :
    (p.alterNode i f).kind? = p.kind? := by
  cases p <;> rfl

/-! ## Calls

A call consists of what it calls and of a list, and an argument ends with its expression. -/

/-- What a call calls. -/
def callee (p : Phrase) : Phrase := p.nodes.headD default

/-- The arguments of a call. -/
def arguments (p : Phrase) : List Phrase := (p.nodes.tail.headD default).nodes

/-- The phrase is a call: something that is called, and a list of arguments. -/
def IsCall (p : Phrase) : Prop :=
  p.kind? = some .invocationExpression ∧
    ∃ f list, p.nodes = [f, list] ∧ list.kind? = some .argumentList

/-- The expression of an argument, which stands behind its label. -/
def expression (p : Phrase) : Phrase := p.nodes.getLastD default

/-- A call with another argument in the place of the one at a position. -/
def putArgument (p : Phrase) (i : Nat) (argument : Phrase) : Phrase :=
  p.alterNode 1 fun list => list.alterNode i fun _ => argument

/-- An argument with another expression. -/
def putExpression (p e : Phrase) : Phrase := p.alterNode (p.nodes.length - 1) fun _ => e

section Calls

variable {p argument e : Phrase} {i : Nat}

theorem nodes_putArgument :
    (p.putArgument i argument).nodes =
      p.nodes.modify 1 (fun list => list.alterNode i fun _ => argument) :=
  nodes_alterNode (fun q hq => by rw [isNode_alterNode, hq]) p 1

theorem IsCall.putArgument (hp : p.IsCall) : (p.putArgument i argument).IsCall := by
  obtain ⟨hkind, f, list, hnodes, hlist⟩ := hp
  refine ⟨?_, f, list.alterNode i fun _ => argument, ?_, ?_⟩
  · rw [Phrase.putArgument, kind?_alterNode, hkind]
  · rw [nodes_putArgument, hnodes]
    rfl
  · rw [kind?_alterNode, hlist]

theorem expression_putExpression (he : e.isNode = true) (hp : p.nodes ≠ []) :
    (p.putExpression e).expression = e := by
  rw [expression, Phrase.putExpression, nodes_alterNode fun _ _ => he]
  have hlength := List.length_pos_iff.mpr hp
  rw [List.getLastD_eq_getLast?, List.getLast?_eq_getElem?, List.length_modify,
    List.getElem?_modify_eq, List.getElem?_eq_getElem (by omega)]
  rfl

end Calls

end Phrase

namespace Tree

/-! ## The phrase of a node

A tree refers to nodes by numbers, and a phrase is read off by following them.  The fuel is the
number of nodes, which no path can exceed in a parsed tree. -/

/-- The phrase of a child, looked up at most `fuel` nodes deep. -/
def phraseFrom (t : Tree) : Nat → Child → Phrase
  | _, .token i => .word (t.token i).text
  | 0, .node n => .node (t.kind n) []
  | fuel + 1, .node n => .node (t.kind n) ((t.children n).map (t.phraseFrom fuel))

/-- The phrase of a child.  No node stands deeper than the tree has nodes. -/
def childPhrase (t : Tree) (c : Child) : Phrase := t.phraseFrom t.nodeCount c

def phrase (t : Tree) (n : NodeId) : Phrase := t.childPhrase (.node n)

section Phrase

variable {t : Tree} {n : NodeId}

theorem isNode_phrase (t : Tree) (n : NodeId) : (t.phrase n).isNode = true := by
  rw [phrase, childPhrase]
  cases t.nodeCount <;> rfl

/-- Fuel for every node of a shape is enough. -/
theorem Stands.phraseFrom_eq {s : Shape} (h : Stands t s) {fuel : Nat} (hfuel : s.size ≤ fuel) :
    t.phraseFrom fuel s.asChild = t.phraseFrom s.size s.asChild := by
  -- Both sides go down to the children, each of which is smaller than the node above it.
  induction h generalizing fuel with
  | token i => cases fuel <;> rfl
  | @node id k cs hlt hk hchildren hword hall ih =>
    have hsize : (Shape.node id k cs).size = (Shape.idsOfList cs).length + 1 := by
      rw [Shape.size, Shape.ids_node, List.length_cons]
    rw [hsize] at hfuel ⊢
    cases fuel with
    | zero => cases hfuel
    | succ fuel =>
      show Phrase.node _ ((t.children id).map _) = .node _ ((t.children id).map _)
      rw [hchildren, List.map_map, List.map_map]
      congr 1
      refine List.map_congr_left fun s hs => ?_
      have hle : s.size ≤ (Shape.idsOfList cs).length := (Shape.ids_infix_of_mem hs).length_le
      show t.phraseFrom fuel s.asChild = t.phraseFrom (Shape.idsOfList cs).length s.asChild
      rw [ih s hs (hle.trans (Nat.le_of_succ_le_succ hfuel)), ih s hs hle]

/-- **The phrase of a node holds the phrases of its children.** -/
theorem Parsed.phrase_eq (hp : Parsed t) (hn : n < t.nodeCount) :
    t.phrase n = .node (t.kind n) ((t.children n).map t.childPhrase) := by
  obtain ⟨cs, hstands, hsize⟩ := hp.stands n hn
  obtain ⟨count, hcount⟩ := Nat.exists_eq_add_one_of_ne_zero (Nat.ne_zero_of_lt hn)
  cases id hstands with
  | node _ _ hchildren _ hall =>
    have hcs : (Shape.idsOfList cs).length ≤ count := by
      rw [Shape.size, Shape.ids_node, List.length_cons, hcount] at hsize
      exact Nat.le_of_succ_le_succ hsize
    rw [phrase, childPhrase, hcount]
    show Phrase.node _ ((t.children n).map (t.phraseFrom count)) = _
    rw [hchildren, List.map_map, List.map_map]
    congr 1
    refine List.map_congr_left fun s hs => ?_
    show t.phraseFrom count s.asChild = t.childPhrase s.asChild
    have hle : s.size ≤ count := (Shape.ids_infix_of_mem hs).length_le.trans hcs
    rw [childPhrase, hcount, (hall s hs).phraseFrom_eq hle,
      (hall s hs).phraseFrom_eq (hle.trans (Nat.le_succ _))]

/-- The nodes of the phrase of a node are the phrases of the nodes under it. -/
theorem Parsed.nodes_phrase (hp : Parsed t) (n : NodeId) :
    (t.phrase n).nodes = (t.childNodes n).map t.phrase := by
  by_cases hn : n < t.nodeCount
  · rw [hp.phrase_eq hn, Phrase.nodes, childNodes]
    induction t.children n with
    | nil => rfl
    | cons c cs ih =>
      cases c with
      | token i =>
        have hword : t.childPhrase (.token i) = .word (t.token i).text := by
          rw [childPhrase]
          cases t.nodeCount <;> rfl
        rw [List.map_cons, hword, List.filter_cons_of_neg (by simp), ih]
        rfl
      | node m =>
        have hnode : (t.childPhrase (.node m)).isNode = true := isNode_phrase t m
        rw [List.map_cons, List.filter_cons_of_pos hnode, ih]
        rfl
  · -- A number that no node bears has no children.
    have hchildren : t.children n = [] := by
      rw [children, data_eq_default (Nat.le_of_not_lt hn)]
      rfl
    rw [childNodes, hchildren, phrase, childPhrase]
    cases t.nodeCount with
    | zero => rfl
    | succ count =>
      show List.filter _ ((t.children n).map (t.phraseFrom count)) = []
      rw [hchildren]
      rfl

end Phrase

end Tree

/-! ## The words of a phrase

The phrase of a node is spelled with the texts of the node's tokens.  So what is put in the place of
a node has the words around that node around it.  -/

namespace Tree

variable {t : Tree} {n m : NodeId}

/-- The words of a stretch of tokens, from one of them up to before another one. -/
def stretch (t : Tree) (i j : TokenId) : List String :=
  (List.range' i (j - i)).map fun k => (t.token k).text

end Tree

namespace Phrase

theorem spellingOfList_eq (ps : List Phrase) : spellingOfList ps = ps.flatMap spelling := by
  induction ps with
  | nil => rfl
  | cons p ps ih => rw [spellingOfList, ih, List.flatMap_cons]

end Phrase

namespace Tree

variable {source : String} {t : Tree} {n m : NodeId}

theorem childPhrase_token (t : Tree) (i : TokenId) :
    t.childPhrase (.token i) = .word (t.token i).text := by
  rw [childPhrase]
  cases t.nodeCount <;> rfl

/-- The phrase of what stands in a tree has the words of its tokens. -/
theorem Stands.spelling_eq {s : Shape} (hs : Stands t s) (h : InOrder t) (hg : Gapless t) :
    (t.childPhrase s.asChild).spelling =
      (t.idsOf s.asChild).map fun i => (t.token i).text := by
  induction hs with
  | token i =>
    show (t.childPhrase (.token i)).spelling = _
    rw [childPhrase_token]
    rfl
  | @node id k cs hlt hk hchildren hword hall ih =>
    show (t.phrase id).spelling = (t.tokenIds id).map _
    rw [h.parsed.phrase_eq hlt, Phrase.spelling, Phrase.spellingOfList_eq,
      tokenIds_eq_flatMap h hg hlt, hchildren, List.map_map, List.flatMap_map, List.map_flatMap,
      List.flatMap_map]
    exact List.flatMap_congr fun s hs => ih s hs

theorem spelling_childPhrase (h : InOrder t) (hg : Gapless t) {c : Child}
    (hc : ∀ n, c = .node n → n < t.nodeCount) :
    (t.childPhrase c).spelling = (t.idsOf c).map fun i => (t.token i).text := by
  cases c with
  | token i =>
    rw [childPhrase_token]
    rfl
  | node n =>
    obtain ⟨cs, hs, -⟩ := h.parsed.stands n (hc n rfl)
    exact hs.spelling_eq h hg

/-- **The phrase of a node has the words of its tokens.** -/
theorem spelling_phrase (h : InOrder t) (hg : Gapless t) (hn : n < t.nodeCount) :
    (t.phrase n).spelling = t.stretch (t.firstToken n) (t.lastToken n + 1) :=
  spelling_childPhrase h hg fun _ hc => Child.node.inj hc ▸ hn

end Tree

end CodeMend
