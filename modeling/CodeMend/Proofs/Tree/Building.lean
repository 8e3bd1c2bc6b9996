import Mathlib.Data.List.Nodup
import CodeMend.Tree.Basic

/-!
# CodeMend — how a tree is built

A builder holds a stack of open nodes and two arrays.  What it stands for is told by `Represents`:
the open nodes with the shapes that stand under each of them so far.  Each step of the builder does
to these what its name says, so that the shape of a whole file is in the arrays once its node is
ended.

Only the entry of the innermost open node changes while nodes are begun and tokens are added.  When
it is ended, the entries of its children change, which now hang under it.  Nothing else is touched,
as no two nodes bear the same number and no two leaves are the same token.

* **`Shape.parts`** — all that a shape consists of, each part with the node right above it.
* **`TreeBuilder.Represents`** — a builder holds a stack of open nodes.
* **`Represents.startNode`**, **`Represents.startNodeAt`**, **`Represents.token`**,
  **`Represents.finishNode`** — the steps.
* **`Laid`** — what the arrays of a tree say of every part of a shape, and that a part stands behind
  every entry.
-/

namespace CodeMend

/-! ## What is in a shape

The tokens under a shape, the numbers of its nodes, and all of its parts, each with the node right
above it.  The first and the last token are told as they are found while a tree is built, from one
child alone; where every node has a child, they are those of the list. -/

namespace Shape

mutual

/-- The tokens under a shape, from left to right. -/
def leaves : Shape → List TokenId
  | .token i => [i]
  | .node _ _ children => leavesOfList children

def leavesOfList : List Shape → List TokenId
  | [] => []
  | s :: ss => leaves s ++ leavesOfList ss

end

mutual

/-- The first token of a shape, which is that of its first child. -/
def first : Shape → TokenId
  | .token i => i
  | .node _ _ children => firstOfList children

def firstOfList : List Shape → TokenId
  | [] => 0
  | s :: _ => first s

end

mutual

/-- The last token of a shape, which is that of its last child. -/
def last : Shape → TokenId
  | .token i => i
  | .node _ _ children => lastOfList 0 children

def lastOfList (found : TokenId) : List Shape → TokenId
  | [] => found
  | s :: ss => lastOfList (last s) ss

end

mutual

/-- The numbers of the nodes of a shape. -/
def ids : Shape → List NodeId
  | .token _ => []
  | .node id _ children => id :: idsOfList children

def idsOfList : List Shape → List NodeId
  | [] => []
  | s :: ss => ids s ++ idsOfList ss

end

/-- The number of the nodes of a shape. -/
def size (s : Shape) : Nat := s.ids.length

theorem size_eq_length_ids (s : Shape) : s.size = s.ids.length := rfl

@[simp] theorem leavesOfList_nil : leavesOfList [] = [] := by rw [leavesOfList]

@[simp] theorem leavesOfList_cons (s : Shape) (ss : List Shape) :
    leavesOfList (s :: ss) = leaves s ++ leavesOfList ss := by rw [leavesOfList]

@[simp] theorem idsOfList_nil : idsOfList [] = [] := by rw [idsOfList]

@[simp] theorem idsOfList_cons (s : Shape) (ss : List Shape) :
    idsOfList (s :: ss) = ids s ++ idsOfList ss := by rw [idsOfList]

@[simp] theorem leavesOfList_append (a b : List Shape) :
    leavesOfList (a ++ b) = leavesOfList a ++ leavesOfList b := by
  induction a with
  | nil => simp
  | cons s ss ih => simp [ih]

@[simp] theorem idsOfList_append (a b : List Shape) :
    idsOfList (a ++ b) = idsOfList a ++ idsOfList b := by
  induction a with
  | nil => simp
  | cons s ss ih => simp [ih]

@[simp] theorem leaves_token (i : TokenId) : leaves (.token i) = [i] := by rw [leaves]

@[simp] theorem ids_token (i : TokenId) : ids (.token i) = [] := by rw [ids]

@[simp] theorem leaves_node (id : NodeId) (k : NodeKind) (cs : List Shape) :
    leaves (.node id k cs) = leavesOfList cs := by rw [leaves]

@[simp] theorem ids_node (id : NodeId) (k : NodeKind) (cs : List Shape) :
    ids (.node id k cs) = id :: idsOfList cs := by rw [ids]

mutual

/-- A shape and all that is under it, each part with the node right above it. -/
def parts (parent : Option NodeId) : Shape → List (Option NodeId × Shape)
  | .token i => [(parent, .token i)]
  | .node id kind children => (parent, .node id kind children) :: partsOfList (some id) children

def partsOfList (parent : Option NodeId) : List Shape → List (Option NodeId × Shape)
  | [] => []
  | s :: ss => parts parent s ++ partsOfList parent ss

end

@[simp] theorem parts_token (p : Option NodeId) (i : TokenId) :
    parts p (.token i) = [(p, .token i)] := by rw [parts]

@[simp] theorem parts_node (p : Option NodeId) (id : NodeId) (k : NodeKind) (cs : List Shape) :
    parts p (.node id k cs) = (p, .node id k cs) :: partsOfList (some id) cs := by rw [parts]

@[simp] theorem partsOfList_nil (p : Option NodeId) : partsOfList p [] = [] := by rw [partsOfList]

@[simp] theorem partsOfList_cons (p : Option NodeId) (s : Shape) (ss : List Shape) :
    partsOfList p (s :: ss) = parts p s ++ partsOfList p ss := by rw [partsOfList]

theorem mem_parts_self (p : Option NodeId) (s : Shape) : (p, s) ∈ parts p s := by
  cases s <;> simp

theorem mem_partsOfList_iff {p : Option NodeId} {x : Option NodeId × Shape} {ss : List Shape} :
    x ∈ partsOfList p ss ↔ ∃ s ∈ ss, x ∈ parts p s := by
  induction ss with
  | nil => simp
  | cons s ss ih => simp [ih]

/-- The number of the part, if it is a node. -/
def nodeOf? (x : Option NodeId × Shape) : Option NodeId := x.2.asChild.node?

/-- The token that the part is, if it is one. -/
def tokenOf? (x : Option NodeId × Shape) : Option TokenId := x.2.asChild.token?

/-- Induction on a shape, with the hypothesis for every child of a node. -/
theorem induct {motive : Shape → Prop} (token : ∀ i, motive (.token i))
    (node : ∀ id k cs, (∀ s ∈ cs, motive s) → motive (.node id k cs)) (s : Shape) : motive s :=
  @Shape.rec motive (fun cs => ∀ s ∈ cs, motive s) token node
    (by simp) (fun _ _ hs hss => List.forall_mem_cons.mpr ⟨hs, hss⟩) s

theorem filterMap_nodeOf?_parts (p : Option NodeId) (s : Shape) :
    (parts p s).filterMap nodeOf? = ids s := by
  induction s using induct generalizing p with
  | token i => simp [nodeOf?, asChild, Child.node?]
  | node id k cs ih =>
    have hlist : ∀ p, (partsOfList p cs).filterMap nodeOf? = idsOfList cs := by
      intro p
      induction cs with
      | nil => simp
      | cons c cs ihcs =>
        simp [ih c List.mem_cons_self, ihcs fun s hs => ih s (List.mem_cons_of_mem c hs)]
    have hid : nodeOf? (p, .node id k cs) = some id := rfl
    rw [parts_node, List.filterMap_cons_some hid, hlist, ids_node]

theorem filterMap_tokenOf?_parts (p : Option NodeId) (s : Shape) :
    (parts p s).filterMap tokenOf? = leaves s := by
  induction s using induct generalizing p with
  | token i => simp [tokenOf?, asChild, Child.token?]
  | node id k cs ih =>
    have hlist : ∀ p, (partsOfList p cs).filterMap tokenOf? = leavesOfList cs := by
      intro p
      induction cs with
      | nil => simp
      | cons c cs ihcs =>
        simp [ih c List.mem_cons_self, ihcs fun s hs => ih s (List.mem_cons_of_mem c hs)]
    rw [parts_node, List.filterMap_cons_none rfl, hlist, leaves_node]

/-- The parts of a part are parts. -/
theorem mem_parts_trans {p : Option NodeId} {s : Shape} {x y : Option NodeId × Shape}
    (hx : x ∈ parts p s) (hy : y ∈ parts x.1 x.2) : y ∈ parts p s := by
  induction s using induct generalizing p with
  | token i =>
    obtain rfl := List.mem_singleton.mp (parts_token p i ▸ hx)
    exact hy
  | node id k cs ih =>
    rw [parts_node, List.mem_cons] at hx
    rcases hx with rfl | hx
    · exact hy
    · obtain ⟨s, hs, hx⟩ := mem_partsOfList_iff.mp hx
      rw [parts_node]
      exact List.mem_cons_of_mem _ (mem_partsOfList_iff.mpr ⟨s, hs, ih s hs hx⟩)

/-- A child of a part hangs under it. -/
theorem mem_parts_of_mem_children {p q : Option NodeId} {s c : Shape} {id : NodeId} {k : NodeKind}
    {cs : List Shape} (h : (q, .node id k cs) ∈ parts p s) (hc : c ∈ cs) :
    (some id, c) ∈ parts p s := by
  refine mem_parts_trans h ?_
  rw [parts_node]
  exact List.mem_cons_of_mem _ (mem_partsOfList_iff.mpr ⟨c, hc, mem_parts_self _ _⟩)

/-- A part is the shape itself or a child of the part that it hangs under. -/
theorem parent_of_mem_parts {p q : Option NodeId} {s c : Shape} (h : (q, c) ∈ parts p s) :
    (q = p ∧ c = s) ∨
      ∃ p' id k cs, q = some id ∧ (p', .node id k cs) ∈ parts p s ∧ c ∈ cs := by
  induction s using induct generalizing p with
  | token i =>
    rw [parts_token, List.mem_singleton] at h
    exact .inl (Prod.mk.inj h)
  | node id k cs ih =>
    rw [parts_node, List.mem_cons] at h
    rcases h with h | h
    · exact .inl (Prod.mk.inj h)
    obtain ⟨s, hs, h⟩ := mem_partsOfList_iff.mp h
    rcases ih s hs h with ⟨rfl, rfl⟩ | ⟨p', id', k', cs', hq, hmem, hc⟩
    · exact .inr ⟨p, id, k, cs, rfl, mem_parts_self _ _, hs⟩
    · refine .inr ⟨p', id', k', cs', hq, ?_, hc⟩
      rw [parts_node]
      exact List.mem_cons_of_mem _ (mem_partsOfList_iff.mpr ⟨s, hs, hmem⟩)

/-- The number of a part among those of the shape. -/
theorem mem_ids_of_mem_parts {p : Option NodeId} {id : NodeId} {k : NodeKind} {cs : List Shape}
    {q : Option NodeId} {s : Shape} (h : (p, .node id k cs) ∈ s.parts q) : id ∈ s.ids := by
  rw [← filterMap_nodeOf?_parts q]
  exact List.mem_filterMap.mpr ⟨_, h, rfl⟩

theorem mem_leaves_of_mem_parts {p : Option NodeId} {i : TokenId} {q : Option NodeId} {s : Shape}
    (h : (p, .token i) ∈ s.parts q) : i ∈ s.leaves := by
  rw [← filterMap_tokenOf?_parts q]
  exact List.mem_filterMap.mpr ⟨_, h, rfl⟩

theorem lastOfList_eq (found : TokenId) (ss : List Shape) :
    lastOfList found ss = (ss.getLast?.map last).getD found := by
  induction ss generalizing found with
  | nil => rw [lastOfList]; rfl
  | cons s ss ih =>
    rw [lastOfList, ih]
    cases ss with
    | nil => rfl
    | cons s' ss => simp [List.getLast?_cons]

/-- What is under a shape, the shape itself included, each part as a child of the node above it. -/
def marks (s : Shape) : List Child := (parts none s).map fun x => x.2.asChild

def marksOfList (ss : List Shape) : List Child := ss.flatMap marks

@[simp] theorem marksOfList_nil : marksOfList [] = [] := rfl

@[simp] theorem marksOfList_cons (s : Shape) (ss : List Shape) :
    marksOfList (s :: ss) = marks s ++ marksOfList ss := List.flatMap_cons

@[simp] theorem marksOfList_append (a b : List Shape) :
    marksOfList (a ++ b) = marksOfList a ++ marksOfList b := List.flatMap_append

/-- The marks do not depend on where the shape hangs. -/
theorem map_asChild_parts (p : Option NodeId) (s : Shape) :
    (parts p s).map (fun x => x.2.asChild) = marks s := by
  cases s <;> simp [marks]

theorem map_asChild_partsOfList (p : Option NodeId) (ss : List Shape) :
    (partsOfList p ss).map (fun x => x.2.asChild) = marksOfList ss := by
  induction ss with
  | nil => simp
  | cons s ss ih => rw [partsOfList_cons, List.map_append, map_asChild_parts, ih, marksOfList_cons]

@[simp] theorem marks_token (i : TokenId) : marks (.token i) = [.token i] := by
  simp [marks, asChild]

@[simp] theorem marks_node (id : NodeId) (k : NodeKind) (cs : List Shape) :
    marks (.node id k cs) = .node id :: marksOfList cs := by
  rw [marks, parts_node, List.map_cons, map_asChild_partsOfList]
  rfl

theorem mem_marks_of_mem_parts {p : Option NodeId} {x : Option NodeId × Shape} {s : Shape}
    (h : x ∈ parts p s) : x.2.asChild ∈ marks s := by
  rw [← map_asChild_parts p]
  exact List.mem_map_of_mem h

theorem mem_marksOfList_of_mem_partsOfList {p : Option NodeId} {x : Option NodeId × Shape}
    {ss : List Shape} (h : x ∈ partsOfList p ss) : x.2.asChild ∈ marksOfList ss := by
  rw [← map_asChild_partsOfList p]
  exact List.mem_map_of_mem h

theorem asChild_mem_marks (s : Shape) : s.asChild ∈ marks s :=
  mem_marks_of_mem_parts (mem_parts_self none s)

theorem map_asChild_subset_marksOfList (ss : List Shape) : ss.map asChild ⊆ marksOfList ss := by
  intro m hm
  obtain ⟨s, hs, rfl⟩ := List.mem_map.mp hm
  exact List.mem_flatMap.mpr ⟨s, hs, asChild_mem_marks s⟩

/-- What lies deeper under one of some shapes is none of them, if nothing stands twice. -/
theorem notMem_map_asChild_of_inner {cs ds : List Shape} {id : NodeId} {k : NodeKind} {m : Child}
    (hnodup : (marksOfList cs).Nodup) (hc : .node id k ds ∈ cs) (hm : m ∈ marksOfList ds) :
    m ∉ cs.map asChild := by
  induction cs with
  | nil => cases hc
  | cons c cs ih =>
    rw [marksOfList_cons] at hnodup
    have hdisjoint := List.disjoint_of_nodup_append hnodup
    rw [List.map_cons, List.mem_cons, not_or]
    rcases List.mem_cons.mp hc with rfl | hc
    · have hinner : m ∈ marks (.node id k ds) := by simp [hm]
      have hhead := hnodup.of_append_left
      rw [marks_node, List.nodup_cons] at hhead
      exact ⟨fun (heq : m = .node id) => hhead.1 (heq ▸ hm), fun h =>
        hdisjoint hinner (map_asChild_subset_marksOfList cs h)⟩
    · have hinner : m ∈ marksOfList cs := List.mem_flatMap.mpr ⟨_, hc, by simp [hm]⟩
      exact ⟨fun heq => hdisjoint (heq ▸ asChild_mem_marks c) hinner, ih hnodup.of_append_right hc⟩

end Shape

/-! ## Steps of a builder

A step changes one entry of the arrays and leaves the others. -/

namespace TreeBuilder

open Shape

variable {b b' : TreeBuilder} {n m : NodeId} {i : TokenId} {c c' : Child} {d : NodeData}
  {f : NodeData → NodeData}

@[simp] theorem opened_alter : (b.alter n f).opened = b.opened := rfl

@[simp] theorem tokenParents_alter : (b.alter n f).tokenParents = b.tokenParents := rfl

@[simp] theorem size_alter : (b.alter n f).nodes.size = b.nodes.size := Array.size_setIfInBounds

theorem getElem?_alter : (b.alter n f).nodes[m]? =
    if m = n then (b.nodes[m]?).map f else b.nodes[m]? := by
  rw [alter, Array.getElem?_setIfInBounds]
  by_cases h : n = m
  · subst h
    simp only [if_true]
    by_cases hlt : n < b.nodes.size
    · rw [if_pos hlt, data, Array.getD_eq_getD_getElem?, Array.getElem?_eq_getElem hlt]
      rfl
    · rw [if_neg hlt, Array.getElem?_eq_none (Nat.le_of_not_lt hlt)]
      rfl
  · rw [if_neg h, if_neg fun heq => h heq.symm]

theorem getElem?_alter_self (h : b.nodes[n]? = some d) : (b.alter n f).nodes[n]? = some (f d) := by
  rw [getElem?_alter, if_pos rfl, h, Option.map_some]

theorem getElem?_alter_of_ne (h : m ≠ n) : (b.alter n f).nodes[m]? = b.nodes[m]? := by
  rw [getElem?_alter, if_neg h]

theorem data_eq (h : b.nodes[n]? = some d) : b.data n = d := by
  rw [data, Array.getD_eq_getD_getElem?, h, Option.getD_some]

@[simp] theorem opened_addChild : (b.addChild n c).opened = b.opened := rfl

@[simp] theorem tokenParents_addChild : (b.addChild n c).tokenParents = b.tokenParents := rfl

@[simp] theorem size_addChild : (b.addChild n c).nodes.size = b.nodes.size := size_alter

@[simp] theorem opened_alloc (k : NodeKind) (cs : List Child) : (b.alloc k cs).opened = b.opened :=
  rfl

@[simp] theorem tokenParents_alloc (k : NodeKind) (cs : List Child) :
    (b.alloc k cs).tokenParents = b.tokenParents := rfl

@[simp] theorem size_alloc (k : NodeKind) (cs : List Child) :
    (b.alloc k cs).nodes.size = b.nodes.size + 1 := Array.size_push _

theorem getElem?_alloc_self (k : NodeKind) (cs : List Child) :
    (b.alloc k cs).nodes[b.nodes.size]? = some ⟨k, b.opened.head?, cs, 0, 0⟩ := by
  rw [alloc, Array.getElem?_push, if_pos rfl]

theorem getElem?_alloc_of_lt (k : NodeKind) (cs : List Child) (h : m < b.nodes.size) :
    (b.alloc k cs).nodes[m]? = b.nodes[m]? := by
  rw [alloc, Array.getElem?_push, if_neg (Nat.ne_of_lt h)]

/-! ### Adoption

When a node is begun at a checkpoint, children that hung under another node come to hang under it.
-/

@[simp] theorem opened_adopt : (b.adopt n c).opened = b.opened := by cases c <;> rfl

@[simp] theorem size_adopt : (b.adopt n c).nodes.size = b.nodes.size := by
  cases c with
  | token i => rfl
  | node m => exact size_alter

@[simp] theorem size_tokenParents_adopt :
    (b.adopt n c).tokenParents.size = b.tokenParents.size := by
  cases c with
  | token i => exact Array.size_setIfInBounds
  | node m => rfl

/-- Where a child begins and ends is not a matter of where it hangs. -/
theorem ends_adopt : (b.adopt n c).ends c' = b.ends c' := by
  cases c with
  | token i => cases c' <;> rfl
  | node m =>
    cases c' with
    | token i => rfl
    | node m' =>
      simp only [ends, adopt, data, Array.getD_eq_getD_getElem?, getElem?_alter]
      split
      · cases b.nodes[m']? <;> rfl
      · rfl

/-- Some children come to hang under a node. -/
def adopted (b : TreeBuilder) (n : NodeId) (cs : List Child) : TreeBuilder :=
  cs.foldl (fun b c => b.adopt n c) b

theorem adopted_cons (cs : List Child) : b.adopted n (c :: cs) = (b.adopt n c).adopted n cs := rfl

/-- Adoption and the ends are told apart. -/
theorem adoptAll_eq (b : TreeBuilder) (n : NodeId) (cs : List Child) :
    adoptAll n cs b = (b.adopted n cs, cs.head?.map fun c => (b.ends c).1,
      (cs.getLast?.map fun c => (b.ends c).2).getD 0) := by
  have hfold : ∀ (cs : List Child) (b : TreeBuilder) (first : Option TokenId) (last : TokenId),
      cs.foldl (fun s child => (s.1.adopt n child, s.2.1.or (some (s.1.ends child).1),
          (s.1.ends child).2)) (b, first, last) =
        (b.adopted n cs, first.or (cs.head?.map fun c => (b.ends c).1),
          (cs.getLast?.map fun c => (b.ends c).2).getD last) := by
    intro cs
    induction cs with
    | nil => simp [adopted]
    | cons c cs ih =>
      intro b first last
      rw [List.foldl_cons, ih, adopted_cons]
      cases cs with
      | nil => simp
      | cons c' cs => cases first <;> simp [ends_adopt, List.getLast?_cons]
  exact (hfold cs b none 0).trans (by simp)

section Adopted

variable {cs : List Child}

@[simp] theorem opened_adopted : (b.adopted n cs).opened = b.opened := by
  induction cs generalizing b with
  | nil => rfl
  | cons c cs ih => rw [adopted_cons, ih, opened_adopt]

@[simp] theorem size_adopted :
    (b.adopted n cs).nodes.size = b.nodes.size := by
  induction cs generalizing b with
  | nil => rfl
  | cons c cs ih => rw [adopted_cons, ih, size_adopt]

@[simp] theorem size_tokenParents_adopted :
    (b.adopted n cs).tokenParents.size = b.tokenParents.size := by
  induction cs generalizing b with
  | nil => rfl
  | cons c cs ih => rw [adopted_cons, ih, size_tokenParents_adopt]

/-- The entry of a node, once some children were adopted. -/
theorem getElem?_adopted : (b.adopted n cs).nodes[m]? =
    if .node m ∈ cs then (b.nodes[m]?).map fun d => { d with parent := some n }
    else b.nodes[m]? := by
  induction cs generalizing b with
  | nil => simp [adopted]
  | cons c cs ih =>
    rw [adopted_cons, ih]
    cases c with
    | token i => simp [adopt]
    | node m' =>
      simp only [adopt, getElem?_alter, List.mem_cons, Child.node.injEq]
      by_cases hm : m = m'
      · by_cases hmem : Child.node m ∈ cs <;> simp [hm, Function.comp_def]
      · by_cases hmem : Child.node m ∈ cs <;> simp [hm, hmem]

/-- The entry of a token, once some children were adopted. -/
theorem tokenParents_adopted : (b.adopted n cs).tokenParents[i]? =
    if .token i ∈ cs then (b.tokenParents[i]?).map fun _ => n else b.tokenParents[i]? := by
  induction cs generalizing b with
  | nil => simp [adopted]
  | cons c cs ih =>
    rw [adopted_cons, ih]
    cases c with
    | node m => simp [adopt]
    | token i' =>
      simp only [adopt, Array.getElem?_setIfInBounds, List.mem_cons, Child.token.injEq]
      by_cases hi : i' = i
      · subst hi
        by_cases hlt : i' < b.tokenParents.size <;>
          by_cases hmem : Child.token i' ∈ cs <;> simp [hlt, hmem]
      · have hi' : i ≠ i' := Ne.symm hi
        by_cases hmem : Child.token i ∈ cs <;> simp [hi, hi', hmem]

end Adopted

/-! ### Sizes of the arrays

Every node that is begun takes one number, wherever it stands.  The table of the tokens has its size
from the beginning. -/

@[simp] theorem size_startNode (b : TreeBuilder) (k : NodeKind) :
    (b.startNode k).nodes.size = b.nodes.size + 1 := by
  cases h : b.opened <;> simp [startNode, h]

@[simp] theorem size_startNodeAt (b : TreeBuilder) (cp : Checkpoint) (k : NodeKind) :
    (b.startNodeAt cp k).nodes.size = b.nodes.size + 1 := by
  cases h : b.opened <;> simp [startNodeAt, h]

@[simp] theorem size_startNodeSince (b : TreeBuilder) (since : Option Checkpoint) (k : NodeKind) :
    (b.startNodeSince since k).nodes.size = b.nodes.size + 1 := by
  cases since <;> simp [startNodeSince]

@[simp] theorem tokenParents_startNodeSince (b : TreeBuilder) (since : Option Checkpoint)
    (k : NodeKind) : (b.startNodeSince since k).tokenParents = b.tokenParents := by
  cases since <;> cases h : b.opened <;> simp [startNodeSince, startNode, startNodeAt, h]

@[simp] theorem tokenParents_token (b : TreeBuilder) (i : TokenId) :
    (b.token i).tokenParents = b.tokenParents := by
  cases h : b.opened <;> simp [token, h]

@[simp] theorem size_token (b : TreeBuilder) (i : TokenId) :
    (b.token i).nodes.size = b.nodes.size := by
  cases h : b.opened <;> simp [token, h]

@[simp] theorem size_finishNode (b : TreeBuilder) : b.finishNode.nodes.size = b.nodes.size := by
  cases h : b.opened <;> simp [finishNode, h, adoptAll_eq]

/-! ## The stack of open nodes

What a builder stands for is told by a list of open nodes with the shapes under each.  This is the
invariant that every step keeps, however the arrays came about. -/

/-- What a builder keeps of a node that is ended. -/
def ended (parent : Option NodeId) (kind : NodeKind) (children : List Shape) : NodeData :=
  ⟨kind, parent, children.map asChild, firstOfList children, lastOfList 0 children⟩

/-- The arrays tell of a part what it is and where it hangs. -/
def Tells (b : TreeBuilder) : Option NodeId × Shape → Prop
  | (p, .node n kind children) => b.nodes[n]? = some (ended p kind children)
  | (some p, .token i) => b.tokenParents[i]? = some p
  | (none, .token _) => True

/-- The arrays tell of all that is under a shape, and of the shape itself but for the node that it
hangs under. -/
def Ready (b : TreeBuilder) : Shape → Prop
  | .token _ => True
  | .node n kind children =>
    (∃ p, b.nodes[n]? = some (ended p kind children)) ∧
      ∀ x ∈ partsOfList (some n) children, b.Tells x

/-- A node that is open, with the shapes that stand under it. -/
structure OpenNode where
  id : NodeId
  kind : NodeKind
  children : List Shape

namespace OpenNode

/-- More shapes stand under the node. -/
def add (f : OpenNode) (shapes : List Shape) : OpenNode :=
  { f with children := f.children ++ shapes }

def marks (f : OpenNode) : List Child := .node f.id :: marksOfList f.children

@[simp] theorem add_nil (f : OpenNode) : f.add [] = f := by simp [add]

theorem add_add (f : OpenNode) (x y : List Shape) : (f.add x).add y = f.add (x ++ y) := by
  simp [add]

@[simp] theorem length_add (f : OpenNode) (x : List Shape) :
    (f.add x).children.length = f.children.length + x.length := List.length_append

end OpenNode

/-- The entries of open nodes, the innermost of which has `inner` for its last child: each hangs
under the next one, and what stands under it is ready. -/
def Stacked (b : TreeBuilder) : Option NodeId → List OpenNode → Prop
  | _, [] => True
  | inner, f :: outer =>
    b.nodes[f.id]? = some ⟨f.kind, outer.head?.map OpenNode.id,
      f.children.map asChild ++ inner.toList.map .node, 0, 0⟩ ∧
    (∀ s ∈ f.children, b.Ready s) ∧ b.Stacked (some f.id) outer

/-- A number that was given out, or a token that was passed. -/
def Within (b : TreeBuilder) (passed : Nat) : Child → Prop
  | .node n => n < b.nodes.size
  | .token i => i < passed

/-- **What a builder stands for**, when so many tokens were passed: a stack of open nodes in which
nothing stands twice. -/
structure Represents (b : TreeBuilder) (passed : Nat) (nodes : List OpenNode) : Prop where
  opened_eq : b.opened = nodes.map OpenNode.id
  stacked : b.Stacked none nodes
  nodup : (nodes.flatMap OpenNode.marks).Nodup
  within : ∀ m ∈ nodes.flatMap OpenNode.marks, b.Within passed m
  passed_le : passed ≤ b.tokenParents.size

/-- Two builders keep the same of a child. -/
def Agree (b b' : TreeBuilder) : Child → Prop
  | .node n => b'.nodes[n]? = b.nodes[n]?
  | .token i => b'.tokenParents[i]? = b.tokenParents[i]?

theorem Tells.congr {x : Option NodeId × Shape} (h : b.Tells x) (hagree : Agree b b' x.2.asChild) :
    b'.Tells x := by
  obtain ⟨p, s⟩ := x
  cases s with
  | token i =>
    cases p with
    | none => trivial
    | some p => exact hagree.trans h
  | node n k cs => exact hagree.trans h

theorem Ready.congr {s : Shape} (h : b.Ready s) (hagree : ∀ m ∈ marks s, Agree b b' m) :
    b'.Ready s := by
  cases s with
  | token i => trivial
  | node n k cs =>
    rw [marks_node] at hagree
    obtain ⟨⟨p, hp⟩, hinner⟩ := h
    refine ⟨⟨p, (hagree _ List.mem_cons_self).trans hp⟩, fun x hx => (hinner x hx).congr ?_⟩
    exact hagree _ (List.mem_cons_of_mem _ (mem_marksOfList_of_mem_partsOfList hx))

theorem Stacked.congr {inner : Option NodeId} {nodes : List OpenNode} (h : b.Stacked inner nodes)
    (hagree : ∀ m ∈ nodes.flatMap OpenNode.marks, Agree b b' m) : b'.Stacked inner nodes := by
  induction nodes generalizing inner with
  | nil => trivial
  | cons f outer ih =>
    rw [List.flatMap_cons, OpenNode.marks] at hagree
    obtain ⟨hentry, hready, hrest⟩ := h
    refine ⟨(hagree (.node f.id) (by simp)).trans hentry,
      fun s hs => (hready s hs).congr fun m hm => ?_,
      ih hrest fun m hm => hagree m (List.mem_append_right _ hm)⟩
    have hmarks : m ∈ f.marks := List.mem_cons_of_mem _ (List.mem_flatMap.mpr ⟨s, hs, hm⟩)
    exact hagree m (List.mem_append_left _ hmarks)

/-- A shape is ready when all is told of its parts. -/
theorem ready_of_tells {p : Option NodeId} {s : Shape} (h : ∀ x ∈ parts p s, b.Tells x) :
    b.Ready s := by
  cases s with
  | token i => trivial
  | node n k cs =>
    rw [parts_node] at h
    exact ⟨⟨p, h _ List.mem_cons_self⟩, fun x hx => h x (List.mem_cons_of_mem _ hx)⟩

/-- The ends of a shape that is ready are read off the arrays. -/
theorem Ready.ends_eq {s : Shape} (h : b.Ready s) : b.ends s.asChild = (s.first, s.last) := by
  cases s with
  | token i => rw [asChild, ends, Shape.first, Shape.last]
  | node n k cs =>
    obtain ⟨⟨p, hp⟩, -⟩ := h
    rw [asChild, ends, data_eq hp, Shape.first, Shape.last]
    rfl

/-! ## What the steps do

Each step of the builder is one step on that list. -/

namespace Represents

variable {passed : Nat} {f : OpenNode} {outer : List OpenNode}

/-- The entry of the innermost open node. -/
theorem entry (h : b.Represents passed (f :: outer)) : b.nodes[f.id]? =
    some ⟨f.kind, outer.head?.map OpenNode.id, f.children.map asChild, 0, 0⟩ := by
  have hentry := h.stacked.1
  rwa [Option.toList_none, List.map_nil, List.append_nil] at hentry

/-- What only changes the entry of the innermost open node, and adds others, changes nothing that is
told of the parts. -/
theorem agree_of_top (h : b.Represents passed (f :: outer))
    (hnodes : ∀ n < b.nodes.size, n ≠ f.id → b'.nodes[n]? = b.nodes[n]?)
    (htokens : b'.tokenParents = b.tokenParents) :
    ∀ m ∈ marksOfList f.children ++ outer.flatMap OpenNode.marks, Agree b b' m := by
  have hnodup := h.nodup
  rw [List.flatMap_cons, OpenNode.marks, List.cons_append, List.nodup_cons] at hnodup
  intro m hm
  have hwithin := h.within m (by
    rw [List.flatMap_cons, OpenNode.marks, List.cons_append]
    exact List.mem_cons_of_mem _ hm)
  cases m with
  | token i => rw [Agree, htokens]
  | node n => exact hnodes n hwithin fun heq => hnodup.1 (heq ▸ hm)

/-- The parts of the stack stay as they are while only the innermost entry changes. -/
theorem kept_of_top (h : b.Represents passed (f :: outer))
    (hnodes : ∀ n < b.nodes.size, n ≠ f.id → b'.nodes[n]? = b.nodes[n]?)
    (htokens : b'.tokenParents = b.tokenParents) :
    (∀ s ∈ f.children, b'.Ready s) ∧ b'.Stacked (some f.id) outer := by
  have hagree := h.agree_of_top hnodes htokens
  obtain ⟨-, hready, hrest⟩ := h.stacked
  refine ⟨fun s hs => (hready s hs).congr fun m hm => hagree m ?_,
    Stacked.congr (b := b) ?_ fun m hm => hagree m (List.mem_append_right _ hm)⟩
  · exact List.mem_append_left _ (List.mem_flatMap.mpr ⟨s, hs, hm⟩)
  · exact hrest

/-- The number of the next node is not in use. -/
theorem next_notMem (h : b.Represents passed (f :: outer)) :
    Child.node b.nodes.size ∉ (f :: outer).flatMap OpenNode.marks :=
  fun hmem => Nat.lt_irrefl _ (h.within _ hmem)

theorem id_lt (h : b.Represents passed (f :: outer)) : f.id < b.nodes.size :=
  h.within (.node f.id) (by simp [OpenNode.marks])

/-- A node that is begun and takes in the last ones of the shapes that stand: what that has to do to
the arrays. -/
theorem begun (front : List Shape) {k : NodeKind} (h : b.Represents passed (f.add front :: outer))
    (hopened : b'.opened = b.nodes.size :: b.opened) (hsize : b'.nodes.size = b.nodes.size + 1)
    (htokens : b'.tokenParents = b.tokenParents)
    (hnew : b'.nodes[b.nodes.size]? = some ⟨k, some f.id, front.map asChild, 0, 0⟩)
    (htop : b'.nodes[f.id]? = some ⟨f.kind, outer.head?.map OpenNode.id,
      f.children.map asChild ++ [.node b.nodes.size], 0, 0⟩)
    (hnodes : ∀ n < b.nodes.size, n ≠ f.id → b'.nodes[n]? = b.nodes[n]?) :
    b'.Represents passed (⟨b.nodes.size, k, front⟩ :: f :: outer) := by
  obtain ⟨hready, hrest⟩ := h.kept_of_top hnodes htokens
  -- The new node is the only one that was not there before; the others changed their places.
  have hperm : ((⟨b.nodes.size, k, front⟩ :: f :: outer).flatMap OpenNode.marks).Perm
      (.node b.nodes.size :: (f.add front :: outer).flatMap OpenNode.marks) := by
    refine List.perm_iff_count.mpr fun m => ?_
    simp only [List.flatMap_cons, OpenNode.marks, OpenNode.add, marksOfList_append,
      List.count_append, List.count_cons]
    omega
  refine ⟨?_, ⟨?_, fun s hs => hready s (List.mem_append_right _ hs), htop,
    fun s hs => hready s (List.mem_append_left _ hs), hrest⟩, ?_, fun m hm => ?_,
    htokens ▸ h.passed_le⟩
  · rw [hopened, h.opened_eq]
    rfl
  · rw [hnew, Option.toList_none, List.map_nil, List.append_nil]
    rfl
  · exact hperm.nodup_iff.mpr (List.nodup_cons.mpr ⟨h.next_notMem, h.nodup⟩)
  · rcases List.mem_cons.mp (hperm.mem_iff.mp hm) with rfl | hm
    · exact Nat.lt_of_lt_of_eq (Nat.lt_succ_self _) hsize.symm
    · have hold := h.within m hm
      cases m with
      | token i => exact hold
      | node n => exact Nat.lt_of_lt_of_eq (Nat.lt_succ_of_lt hold) hsize.symm

/-- **A node is begun**: it is open, and nothing stands under it. -/
theorem startNode (h : b.Represents passed (f :: outer)) (k : NodeKind) :
    (b.startNode k).Represents passed (⟨b.nodes.size, k, []⟩ :: f :: outer) := by
  have hopened : b.opened = f.id :: outer.map OpenNode.id := h.opened_eq
  have hnodes : (b.startNode k).nodes =
      ((b.alloc k []).addChild f.id (.node b.nodes.size)).nodes := by
    simp [TreeBuilder.startNode, hopened]
  refine begun [] (by rwa [OpenNode.add_nil]) ?_ ?_ ?_ ?_ ?_ fun n hn hne => ?_
  · simp [TreeBuilder.startNode, hopened]
  · simp [hnodes]
  · simp [TreeBuilder.startNode, hopened]
  · rw [hnodes, addChild, getElem?_alter_of_ne (Nat.ne_of_gt h.id_lt), getElem?_alloc_self, hopened]
    rfl
  · rw [hnodes, addChild,
      getElem?_alter_self ((getElem?_alloc_of_lt k [] h.id_lt).trans h.entry)]
  · rw [hnodes, addChild, getElem?_alter_of_ne hne, getElem?_alloc_of_lt k [] hn]

/-- **A node is begun at a checkpoint**: it takes in the shapes behind it. -/
theorem startNodeAt {front : List Shape} (h : b.Represents passed (f.add front :: outer))
    (k : NodeKind) : (b.startNodeAt f.children.length k).Represents passed
      (⟨b.nodes.size, k, front⟩ :: f :: outer) := by
  have hopened : b.opened = f.id :: outer.map OpenNode.id := h.opened_eq
  have hentry := h.entry
  have hlt : f.id < b.nodes.size := h.id_lt
  have hchildren : (b.data f.id).children = f.children.map asChild ++ front.map asChild := by
    rw [data_eq (n := f.id) hentry]
    exact List.map_append
  have hmoved : (b.data f.id).children.drop f.children.length = front.map asChild := by
    rw [hchildren, List.drop_left' (by simp)]
  -- the entry of the open node keeps the children in front of the checkpoint
  let cut := b.alter f.id fun d => { d with children := d.children.take f.children.length }
  have hcut : cut.nodes[f.id]? =
      some ⟨f.kind, outer.head?.map OpenNode.id, f.children.map asChild, 0, 0⟩ := by
    refine (getElem?_alter_self (n := f.id) hentry).trans ?_
    simp [OpenNode.add, List.take_left']
  have hsize : cut.nodes.size = b.nodes.size := size_alter
  have hnodes : (b.startNodeAt f.children.length k).nodes =
      ((cut.alloc k (front.map asChild)).addChild f.id (.node b.nodes.size)).nodes := by
    simp [TreeBuilder.startNodeAt, hopened, hmoved, cut]
  refine begun front h ?_ ?_ ?_ ?_ ?_ fun n hn hne => ?_
  · simp [TreeBuilder.startNodeAt, hopened]
  · simp [hnodes, hsize]
  · simp [TreeBuilder.startNodeAt, hopened]
  · rw [hnodes, addChild, getElem?_alter_of_ne (Nat.ne_of_gt hlt), ← hsize, getElem?_alloc_self]
    rw [show cut.opened = _ from hopened]
    rfl
  · rw [hnodes, addChild, getElem?_alter_self ((getElem?_alloc_of_lt k _ (hsize ▸ hlt)).trans hcut)]
  · rw [hnodes, addChild, getElem?_alter_of_ne hne, getElem?_alloc_of_lt k _ (hsize ▸ hn),
      getElem?_alter_of_ne hne]

/-- Where a checkpoint is: behind what stands under the open node. -/
theorem checkpoint_eq (h : b.Represents passed (f :: outer)) :
    b.checkpoint = f.children.length := by
  have hopened : b.opened = f.id :: outer.map OpenNode.id := h.opened_eq
  simp [checkpoint, hopened, data_eq h.entry]

/-- **A token is added**: it stands under the open node. -/
theorem token (h : b.Represents passed (f :: outer)) (hlt : passed < b.tokenParents.size) :
    (b.token passed).Represents (passed + 1) (f.add [.token passed] :: outer) := by
  have hopened : b.opened = f.id :: outer.map OpenNode.id := h.opened_eq
  have heq : b.token passed = b.addChild f.id (.token passed) := by
    simp [TreeBuilder.token, hopened]
  rw [heq]
  have hnodes : ∀ n < b.nodes.size, n ≠ f.id →
      (b.addChild f.id (.token passed)).nodes[n]? = b.nodes[n]? :=
    fun n _ hne => getElem?_alter_of_ne hne
  obtain ⟨hready, hrest⟩ := h.kept_of_top hnodes rfl
  have hperm : ((f.add [.token passed] :: outer).flatMap OpenNode.marks).Perm
      (.token passed :: (f :: outer).flatMap OpenNode.marks) := by
    refine List.perm_iff_count.mpr fun m => ?_
    simp only [List.flatMap_cons, OpenNode.marks, OpenNode.add, marksOfList_append,
      marksOfList_cons, marksOfList_nil, marks_token, List.append_nil, List.count_append,
      List.count_cons, List.count_nil]
    omega
  -- No token was passed twice.
  have hfresh : Child.token passed ∉ (f :: outer).flatMap OpenNode.marks :=
    fun hmem => Nat.lt_irrefl _ (h.within _ hmem)
  refine ⟨h.opened_eq, ⟨?_, fun s hs => ?_, hrest⟩, ?_, fun m hm => ?_, hlt⟩
  · refine (getElem?_alter_self h.entry).trans ?_
    simp [OpenNode.add, asChild]
  · rcases List.mem_append.mp hs with hs | hs
    · exact hready s hs
    · obtain rfl := List.mem_singleton.mp hs
      trivial
  · exact hperm.nodup_iff.mpr (List.nodup_cons.mpr ⟨hfresh, h.nodup⟩)
  · rcases List.mem_cons.mp (hperm.mem_iff.mp hm) with rfl | hm
    · exact Nat.lt_succ_self _
    · have hold := h.within m hm
      cases m with
      | token i => exact Nat.lt_succ_of_lt hold
      | node n => exact Nat.lt_of_lt_of_eq hold size_addChild.symm

/-- The step that ends a node, with the ends read off the shapes. -/
theorem finishNode_eq (h : b.Represents passed (f :: outer)) : b.finishNode =
    (adopted { b with opened := outer.map OpenNode.id } f.id (f.children.map asChild)).alter f.id
      fun d =>
        { d with first := firstOfList f.children, last := lastOfList 0 f.children } := by
  have hopened : b.opened = f.id :: outer.map OpenNode.id := h.opened_eq
  have hready : ∀ s ∈ f.children, b.Ready s := h.stacked.2.1
  have hends : ∀ s ∈ f.children,
      ({ b with opened := outer.map OpenNode.id } : TreeBuilder).ends s.asChild =
        (s.first, s.last) := by
    intro s hs
    rw [← (hready s hs).ends_eq]
    cases s <;> rfl
  -- The ends of a node are those of its first and its last child, as the arrays tell them.
  have hlast : (((f.children.map asChild).getLast?).map fun c =>
      (({ b with opened := outer.map OpenNode.id } : TreeBuilder).ends c).2).getD 0 =
        lastOfList 0 f.children := by
    rw [lastOfList_eq, List.getLast?_map, Option.map_map]
    cases hc : f.children.getLast? with
    | none => rfl
    | some s =>
      have hs := hends s (List.mem_of_getLast? hc)
      simp [hs]
  have hfirst : (((f.children.map asChild).head?).map fun c =>
      (({ b with opened := outer.map OpenNode.id } : TreeBuilder).ends c).1).getD
        (lastOfList 0 f.children) = firstOfList f.children := by
    cases hc : f.children with
    | nil => simp [firstOfList, lastOfList]
    | cons s ss =>
      have hs := hends s (hc ▸ List.mem_cons_self)
      simp [hs, firstOfList]
  simp only [TreeBuilder.finishNode, hopened, adoptAll_eq, data_eq h.entry, hlast, hfirst]

/-- Nothing stands twice in the node that is open and in what is around it. -/
theorem nodup_top (h : b.Represents passed (f :: outer)) :
    Child.node f.id ∉ marksOfList f.children ∧
      Child.node f.id ∉ outer.flatMap OpenNode.marks ∧ (marksOfList f.children).Nodup ∧
      (marksOfList f.children).Disjoint (outer.flatMap OpenNode.marks) := by
  have hnodup := h.nodup
  rw [List.flatMap_cons, OpenNode.marks, List.cons_append, List.nodup_cons, List.mem_append,
    not_or] at hnodup
  obtain ⟨⟨hself, houter⟩, hrest⟩ := hnodup
  exact ⟨hself, houter, hrest.of_append_left, List.disjoint_of_nodup_append hrest⟩

/-- When a node is ended, only its own entry and those of its children change. -/
theorem agree_finishNode (h : b.Represents passed (f :: outer)) {m : Child}
    (hne : m ≠ .node f.id) (hm : m ∉ f.children.map asChild) : Agree b b.finishNode m := by
  rw [h.finishNode_eq]
  cases m with
  | node n =>
    refine (getElem?_alter_of_ne fun heq => hne (congrArg Child.node heq)).trans ?_
    rw [getElem?_adopted, if_neg hm]
  | token i => exact tokenParents_adopted.trans (if_neg hm)

/-- What is told of the children of a node that was ended. -/
theorem tells_child_finishNode (h : b.Represents passed (f :: outer)) {s : Shape}
    (hs : s ∈ f.children) : b.finishNode.Tells (some f.id, s) := by
  have hmem : s.asChild ∈ f.children.map asChild := List.mem_map_of_mem hs
  have hmarks : s.asChild ∈ marksOfList f.children := map_asChild_subset_marksOfList _ hmem
  rw [h.finishNode_eq]
  cases s with
  | token i =>
    have hlt : i < b.tokenParents.size := by
      refine Nat.lt_of_lt_of_le (h.within (.token i) ?_) h.passed_le
      exact List.mem_append_left _ (List.mem_cons_of_mem _ hmarks)
    refine tokenParents_adopted.trans ((if_pos hmem).trans ?_)
    rw [Array.getElem?_eq_getElem hlt]
    rfl
  | node n k cs =>
    obtain ⟨⟨p, hp⟩, -⟩ := h.stacked.2.1 _ hs
    have hne : n ≠ f.id := fun heq => h.nodup_top.1 (heq ▸ hmarks)
    refine (getElem?_alter_of_ne hne).trans (getElem?_adopted.trans ((if_pos hmem).trans ?_))
    exact congrArg (Option.map fun d : NodeData => { d with parent := some f.id }) hp

/-- **A node is ended**: all is told of it and of what is under it. -/
theorem tells_finishNode (h : b.Represents passed (f :: outer)) :
    ∀ x ∈ parts (outer.head?.map OpenNode.id) (.node f.id f.kind f.children),
      b.finishNode.Tells x := by
  obtain ⟨hself, -, hnodup, -⟩ := h.nodup_top
  intro x hx
  rw [parts_node, List.mem_cons] at hx
  rcases hx with rfl | hx
  · -- the node itself, which is none of its children
    rw [h.finishNode_eq]
    refine (getElem?_alter_self (d := ⟨f.kind, outer.head?.map OpenNode.id,
      f.children.map asChild, 0, 0⟩) ?_).trans rfl
    rw [getElem?_adopted, if_neg fun hmem => hself (map_asChild_subset_marksOfList _ hmem)]
    exact h.entry
  obtain ⟨s, hs, hx⟩ := mem_partsOfList_iff.mp hx
  cases s with
  | token i =>
    obtain rfl := List.mem_singleton.mp (parts_token _ i ▸ hx)
    exact h.tells_child_finishNode hs
  | node n k cs =>
    rw [parts_node, List.mem_cons] at hx
    rcases hx with rfl | hx
    · exact h.tells_child_finishNode hs
    -- what lies deeper was told before
    have hinner := mem_marksOfList_of_mem_partsOfList hx
    obtain ⟨-, hready⟩ := h.stacked.2.1 _ hs
    refine (hready x hx).congr (h.agree_finishNode (fun heq => hself ?_)
      (notMem_map_asChild_of_inner hnodup hs hinner))
    exact heq ▸ List.mem_flatMap.mpr ⟨_, hs, by simp [hinner]⟩

/-- The nodes around a node that is ended stay as they are. -/
theorem stacked_finishNode (h : b.Represents passed (f :: outer)) :
    b.finishNode.Stacked (some f.id) outer := by
  obtain ⟨-, houter, -, hdisjoint⟩ := h.nodup_top
  refine Stacked.congr (b := b) h.stacked.2.2 fun m hm => h.agree_finishNode ?_ fun hmem => ?_
  · exact fun heq => houter (heq ▸ hm)
  · exact hdisjoint (map_asChild_subset_marksOfList _ hmem) hm

theorem sizes_finishNode (h : b.Represents passed (f :: outer)) :
    b.finishNode.opened = outer.map OpenNode.id ∧
      b.finishNode.nodes.size = b.nodes.size ∧
      b.finishNode.tokenParents.size = b.tokenParents.size := by
  rw [h.finishNode_eq]
  exact ⟨by simp, by simp, by simp⟩

/-- **A node is ended** under another one: it stands there as a shape. -/
theorem finishNode {g : OpenNode} (h : b.Represents passed (g :: f :: outer)) :
    b.finishNode.Represents passed (f.add [.node g.id g.kind g.children] :: outer) := by
  obtain ⟨hopened, hsize, hparents⟩ := h.sizes_finishNode
  obtain ⟨hentry, hready, hrest⟩ := h.stacked_finishNode
  have hperm : ((f.add [.node g.id g.kind g.children] :: outer).flatMap OpenNode.marks).Perm
      ((g :: f :: outer).flatMap OpenNode.marks) := by
    refine List.perm_iff_count.mpr fun m => ?_
    simp only [List.flatMap_cons, OpenNode.marks, OpenNode.add, marksOfList_append,
      marksOfList_cons, marksOfList_nil, marks_node, List.append_nil, List.count_append, List.count_cons]
    omega
  refine ⟨hopened, ⟨?_, fun s hs => ?_, hrest⟩, hperm.nodup_iff.mpr h.nodup, fun m hm => ?_,
    hparents ▸ h.passed_le⟩
  · refine hentry.trans ?_
    simp [OpenNode.add, asChild]
  · rcases List.mem_append.mp hs with hs | hs
    · exact hready s hs
    · obtain rfl := List.mem_singleton.mp hs
      exact ready_of_tells h.tells_finishNode
  · have hold := h.within m (hperm.mem_iff.mp hm)
    cases m with
    | token i => exact hold
    | node n => exact Nat.lt_of_lt_of_eq hold hsize.symm

end Represents

/-- **The first node** of a tree. -/
theorem represents_first (count : Nat) (k : NodeKind) :
    ((ofTokens count).startNode k).Represents 0 [⟨0, k, []⟩] := by
  refine ⟨rfl, ⟨rfl, by simp, trivial⟩, by simp [OpenNode.marks], fun m hm => ?_, Nat.zero_le _⟩
  obtain rfl : m = .node 0 := by simpa [OpenNode.marks] using hm
  exact Nat.zero_lt_one

end TreeBuilder

/-! ## The layout of a tree

When the last node is ended there is one shape left, and the arrays tell of all its parts. -/

namespace Tree

open Shape

/-- What a tree keeps of a node. -/
def dataOf (parent : Option NodeId) (kind : NodeKind) (children : List Shape) : NodeData where
  kind := kind
  parent := parent
  children := children.map Shape.asChild
  first := ((leavesOfList children).head?).getD 0
  last := ((leavesOfList children).getLast?).getD 0

/-- The tree is laid out as a shape: the arrays tell of every part, and every entry of them is of a
part. -/
structure Laid (t : Tree) (s : Shape) : Prop where
  data_eq : ∀ {p id k cs}, (p, .node id k cs) ∈ s.parts none → t.data id = dataOf p k cs
  tokenParent_eq : ∀ {p i}, (some p, .token i) ∈ s.parts none → t.tokenParent i = p
  lt_nodeCount : ∀ {p id k cs}, (p, .node id k cs) ∈ s.parts none → id < t.nodeCount
  lt_size : ∀ {p i}, (p, .token i) ∈ s.parts none → i < t.tokens.size
  exists_node : ∀ {id}, id < t.nodeCount → ∃ p k cs, (p, .node id k cs) ∈ s.parts none
  exists_token : ∀ {i}, i < t.tokens.size → ∃ p, (p, .token i) ∈ s.parts none

/-- **A tree whose arrays tell of all parts of a shape is laid out as the shape**, when the leaves
are the tokens and the nodes bear the numbers of the entries. -/
theorem laid_of_tells {b : TreeBuilder} {source : String} {tokens : Array Token} {s : Shape}
    (htells : ∀ x ∈ s.parts none, b.Tells x) (hleaves : s.leaves = List.range tokens.size)
    (hids : s.ids.Perm (List.range b.nodes.size))
    (hends : ∀ {p id k cs}, (p, .node id k cs) ∈ s.parts none →
      firstOfList cs = ((leavesOfList cs).head?).getD 0 ∧
        lastOfList 0 cs = ((leavesOfList cs).getLast?).getD 0) :
    Laid ⟨source, tokens, b.nodes, b.tokenParents⟩ s := by
  refine ⟨fun {p id k cs} h => ?_, fun {p i} h => ?_, fun h => ?_, fun h => ?_, fun {id} h => ?_,
    fun {i} h => ?_⟩
  · have hentry : b.nodes[id]? = some (TreeBuilder.ended p k cs) := htells _ h
    obtain ⟨hfirst, hlast⟩ := hends h
    rw [data, Array.getD_eq_getD_getElem?, hentry, Option.getD_some, TreeBuilder.ended, hfirst,
      hlast]
    rfl
  · have hentry : b.tokenParents[i]? = some p := htells _ h
    rw [tokenParent, Array.getD_eq_getD_getElem?, hentry, Option.getD_some]
  · exact List.mem_range.mp (hids.mem_iff.mp (mem_ids_of_mem_parts h))
  · exact List.mem_range.mp (hleaves ▸ mem_leaves_of_mem_parts h)
  -- Every number was given out, so it is that of a part.
  · have hmem := hids.mem_iff.mpr (List.mem_range.mpr h)
    rw [← filterMap_nodeOf?_parts none] at hmem
    obtain ⟨⟨p, c⟩, hc, hid⟩ := List.mem_filterMap.mp hmem
    cases c with
    | token i => cases hid
    | node id' k cs =>
      cases hid
      exact ⟨p, k, cs, hc⟩
  · have hmem : i ∈ s.leaves := hleaves ▸ List.mem_range.mpr h
    rw [← filterMap_tokenOf?_parts none] at hmem
    obtain ⟨⟨p, c⟩, hc, hi⟩ := List.mem_filterMap.mp hmem
    cases c with
    | token i' =>
      cases hi
      exact ⟨p, hc⟩
    | node id k cs => cases hi

/-- The numbers of a shape are those of entries. -/
theorem Laid.lt_nodeCount_of_mem_ids {t : Tree} {s : Shape} {n : NodeId} (hl : Laid t s)
    (hn : n ∈ s.ids) : n < t.nodeCount := by
  rw [← filterMap_nodeOf?_parts none] at hn
  obtain ⟨⟨p, c⟩, hc, hid⟩ := List.mem_filterMap.mp hn
  cases c with
  | token i => cases hid
  | node id k cs =>
    cases hid
    exact hl.lt_nodeCount hc

end Tree

end CodeMend
