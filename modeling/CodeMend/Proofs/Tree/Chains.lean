import CodeMend.Proofs.Tree.Order
import CodeMend.Tree.Navigate

/-!
# CodeMend — the nodes above and under a node

A tree lists the nodes under a node and the nodes above it, and goes down to the node that covers a
span, each within a bound on the number of steps.  In a parsed tree no bound is ever reached.

* **`Rises`** — the nodes from a node up to another one, the nearest first.
* **`Rises.length_lt`** — they are fewer than the nodes of the tree.
* **`exists_rises_root`** — from every node, nodes lead up to the root.
* **`Rises.mem_descendants`**, **`mem_descendants_root`** — a node under another one is listed among
  its descendants, and all but the root are under the root.
* **`Rises.ancestors_eq`** — the nodes that lead up from a node begin the list of those above it.
* **`Rises.coveringFrom_eq`** — the way down passes through all nodes of which no sibling covers
  the span.
-/

namespace CodeMend.Tree

open Shape

variable {t : Tree} {a c n p : NodeId} {ns : List NodeId}

theorem mem_childNodes_iff : c ∈ t.childNodes n ↔ .node c ∈ t.children n := by
  constructor
  · intro hc
    obtain ⟨d, hd, hnode⟩ := List.mem_filterMap.mp hc
    cases d with
    | token i => cases hnode
    | node m => exact Option.some.inj hnode ▸ hd
  · exact fun hc => List.mem_filterMap.mpr ⟨_, hc, rfl⟩

theorem WellFormed.parent?_eq (h : t.WellFormed) (hc : c ∈ t.childNodes n) :
    t.parent? c = some n := by
  obtain ⟨hn, hlt, hmem⟩ := h.lt_of_mem hc
  obtain ⟨p, hp, hparent, hcount⟩ := h.parent c hlt fun heq => h.root_notMem n hn (heq ▸ hmem)
  have hone := hcount n hn
  by_cases hnp : n = p
  · rw [hparent, hnp]
  · rw [if_neg hnp, List.count_eq_zero] at hone
    exact absurd hmem hone

/-- The node that a node names as its parent lists it. -/
theorem WellFormed.mem_childNodes_of_parent? (h : t.WellFormed) (hp : t.parent? c = some p) :
    c ∈ t.childNodes p := by
  have hc : c < t.nodeCount := by
    by_contra hc
    rw [parent?, data_eq_default (Nat.le_of_not_lt hc)] at hp
    cases hp
  have hroot : c ≠ root := by
    rintro rfl
    rw [h.root_parent] at hp
    cases hp
  obtain ⟨q, hq, hparent, hcount⟩ := h.parent c hc hroot
  obtain rfl : p = q := Option.some.inj (hp.symm.trans hparent)
  have hone := hcount p hq
  rw [if_pos rfl] at hone
  exact mem_childNodes_iff.mpr (List.count_pos_iff.mp (by omega))

/-! ## Children of a kind

A child of a kind is found by a search through the list of children. -/

theorem mem_childNodes_of_mem_childrenOfKind {k : NodeKind}
    (h : c ∈ t.childrenOfKind n k) : c ∈ t.childNodes n :=
  (List.mem_filter.mp h).1

theorem kind_of_mem_childrenOfKind {k : NodeKind}
    (h : c ∈ t.childrenOfKind n k) : t.kind c = k := by
  simpa using (List.mem_filter.mp h).2

theorem mem_childNodes_of_childOfKind? {k : NodeKind}
    (h : t.childOfKind? n k = some c) : c ∈ t.childNodes n :=
  List.mem_of_find?_eq_some h

theorem kind_of_childOfKind? {k : NodeKind}
    (h : t.childOfKind? n k = some c) : t.kind c = k := by
  simpa using List.find?_some h

/-! ## From a node upwards

Chains of parents are stated as a relation with the nodes in between, so that two chains can be put
together and compared. -/

/-- The nodes from one that lists the first node up to the last one: each is listed by the next. -/
inductive Rises (t : Tree) : NodeId → List NodeId → NodeId → Prop where
  | here (n : NodeId) : Rises t n [] n
  | up {c p : NodeId} {ns : List NodeId} {a : NodeId} (hc : c ∈ t.childNodes p)
      (h : Rises t p ns a) : Rises t c (p :: ns) a

namespace Rises

theorem append {b : NodeId} {ms : List NodeId} (h : Rises t n ns a) (hb : Rises t a ms b) :
    Rises t n (ns ++ ms) b := by
  induction h with
  | here => exact hb
  | up hc _ ih => exact .up hc (ih hb)

/-- A node that others lead up to from a node of the tree is in the tree. -/
theorem lt_nodeCount (h : Rises t n ns a) (hn : n < t.nodeCount) (hp : t.WellFormed) :
    a < t.nodeCount := by
  induction h with
  | here => exact hn
  | up hc _ ih => exact ih (hp.lt_of_mem hc).1

/-- Every node on the way up is the root of a larger shape. -/
theorem exists_stands (h : Rises t n ns a) {k : NodeKind} {cs : List Shape}
    (hs : Stands t (.node a k cs)) : ∃ k' ds, Stands t (.node n k' ds) ∧
      (Shape.node n k' ds).size + ns.length ≤ (Shape.node a k cs).size := by
  induction h with
  | here => exact ⟨k, cs, hs, Nat.le_refl _⟩
  | up hc _ ih =>
    obtain ⟨k', ds, hp, hle⟩ := ih hs
    obtain ⟨k'', es, hc, hlt⟩ := hp.child hc
    exact ⟨k'', es, hc, by rw [List.length_cons]; omega⟩

/-- **No way up is longer than the tree has nodes.** -/
theorem length_lt (h : Rises t n ns a) (hp : Parsed t) : ns.length < t.nodeCount := by
  by_cases hn : n < t.nodeCount
  · obtain ⟨cs, hs, hsize⟩ := hp.stands a (h.lt_nodeCount hn hp.wellFormed)
    obtain ⟨k, ds, -, hle⟩ := h.exists_stands hs
    have hpos : 0 < (Shape.node n k ds).size := by
      rw [size, ids_node]
      exact Nat.succ_pos _
    omega
  · cases h with
    | here => exact Nat.lt_of_le_of_lt (Nat.zero_le _) hp.wellFormed.root_lt
    | up hc _ => exact absurd (hp.wellFormed.lt_of_mem hc).2.1 hn

/-- **No way up comes back to its start.** -/
theorem eq_nil (h : Rises t n ns n) (hp : Parsed t) : ns = [] := by
  have hrepeat : ∀ k : Nat, ∃ ms, Rises t n ms n ∧ ms.length = k * ns.length := by
    intro k
    induction k with
    | zero => exact ⟨[], .here n, by simp⟩
    | succ k ih =>
      obtain ⟨ms, hms, hlength⟩ := ih
      refine ⟨ms ++ ns, hms.append h, ?_⟩
      rw [List.length_append, hlength, Nat.succ_mul]
  obtain ⟨ms, hms, hlength⟩ := hrepeat t.nodeCount
  have hlt : t.nodeCount * ns.length < t.nodeCount := hlength ▸ hms.length_lt hp
  by_contra hne
  have hpos : 0 < ns.length := List.length_pos_iff.mpr hne
  exact absurd (Nat.le_mul_of_pos_right t.nodeCount hpos) (Nat.not_le.mpr hlt)

end Rises

/-- **From every node, nodes lead up to the root.** -/
theorem Parsed.exists_rises_root (hp : Parsed t) (hn : n < t.nodeCount) :
    ∃ ns, Rises t n ns root := by
  -- a way that does not end at the root can be made longer, but not for ever
  have hextend : ∀ k ms m, Rises t n ms m → t.nodeCount - ms.length ≤ k →
      ∃ ns, Rises t n ns root := by
    intro k
    induction k with
    | zero =>
      intro ms m h hk
      have hlt := h.length_lt hp
      omega
    | succ k ih =>
      intro ms m h hk
      by_cases hroot : m = root
      · exact ⟨ms, hroot ▸ h⟩
      have hm := h.lt_nodeCount hn hp.wellFormed
      obtain ⟨q, -, hq, -⟩ := hp.wellFormed.parent m hm hroot
      have hmem := hp.wellFormed.mem_childNodes_of_parent? hq
      refine ih (ms ++ [q]) q (h.append (.up hmem (.here q))) ?_
      rw [List.length_append, List.length_singleton]
      omega
  exact hextend _ [] n (.here n) (Nat.le_refl _)

/-! ## The nodes above a node

Following the parents of a node gives the nodes of such a chain. -/

namespace Rises

theorem ancestorsFrom_eq (h : Rises t n ns a) (ht : t.WellFormed) {fuel : Nat}
    (hfuel : ns.length ≤ fuel) :
    t.ancestorsFrom fuel n = ns ++ t.ancestorsFrom (fuel - ns.length) a := by
  induction h generalizing fuel with
  | here => simp
  | @up c p ns a hc _ ih =>
    cases fuel with
    | zero => cases hfuel
    | succ fuel =>
      have hle : ns.length ≤ fuel := Nat.le_of_succ_le_succ hfuel
      rw [ancestorsFrom, ht.parent?_eq hc]
      simp only [ih hle, List.cons_append, List.length_cons, Nat.succ_sub_succ]

/-- **The nodes that lead up from a node are the first of those above it.** -/
theorem ancestors_eq (h : Rises t n ns a) (hp : Parsed t) :
    ∃ rest, t.ancestors n = ns ++ rest :=
  ⟨_, h.ancestorsFrom_eq hp.wellFormed (Nat.le_of_lt (h.length_lt hp))⟩

end Rises

/-- A node above another one is led up to from it. -/
theorem WellFormed.exists_rises_of_mem (ht : t.WellFormed) {fuel : Nat}
    (ha : a ∈ n :: t.ancestorsFrom fuel n) : ∃ ns, Rises t n ns a := by
  induction fuel generalizing n with
  | zero =>
    obtain rfl := List.mem_singleton.mp ha
    exact ⟨[], .here a⟩
  | succ fuel ih =>
    rcases List.mem_cons.mp ha with rfl | ha
    · exact ⟨[], .here a⟩
    rw [ancestorsFrom] at ha
    split at ha
    next p hp =>
      obtain ⟨ns, hrises⟩ := ih ha
      exact ⟨p :: ns, .up (ht.mem_childNodes_of_parent? hp) hrises⟩
    next => cases ha

/-- Of two nodes above one node, one is above the other. -/
theorem Rises.total {b : NodeId} {ms : List NodeId} (ht : t.WellFormed) (ha : Rises t n ns a)
    (hb : Rises t n ms b) : (∃ ks, Rises t a ks b) ∨ ∃ ks, Rises t b ks a := by
  induction ha generalizing ms with
  | here => exact .inl ⟨ms, hb⟩
  | @up c p ns a hc ha ih =>
    cases hb with
    | here => exact .inr ⟨p :: ns, .up hc ha⟩
    | up hc' hb =>
      obtain rfl := ht.parent_unique hc hc'
      exact ih hb

/-- A node that leads up to another one is that node, or leads up to a child of it. -/
theorem Rises.eq_or_child (h : Rises t n ns a) :
    n = a ∨ ∃ c ∈ t.childNodes a, ∃ ms, Rises t n ms c := by
  induction h with
  | here => exact .inl rfl
  | @up c p ns a hc _ ih =>
    rcases ih with rfl | ⟨d, hd, ms, hrises⟩
    · exact .inr ⟨c, hc, [], .here c⟩
    · exact .inr ⟨d, hd, p :: ms, .up hc hrises⟩

/-! ## The nodes under a node

The descendants of a node are computed with a stack of nodes that are left to visit.  It is shown to
list the nodes of the shapes, in their order. -/

/-- With enough fuel, the nodes of some shapes are listed in the order of the shapes. -/
theorem preorder_eq {fuel : Nat} {ss : List Shape} (hs : ∀ s ∈ ss, Stands t s)
    (hfuel : (idsOfList ss).length ≤ fuel) :
    t.preorder fuel ((ss.map asChild).filterMap Child.node?) = idsOfList ss := by
  -- One node uses one unit of fuel; tokens use none.
  induction fuel generalizing ss with
  | zero =>
    have hnil := List.length_eq_zero_iff.mp (Nat.le_zero.mp hfuel)
    rw [preorder, hnil]
  | succ fuel ih =>
    induction ss with
    | nil => rw [idsOfList_nil, List.map_nil, List.filterMap_nil, preorder]
    | cons s ss ihs =>
      rw [idsOfList_cons] at hfuel
      obtain ⟨hs, hss⟩ := List.forall_mem_cons.mp hs
      cases hs with
      | token i =>
        rw [ids_token, List.nil_append] at hfuel
        rw [idsOfList_cons, ids_token, List.nil_append]
        exact ihs hss hfuel
      | @node id k cs _ _ hchildren _ hall =>
        have hmore := @ih (cs ++ ss) (List.forall_mem_append.mpr ⟨hall, hss⟩)
        rw [ids_node, List.cons_append, List.length_cons, Nat.add_le_add_iff_right] at hfuel
        rw [idsOfList_append, List.map_append, List.filterMap_append, ← hchildren] at hmore
        rw [idsOfList_cons, ids_node, List.cons_append, ← hmore hfuel]
        rfl

/-- The descendants of a node are the nodes of the shapes under it. -/
theorem Stands.descendants_eq {k : NodeKind} {cs : List Shape} (hs : Stands t (.node n k cs))
    (hsize : (idsOfList cs).length ≤ t.nodeCount) : t.descendants n = idsOfList cs := by
  cases hs with
  | node _ _ hchildren _ hall =>
    rw [descendants, childNodes, hchildren]
    exact preorder_eq hall hsize

theorem Parsed.exists_descendants (hp : Parsed t) (hn : n < t.nodeCount) :
    ∃ cs, Stands t (.node n (t.kind n) cs) ∧ t.descendants n = idsOfList cs := by
  obtain ⟨cs, hs, hsize⟩ := hp.stands n hn
  rw [size_eq_length_ids, ids_node, List.length_cons] at hsize
  exact ⟨cs, hs, hs.descendants_eq (Nat.le_of_succ_le hsize)⟩

theorem mem_idsOfList_iff {ss : List Shape} : n ∈ idsOfList ss ↔ ∃ s ∈ ss, n ∈ s.ids := by
  induction ss with
  | nil => simp
  | cons s ss ih => simp [ih]

/-- A shape that stands in a tree has, with a node, all nodes that this one lists. -/
theorem Stands.mem_ids {s : Shape} (hs : Stands t s) (hn : n ∈ s.ids) (hc : c ∈ t.childNodes n) :
    c ∈ s.ids := by
  induction hs with
  | token i => simp at hn
  | @node id k cs _ _ hchildren _ hall ih =>
    rw [ids_node, List.mem_cons] at hn
    rw [ids_node]
    refine List.mem_cons_of_mem _ ?_
    rcases hn with rfl | hn
    · rw [childNodes, hchildren, List.filterMap_map] at hc
      obtain ⟨s, hs, hnode⟩ := List.mem_filterMap.mp hc
      cases s with
      | token i => cases hnode
      | node id' k' cs' =>
        cases hnode
        exact (ids_infix_of_mem hs).subset (by simp)
    · obtain ⟨s, hs, hn⟩ := mem_idsOfList_iff.mp hn
      exact mem_idsOfList_iff.mpr ⟨s, hs, ih s hs hn⟩

/-- **The descendants of a node are all nodes under it.** -/
theorem Rises.mem_descendants (h : Rises t n ns a) (hp : Parsed t) (ha : a < t.nodeCount)
    (hne : n ≠ a) : n ∈ t.descendants a := by
  obtain ⟨cs, hs, hdescendants⟩ := hp.exists_descendants ha
  have hmem : n ∈ (Shape.node a (t.kind a) cs).ids := by
    clear hdescendants hne
    induction h with
    | here => simp
    | up hc _ ih => exact hs.mem_ids (ih ha hs) hc
  rw [ids_node] at hmem
  rw [hdescendants]
  exact (List.mem_cons.mp hmem).resolve_left hne

theorem kind_root_of_parse {source : String} (h : parse source = .ok t) :
    t.kind root = .compilationUnit := by
  obtain ⟨tokens, s, b, -, -, hw, rfl, hl⟩ := Grammar.exists_whole_of_parse h
  obtain ⟨members, hroot⟩ := hw.root
  have hself : (none, .node root .compilationUnit
      (members ++ [.token (tokens.toArray.size - 1)])) ∈ s.parts none :=
    hroot ▸ mem_parts_self none s
  rw [kind, hl.data_eq hself]
  rfl

/-- Only the number of the root, or of no node, seems to be that of a whole file. -/
theorem lt_nodeCount_of_kind (hk : t.kind n ≠ .compilationUnit) : n < t.nodeCount := by
  by_contra hn
  rw [kind, data_eq_default (Nat.le_of_not_lt hn)] at hk
  exact hk rfl

/-- **All nodes but the root are listed under it.** -/
theorem mem_descendants_root {source : String} (h : parse source = .ok t)
    (hk : t.kind n ≠ .compilationUnit) : n ∈ t.descendants root := by
  have hp := parsed_of_parse h
  obtain ⟨ns, hrises⟩ := hp.exists_rises_root (lt_nodeCount_of_kind hk)
  refine hrises.mem_descendants hp hp.wellFormed.root_lt ?_
  rintro rfl
  exact hk (kind_root_of_parse h)

/-! ## The way down to a span

The search goes down into a child that covers the span for as long as there is one. -/

/-- Some way down from a node passes through all nodes of which no sibling covers the span. -/
theorem Rises.coveringFrom_eq {span : Span} (h : Rises t n ns a) {fuel : Nat}
    (hfuel : ns.length ≤ fuel)
    (hfind : ∀ c p, c ∈ n :: ns → c ∈ t.childNodes p →
      (t.childNodes p).find? (fun d => (t.span d).contains span) = some c) :
    t.coveringFrom span fuel a = t.coveringFrom span (fuel - ns.length) n := by
  induction h generalizing fuel with
  | here => rfl
  | @up c p ns a hc _ ih =>
    have hlt : ns.length < fuel := hfuel
    have hrest := ih (Nat.le_of_lt hlt) fun d q hd => hfind d q (List.mem_cons_of_mem _ hd)
    obtain ⟨m, hm⟩ : ∃ m, fuel - ns.length = m + 1 := ⟨fuel - ns.length - 1, by omega⟩
    have hm' : fuel - (p :: ns).length = m := by
      rw [List.length_cons]
      omega
    rw [hrest, hm, hm', coveringFrom, hfind c p List.mem_cons_self hc]

end CodeMend.Tree
