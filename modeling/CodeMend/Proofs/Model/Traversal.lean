import CodeMend.Proofs.Model.Registered

/-!
# CodeMend — the walk through the nodes under a node

The nodes under a node are visited with a stack: the top is taken and its children are put in its
place, the first one on top.  This is the recursive walk, which goes through the children one after
the other and from each one, when it was visited, through the nodes under it.  So a node is visited
before those under it, and the first pass over a solution, which registers types in this order,
comes to the declaration of a type when all that stand around it are registered.

* **`Tree.StackWalk`**, **`Tree.stackWalk_descendants`** — the walk with the stack comes to its end.
* **`Tree.descendants_eq_flatMap`**, **`Tree.eq_descendants`** — it is the one recursive walk.
* **`Tree.InOrder.mem_descendants_iff`** — it visits what stands under the node.
* **`Tree.InOrder.siblings_ordered`** — nodes beside each other are visited in source order.
* **`Tree.descendants_are_in_preorder`** — all of this in one.
-/

namespace CodeMend

namespace Tree

open Shape

variable {t : Tree} {n m a b c : NodeId} {ns ms stack : List NodeId} {cs : List Shape} {fuel : Nat}

/-! ## The stack

The code keeps the nodes still to be visited on a stack.  The relation is that walk without the
bound, and it has only one course. -/

/-- The walk with a stack, the top of which is its last node, visits the nodes of a list and comes
to its end.  In the place of a node that is taken from the stack its children are put, the last one
first. -/
inductive StackWalk (t : Tree) : List NodeId → List NodeId → Prop where
  | done : StackWalk t [] []
  | visit {stack ns : List NodeId} {n : NodeId}
      (h : StackWalk t (stack ++ (t.childNodes n).reverse) ns) :
      StackWalk t (stack ++ [n]) (n :: ns)

theorem stackWalk_concat_iff : StackWalk t (stack ++ [n]) ns ↔
    ∃ ms, ns = n :: ms ∧ StackWalk t (stack ++ (t.childNodes n).reverse) ms := by
  constructor
  · intro h
    generalize hstack : stack ++ [n] = stack' at h
    cases h with
    | done => simp at hstack
    | visit h =>
      obtain ⟨rfl, hn⟩ := List.append_inj' hstack rfl
      obtain rfl := List.singleton_inj.mp hn
      exact ⟨_, rfl, h⟩
  · rintro ⟨ms, rfl, h⟩
    exact .visit h

/-- The walk has one course only. -/
theorem StackWalk.unique (h : StackWalk t stack ns) (h' : StackWalk t stack ms) : ms = ns := by
  induction h generalizing ms with
  | done =>
    generalize hstack : [] = stack' at h'
    cases h' with
    | done => rfl
    | visit => simp at hstack
  | visit _ ih =>
    obtain ⟨ms, rfl, hrest⟩ := stackWalk_concat_iff.mp h'
    rw [ih hrest]

/-- A walk that does not use up its fuel is that of the stack. -/
theorem stackWalk_preorder (h : (t.preorder fuel ns).length < fuel) :
    StackWalk t ns.reverse (t.preorder fuel ns) := by
  -- on the fuel; the list that the recursion goes through is the stack, read from the top
  induction fuel generalizing ns with
  | zero => cases h
  | succ fuel ih =>
    cases ns with
    | nil => exact .done
    | cons n ns =>
      rw [preorder, List.length_cons, Nat.add_lt_add_iff_right] at h
      have hrest := ih h
      rw [List.reverse_append] at hrest
      rw [preorder, List.reverse_cons]
      exact .visit hrest

/-- **The walk with the stack comes to its end, and visits the descendants.** -/
theorem stackWalk_descendants (hp : Parsed t) (hn : n < t.nodeCount) :
    StackWalk t (t.childNodes n).reverse (t.descendants n) := by
  obtain ⟨cs, hs, hsize⟩ := hp.stands n hn
  rw [size_eq_length_ids, ids_node, List.length_cons] at hsize
  refine stackWalk_preorder ?_
  -- the fuel is the number of nodes in the tree, and the node itself is none of its descendants
  change (t.descendants n).length < t.nodeCount
  rw [hs.descendants_eq (Nat.le_of_succ_le hsize)]
  exact hsize

/-! ## The recursion

The recursive walk is a node and then the walks of its children.  There is one function that
satisfies this equation, and the walk with the stack computes it. -/

/-- The nodes of some shapes, by those under each of them. -/
theorem idsOfList_eq_flatMap {f : NodeId → List NodeId}
    (hf : ∀ id k ds, .node id k ds ∈ cs → f id = idsOfList ds) :
    idsOfList cs = ((cs.map asChild).filterMap Child.node?).flatMap fun c => c :: f c := by
  induction cs with
  | nil => rfl
  | cons s cs ih =>
    have hrest := ih fun id k ds hmem => hf id k ds (List.mem_cons_of_mem _ hmem)
    cases s with
    | token i =>
      rw [idsOfList_cons, ids_token, List.nil_append, hrest]
      rfl
    | node id k ds =>
      rw [idsOfList_cons, ids_node, ← hf id k ds List.mem_cons_self, hrest]
      rfl

/-- **A node is followed by its children, each with its own descendants.** -/
theorem descendants_eq_flatMap (hp : Parsed t) (hn : n < t.nodeCount) :
    t.descendants n = (t.childNodes n).flatMap fun c => c :: t.descendants c := by
  obtain ⟨cs, hs, hsize⟩ := hp.stands n hn
  rw [size_eq_length_ids, ids_node, List.length_cons] at hsize
  rw [hs.descendants_eq (Nat.le_of_succ_le hsize)]
  cases hs with
  | node _ _ hchildren _ hall =>
    rw [childNodes, hchildren]
    refine idsOfList_eq_flatMap fun id k ds hmem => (hall _ hmem).descendants_eq ?_
    have hle := (ids_infix_of_mem hmem).length_le
    rw [ids_node, List.length_cons] at hle
    omega

/-- **No other function is the recursive walk.** -/
theorem eq_descendants {f : NodeId → List NodeId}
    (hf : ∀ m, f m = (t.childNodes m).flatMap fun c => c :: f c) (hp : Parsed t)
    (hn : n < t.nodeCount) : f n = t.descendants n := by
  have hids : ∀ s, Stands t s → ∀ id k ds, s = .node id k ds → f id = idsOfList ds := by
    -- the equation is followed down the shape, since the function may be any that has it
    intro s hs
    induction hs with
    | token => simp
    | node _ _ hchildren _ _ ih =>
      rintro id k ds ⟨⟩
      rw [hf, childNodes, hchildren, idsOfList_eq_flatMap fun id k ds hmem => ih _ hmem id k ds rfl]
  obtain ⟨cs, hs, heq⟩ := hp.exists_descendants hn
  rw [heq, hids _ hs _ _ _ rfl]

/-! ## What is visited, and when

The nodes under a node are visited, each of them once, and those beside each other in the order of
the source. -/

/-- **The nodes that are visited are those under the node.** -/
theorem InOrder.mem_descendants_iff (h : InOrder t) (hn : n < t.nodeCount) :
    m ∈ t.descendants n ↔ t.isAncestor n m = true := by
  rw [isAncestor_iff h.parsed]
  obtain ⟨cs, hs, heq⟩ := h.parsed.exists_descendants hn
  have hnodup := h.nodup_ids hs
  rw [ids_node, List.nodup_cons, ← heq] at hnodup
  constructor
  · intro hm
    have hids : m ∈ (Shape.node n (t.kind n) cs).ids := by
      rw [ids_node, ← heq]
      exact List.mem_cons_of_mem _ hm
    -- there is a way up from the node that is visited, and it has a step
    obtain ⟨_, _, _, ns, ⟨⟩, hrises⟩ := hs.exists_rises hids
    cases hrises with
    | here => exact absurd hm hnodup.1
    | up hc hrises => exact ⟨_, _, .up hc hrises⟩
  · rintro ⟨p, ns, hrises⟩
    refine hrises.mem_descendants h.parsed hn ?_
    rintro rfl
    exact absurd (hrises.eq_nil h.parsed) (by simp)

/-- **Nodes beside each other are visited in source order.** -/
theorem InOrder.siblings_ordered (h : InOrder t) (hn : n < t.nodeCount) :
    (t.descendants n).Pairwise fun a b =>
      t.parent? a = t.parent? b → t.lastToken a < t.firstToken b := by
  obtain ⟨cs, hs, heq⟩ := h.parsed.exists_descendants hn
  have hpairs : (Shape.node n (t.kind n) cs).ids.Pairwise fun a b =>
      t.parent? a = t.parent? b → t.lastToken a < t.firstToken b := by
    refine h.pairwise_ids (fun {a b ns} hrises hne => ?_) (fun {a b} hlt => ?_) hs
    · -- a node that stands under another one is not beside it
      intro hparents
      cases hrises with
      | here => exact absurd rfl hne
      | up hc hrises =>
        rw [h.parsed.wellFormed.parent?_eq hc] at hparents
        exact absurd hrises
          (not_rises_child h.parsed (h.parsed.wellFormed.mem_childNodes_of_parent? hparents))
    · exact fun _ => hlt
  rw [ids_node, List.pairwise_cons] at hpairs
  exact heq ▸ hpairs.2

/-! ## The walk as a whole

The statement collects the course of the walk, its order and the registration of types on the way.
-/

/-- **The nodes under a node are visited in preorder.**  The walk with the stack comes to its end,
with the list of descendants as its only outcome.  This is the one recursive walk, in which every
child is followed by its own descendants.  It visits the nodes that stand under the node, each once,
none in front of one above it, and those beside each other in source order.  So when the first pass
over a solution comes to a node, all declarations of types around it are registered. -/
theorem descendants_are_in_preorder {source : String} (h : parse source = .ok t)
    (hn : n < t.nodeCount) :
    (∀ ns, StackWalk t (t.childNodes n).reverse ns ↔ ns = t.descendants n) ∧
    t.descendants n = ((t.childNodes n).flatMap fun c => c :: t.descendants c) ∧
    (∀ f : NodeId → List NodeId, (∀ m, f m = (t.childNodes m).flatMap fun c => c :: f c) →
      f n = t.descendants n) ∧
    (∀ m, m ∈ t.descendants n ↔ t.isAncestor n m = true) ∧
    (t.descendants n).Nodup ∧
    ((t.descendants n).Pairwise fun a b => t.isAncestor b a = false ∧
      (t.parent? a = t.parent? b → t.lastToken a < t.firstToken b)) ∧
    ∀ d : Document, d.tree = t → ∀ p front m back, t.descendants root = front ++ m :: back →
      ∀ a ∈ t.ancestors m, (t.kind a).isTypeDeclaration = true →
        ((front.foldl (Program.registerType d) p).declaredType? d.id a).isSome = true := by
  have ht := inOrder_of_parse h
  have hwalk := stackWalk_descendants ht.parsed hn
  refine ⟨fun ns => ⟨hwalk.unique, fun heq => heq ▸ hwalk⟩, descendants_eq_flatMap ht.parsed hn,
    fun f hf => eq_descendants hf ht.parsed hn, fun m => ht.mem_descendants_iff hn,
    ht.nodup_descendants hn, (ht.pairwise_descendants hn).and (ht.siblings_ordered hn), ?_⟩
  rintro d rfl p front m back hsplit a ha hk
  exact Option.isSome_iff_exists.mpr
    (Program.exists_declaredType? (Program.declares_enclosing h hsplit ha hk p))

/-- A method is visited before its return type, which has the lower number, and a class is
registered before the one inside it. -/
theorem descendants_are_in_preorder_nested :
    ∃ t, parse "class A{class B{void M(){}}class C{}}" = .ok t ∧ 1 < t.nodeCount ∧
      t.descendants 1 = [2, 4, 3, 5, 6, 7] ∧
      StackWalk t (t.childNodes 1).reverse [2, 4, 3, 5, 6, 7] ∧ t.isAncestor 1 6 = true ∧
      ∀ d : Document, d.tree = t → ∀ p : Program,
        ((Program.registerType d p 1).declaredType? d.id 1).isSome = true := by
  have hfacts : (parse "class A{class B{void M(){}}class C{}}").toOption.any (fun t =>
      1 < t.nodeCount ∧ t.descendants 1 = [2, 4, 3, 5, 6, 7] ∧
      t.descendants root = [1] ++ 2 :: [4, 3, 5, 6, 7] ∧ 1 ∈ t.ancestors 2 ∧
      (t.kind 1).isTypeDeclaration = true) = true := by
    decide +kernel
  cases h : parse "class A{class B{void M(){}}class C{}}" with
  | error e =>
    rw [h] at hfacts
    cases hfacts
  | ok t =>
    rw [h] at hfacts
    obtain ⟨hn, hdescendants, hroot, habove, hk⟩ := of_decide_eq_true hfacts
    obtain ⟨hwalk, -, -, hmem, -, -, hregistered⟩ := descendants_are_in_preorder h hn
    exact ⟨t, rfl, hn, hdescendants, (hwalk _).mpr hdescendants.symm,
      (hmem 6).mp (by rw [hdescendants]; decide),
      fun d hd p => hregistered d hd p [1] 2 _ hroot 1 habove hk⟩

end Tree

end CodeMend
