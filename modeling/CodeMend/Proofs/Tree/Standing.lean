import CodeMend.Proofs.Tree.WellFormed

/-!
# CodeMend — what stands in a parsed tree

The productions speak of shapes, and everything that works on a tree asks its arrays.  Here the
productions are read off the arrays: which nodes are listed under a node, by its kind.

* **`Stands`** — a shape stands in a tree as it is.
* **`Parsed`** — a tree in which such a shape stands at every node.
* **`Words`** — nodes that are those of a word of a language; one lemma for each way in which the
  productions are put together takes such a word apart from the front.
* **`Still`** — nothing is evaluated at a node or under it.
-/

namespace CodeMend.Tree

open Shape Production
open scoped Computability

variable {t : Tree} {n c : NodeId} {k : NodeKind}

/-! ## Shapes in a tree

A shape is a tree by itself; here it is said that it stands in the arrays.  What parsing says of
shapes is brought to nodes by this. -/

/-- A shape stands in a tree as it is: its nodes have their kinds and children there, and the
children are words of the productions. -/
inductive Stands (t : Tree) : Shape → Prop where
  | token (i : TokenId) : Stands t (.token i)
  | node {id : NodeId} {k : NodeKind} {cs : List Shape} (hlt : id < t.nodeCount)
      (hk : t.kind id = k) (hchildren : t.children id = cs.map asChild)
      (hword : cs ∈ production t.tokens k) (hall : ∀ s ∈ cs, Stands t s) :
      Stands t (.node id k cs)

theorem Stands.kind_eq {cs : List Shape} (h : Stands t (.node n k cs)) : t.kind n = k := by
  cases h with
  | node _ hk => exact hk

/-- The parts of a shape stand in its layout. -/
theorem Laid.stands {s c : Shape} {q : Option NodeId} (hl : Laid t s)
    (hs : Conforms t.tokens s) (h : (q, c) ∈ s.parts none) : Stands t c := by
  induction c using induct generalizing q with
  | token i => exact .token i
  | node id k cs ih =>
    have hdata := hl.data_eq h
    cases hs.part h with
    | node _ _ _ hword _ =>
      refine .node (hl.lt_nodeCount h) ?_ ?_ hword fun s hmem => ?_
      · rw [kind, hdata]
        rfl
      · rw [children, hdata]
        rfl
      · exact ih s hmem (mem_parts_of_mem_children h hmem)

/-- What holds of the tree of a source: it is well-formed, and a shape of the grammar stands at
every node, with no more nodes than the tree has. -/
structure Parsed (t : Tree) : Prop where
  wellFormed : t.WellFormed
  stands : ∀ n < t.nodeCount, ∃ cs, Stands t (.node n (t.kind n) cs) ∧
    (Shape.node n (t.kind n) cs).size ≤ t.nodeCount

/-- **The tree of a source that parses.** -/
theorem parsed_of_parse {source : String} (h : parse source = .ok t) : Parsed t := by
  refine ⟨(parse_wellFormed h).1, fun n hn => ?_⟩
  obtain ⟨tokens, s, b, -, -, hw, rfl, hl⟩ := Grammar.exists_whole_of_parse h
  obtain ⟨q, k, cs, hpart⟩ := hl.exists_node hn
  have hstands : Stands _ (.node n k cs) := hl.stands hw.conforms hpart
  have hwithin := ids_infix_of_mem_parts hpart
  -- no number stands twice under the node, and all of them are those of entries
  have hnodup : (Shape.node n k cs).ids.Nodup :=
    (hw.ids_perm.nodup_iff.mpr List.nodup_range).sublist hwithin.sublist
  have hsub : (Shape.node n k cs).ids ⊆ List.range b.nodes.size := fun m hm =>
    List.mem_range.mpr (hl.lt_nodeCount_of_mem_ids (hwithin.subset hm))
  have hsize := (hnodup.subperm hsub).length_le
  rw [List.length_range] at hsize
  obtain rfl := hstands.kind_eq
  exact ⟨cs, hstands, hsize⟩

/-! ## Where nodes are listed

Parents and lists of children tell the same. -/

/-- A number that no node bears seems to be that of a whole file without children. -/
theorem data_eq_default (h : t.nodeCount ≤ n) : t.data n = default := by
  rw [data, Array.getD_eq_getD_getElem?, Array.getElem?_eq_none h]
  rfl

theorem lt_nodeCount_of_mem_children {c : Child} (hc : c ∈ t.children n) : n < t.nodeCount := by
  by_contra hn
  rw [children, data_eq_default (Nat.le_of_not_lt hn)] at hc
  cases hc

theorem WellFormed.lt_of_mem (h : t.WellFormed) {p : NodeId} (hc : c ∈ t.childNodes p) :
    p < t.nodeCount ∧ c < t.nodeCount ∧ .node c ∈ t.children p := by
  obtain ⟨d, hd, hnode⟩ := List.mem_filterMap.mp hc
  cases d with
  | token i => cases hnode
  | node m =>
    obtain rfl : m = c := Option.some.inj hnode
    have hp : p < t.nodeCount := lt_nodeCount_of_mem_children hd
    exact ⟨hp, h.node_lt p hp m hd, hd⟩

/-- **A node is listed by one node only.** -/
theorem WellFormed.parent_unique (h : t.WellFormed) {p q : NodeId} (hp : c ∈ t.childNodes p)
    (hq : c ∈ t.childNodes q) : p = q := by
  obtain ⟨hplt, hc, hpmem⟩ := h.lt_of_mem hp
  obtain ⟨hqlt, -, hqmem⟩ := h.lt_of_mem hq
  have hroot : c ≠ root := fun heq => h.root_notMem p hplt (heq ▸ hpmem)
  obtain ⟨r, -, -, hcount⟩ := h.parent c hc hroot
  have hlists : ∀ q < t.nodeCount, .node c ∈ t.children q → q = r := by
    intro q hq hmem
    by_contra hne
    have hzero := hcount q hq
    rw [if_neg hne, List.count_eq_zero] at hzero
    exact hzero hmem
  rw [hlists p hplt hpmem, hlists q hqlt hqmem]

/-! ## Words of nodes

A production is a language of shapes, and the nodes under a node are what is left of one of its
words without the tokens. -/

/-- If the shape is a node at all, its kind is one of some kinds. -/
def OfKind (q : NodeKind → Prop) : Shape → Prop
  | .token _ => True
  | .node _ k _ => q k

theorem ofKind_token {q : NodeKind → Prop} (i : TokenId) : OfKind q (.token i) := trivial

theorem part_le_each_ofKind {p q : NodeKind → Prop} (h : ∀ k, p k → q k) :
    part (HasKind p) ≤ each (OfKind q) :=
  part_le_each fun _ ⟨_, k, _, hs, hk⟩ => hs ▸ h k hk

/-- The nodes are those of a word of a language that stands in the tree. -/
def Words (t : Tree) (l : Language Shape) (ns : List NodeId) : Prop :=
  ∃ cs ∈ l, (∀ s ∈ cs, Stands t s) ∧ cs.filterMap (·.asChild.node?) = ns

/-- A shape of names and types stands at the node. -/
def Plain (t : Tree) (n : NodeId) : Prop :=
  ∃ k cs, Stands t (.node n k cs) ∧ IsPlain (.node n k cs)

/-- The nodes under a node are those of its children. -/
theorem Stands.words {cs : List Shape} {l : Language Shape} (h : Stands t (.node n k cs))
    (hl : cs ∈ l) : Words t l (t.childNodes n) := by
  cases h with
  | node _ _ hchildren _ hall =>
    refine ⟨cs, hl, hall, ?_⟩
    rw [childNodes, hchildren, List.filterMap_map]
    rfl

/-- A smaller shape stands at every node under a node. -/
theorem Stands.child {cs : List Shape} (h : Stands t (.node n k cs)) (hc : c ∈ t.childNodes n) :
    ∃ k' ds, Stands t (.node c k' ds) ∧
      (Shape.node c k' ds).size < (Shape.node n k cs).size := by
  have hsize : ∀ s ∈ cs, s.size < (Shape.node n k cs).size := fun s hs => by
    rw [size_eq_length_ids, size_eq_length_ids, ids_node, List.length_cons]
    exact Nat.lt_succ_of_le (ids_infix_of_mem hs).length_le
  cases id h with
  | node _ _ hchildren _ hall =>
    rw [childNodes, hchildren, List.filterMap_map] at hc
    obtain ⟨s, hs, hnode⟩ := List.mem_filterMap.mp hc
    cases s with
    | token i => cases hnode
    | node id k' ds =>
      cases hnode
      exact ⟨k', ds, hall _ hs, hsize _ hs⟩

/-- A node of a kind has children of its production. -/
theorem Parsed.exists_children (hp : Parsed t) (hk : t.kind n = k) (hne : k ≠ .compilationUnit) :
    ∃ cs ∈ production t.tokens k, Stands t (.node n k cs) := by
  have hlt : n < t.nodeCount := by
    by_contra hlt
    rw [kind, data_eq_default (Nat.le_of_not_lt hlt)] at hk
    exact hne hk.symm
  obtain ⟨cs, hcs, -⟩ := hp.stands n hlt
  rw [hk] at hcs
  cases id hcs with
  | node _ _ _ hword _ => exact ⟨cs, hword, hcs⟩

/-- The nodes under a node are a word of its production. -/
theorem Parsed.words (hp : Parsed t) (hk : t.kind n = k) (hne : k ≠ .compilationUnit) :
    Words t (production t.tokens k) (t.childNodes n) := by
  obtain ⟨cs, hword, hcs⟩ := hp.exists_children hk hne
  exact hcs.words hword

namespace Words

variable {ts : Array Token} {l : Language Shape} {ls : List (Language Shape)} {ns : List NodeId}
  {sort : Token → Prop} {q : NodeKind → Prop} {p : Shape → Prop}

theorem mono {m : Language Shape} (h : Words t l ns) (hl : l ≤ m) : Words t m ns := by
  obtain ⟨cs, hcs, hall, hns⟩ := h
  exact ⟨cs, hl hcs, hall, hns⟩

theorem append (h : Words t (l :: ls).prod ns) :
    ∃ xs ys, ns = xs ++ ys ∧ Words t l xs ∧ Words t ls.prod ys := by
  obtain ⟨cs, hcs, hall, rfl⟩ := h
  obtain ⟨x, hx, y, hy, rfl⟩ := mem_prod_cons.mp hcs
  refine ⟨_, _, List.filterMap_append, ⟨x, hx, fun s hs => ?_, rfl⟩, ⟨y, hy, fun s hs => ?_, rfl⟩⟩
  · exact hall s (List.mem_append_left _ hs)
  · exact hall s (List.mem_append_right _ hs)

theorem nil (h : Words t ([] : List (Language Shape)).prod ns) : ns = [] := by
  obtain ⟨cs, hcs, -, rfl⟩ := h
  rw [List.prod_nil, Language.mem_one] at hcs
  rw [hcs]
  rfl

theorem of_add {m : Language Shape} (h : Words t (l + m) ns) : Words t l ns ∨ Words t m ns := by
  obtain ⟨cs, hcs | hcs, hall, rfl⟩ := h
  · exact .inl ⟨cs, hcs, hall, rfl⟩
  · exact .inr ⟨cs, hcs, hall, rfl⟩

theorem of_word (h : Words t (word ts sort) ns) : ns = [] := by
  obtain ⟨_, ⟨i, -, -, rfl⟩, -, rfl⟩ := h
  rfl

theorem of_kind (h : Words t (part (HasKind q)) ns) : ∃ n, ns = [n] ∧ q (t.kind n) := by
  obtain ⟨_, ⟨_, ⟨id, k, cs, rfl, hq⟩, rfl⟩, hall, rfl⟩ := h
  exact ⟨id, rfl, (hall _ List.mem_cons_self).kind_eq ▸ hq⟩

/-- A single node, by the shape that stands there. -/
theorem of_part (h : Words t (part p) ns) (hp : ∀ i, ¬p (.token i)) :
    ∃ n k cs, ns = [n] ∧ Stands t (.node n k cs) ∧ p (.node n k cs) := by
  obtain ⟨_, ⟨s, hs, rfl⟩, hall, rfl⟩ := h
  cases s with
  | token i => exact absurd hs (hp i)
  | node id k cs => exact ⟨id, k, cs, rfl, hall _ List.mem_cons_self, hs⟩

theorem of_plain (h : Words t (part fun s => HasKind q s ∧ IsPlain s) ns) :
    ∃ n, ns = [n] ∧ q (t.kind n) ∧ Plain t n := by
  obtain ⟨_, ⟨_, ⟨⟨id, k, cs, rfl, hq⟩, hplain⟩, rfl⟩, hall, rfl⟩ := h
  have hstands := hall _ List.mem_cons_self
  exact ⟨id, rfl, hstands.kind_eq ▸ hq, k, cs, hstands, hplain⟩

/-- Nodes of a language all of whose shapes are of a sort. -/
theorem each (h : Words t l ns) (hl : l ≤ Production.each p) :
    ∀ n ∈ ns, ∃ k cs, Stands t (.node n k cs) ∧ p (.node n k cs) := by
  obtain ⟨cs, hcs, hall, rfl⟩ := h
  intro n hn
  obtain ⟨s, hs, hnode⟩ := List.mem_filterMap.mp hn
  cases s with
  | token i => cases hnode
  | node id k cs' =>
    cases hnode
    exact ⟨k, cs', hall _ hs, hl hcs _ hs⟩

/-- Nodes of a language all of whose nodes are of some kinds. -/
theorem kinds (h : Words t l ns) (hl : l ≤ Production.each (OfKind q)) :
    ∀ n ∈ ns, q (t.kind n) := by
  intro n hn
  obtain ⟨k, cs, hs, hq⟩ := h.each hl n hn
  exact hs.kind_eq ▸ hq

/-! ### From the front

A production is a product of small languages, so the nodes are told off one factor at a time. -/

theorem skip (h : Words t (word ts sort :: ls).prod ns) : Words t ls.prod ns := by
  obtain ⟨xs, ys, rfl, hx, hy⟩ := h.append
  rwa [hx.of_word]

theorem kind (h : Words t (part (HasKind q) :: ls).prod ns) :
    ∃ n rest, ns = n :: rest ∧ q (t.kind n) ∧ Words t ls.prod rest := by
  obtain ⟨xs, ys, rfl, hx, hy⟩ := h.append
  obtain ⟨n, rfl, hq⟩ := hx.of_kind
  exact ⟨n, ys, rfl, hq, hy⟩

theorem expression (h : Words t (expr ts :: ls).prod ns) :
    ∃ n rest, ns = n :: rest ∧ t.kind n ∈ expressionKinds ∧ Words t ls.prod rest :=
  (h.mono (prod_cons_mono expr_le)).kind

theorem plain (h : Words t ((part fun s => HasKind q s ∧ IsPlain s) :: ls).prod ns) :
    ∃ n rest, ns = n :: rest ∧ q (t.kind n) ∧ Plain t n ∧ Words t ls.prod rest := by
  obtain ⟨xs, ys, rfl, hx, hy⟩ := h.append
  obtain ⟨n, rfl, hq, hplain⟩ := hx.of_plain
  exact ⟨n, ys, rfl, hq, hplain, hy⟩

theorem option (h : Words t (opt l :: ls).prod ns) :
    Words t ls.prod ns ∨ Words t (l :: ls).prod ns := by
  obtain ⟨cs, hcs, hall, rfl⟩ := h
  obtain ⟨x, hx, y, hy, rfl⟩ := mem_prod_cons.mp hcs
  rcases mem_opt_iff.mp hx with rfl | hx
  · exact .inl ⟨y, hy, hall, rfl⟩
  · exact .inr ⟨x ++ y, append_mem_prod hx hy, hall, rfl⟩

theorem skipOption (h : Words t (opt (word ts sort) :: ls).prod ns) : Words t ls.prod ns :=
  h.option.elim id skip

/-- An expression in parentheses. -/
theorem condition (h : Words t (parenthesized ts :: ls).prod ns) :
    ∃ e rest, ns = e :: rest ∧ t.kind e ∈ expressionKinds ∧ Words t ls.prod rest := by
  obtain ⟨xs, ys, rfl, hx, hy⟩ := h.append
  obtain ⟨e, rest, rfl, he, hx⟩ :=
    (hx : Words t [mark ts "(", expr ts, mark ts ")"].prod xs).skip.expression
  obtain rfl := hx.skip.nil
  exact ⟨e, ys, rfl, he, hy⟩

end Words

/-! ## Where nothing is evaluated

Under names and types no expression is found, and the same holds of all that is under such nodes. -/

/-- The kinds of nodes under which nothing is evaluated. -/
def stillKinds : List NodeKind :=
  [.predefinedType, .identifierName, .genericName, .qualifiedName, .nullableType, .tupleType,
    .tupleElement, .typeArgumentList, .explicitInterfaceSpecifier, .literalExpression,
    .thisExpression, .baseExpression, .memberBindingExpression, .typeOfExpression,
    .defaultExpression, .typePattern, .nameColon, .singleVariableDesignation,
    .parenthesizedVariableDesignation, .declarationExpression, .declarationPattern,
    .catchDeclaration]

/-- Nothing is evaluated at the node or under it: it is a name or a type, or something that consists
of such. -/
inductive Still (t : Tree) : NodeId → Prop where
  | kind {n : NodeId} : t.kind n ∈ stillKinds → Still t n
  | plain {n : NodeId} : Plain t n → Still t n

/-- The sort of shapes under which nothing is evaluated. -/
def IsStill (s : Shape) : Prop := HasKind (· ∈ stillKinds) s ∨ IsPlain s

theorem isStill_token (i : TokenId) : IsStill (.token i) := .inr (.token i)

theorem plainType_le_each_isStill : plainType ≤ each IsStill := part_le_each fun _ h => .inr h.2

theorem plain_le_each_isStill : Production.plain k ≤ each IsStill :=
  part_le_each fun _ h => .inr h.2

theorem a_le_each_isStill (hk : k ∈ stillKinds) : a k ≤ each IsStill :=
  part_le_each fun _ h => .inl (h.mono fun _ hs => hs ▸ hk)

theorem isSimpleName_le_each_isStill {ts : Array Token} :
    part (IsSimpleName ts) ≤ each IsStill :=
  part_le_each fun _ h => .inl (h.1.mono (by decide))

/-- **Under a node under which nothing is evaluated are such nodes only.** -/
theorem production_le_each_isStill {ts : Array Token} (hk : k ∈ stillKinds) :
    production ts k ≤ each IsStill := by
  have hword : anyWord ts ≤ each IsStill := word_le_each isStill_token
  have hbare : bareWord ts ≤ each IsStill := word_le_each isStill_token
  have hname : word ts (fun t => t.isIdentifier = true) ≤ each IsStill := word_le_each isStill_token
  have hmark : ∀ {text}, mark ts text ≤ each IsStill := fun {_} => word_le_each isStill_token
  have htype := plainType_le_each_isStill
  have hplain := fun {k : NodeKind} => plain_le_each_isStill (k := k)
  have hone : ∀ {l : Language Shape}, l ≤ each IsStill → [l].prod ≤ each IsStill := fun hl =>
    cons_le_each hl nil_le_each
  have hseparated : ∀ {l : Language Shape}, l ≤ each IsStill → separated ts l ≤ each IsStill :=
    separated_le_each isStill_token
  have henclosed : ∀ {opening close : String} {l : Language Shape}, l ≤ each IsStill →
      enclosed ts opening l close ≤ each IsStill := enclosed_le_each isStill_token
  -- One production at a time, part by part.
  cases k with
  | predefinedType | literalExpression | thisExpression | baseExpression
  | singleVariableDesignation => exact hbare
  | identifierName => exact hname
  | genericName => exact cons_le_each hname (hone hplain)
  | typeArgumentList => exact henclosed (hseparated htype)
  | qualifiedName => exact cons_le_each htype (cons_le_each hword (hone htype))
  | nullableType => exact cons_le_each htype (hone hmark)
  | tupleType => exact henclosed (hseparated hplain)
  | tupleElement => exact cons_le_each htype (hone (opt_le_each hword))
  | explicitInterfaceSpecifier => exact cons_le_each htype (hone hmark)
  | memberBindingExpression => exact isSimpleName_le_each_isStill
  | typeOfExpression | defaultExpression =>
    exact cons_le_each hword (cons_le_each hmark (cons_le_each htype (hone hmark)))
  | typePattern => exact htype
  | nameColon =>
    exact cons_le_each (a_le_each_isStill (by decide)) (hone hmark)
  | parenthesizedVariableDesignation =>
    exact henclosed (hseparated (a_le_each_isStill (by decide)))
  | declarationExpression =>
    refine add_le_each (cons_le_each htype (hone ?_)) (cons_le_each ?_ (hone ?_))
    all_goals exact a_le_each_isStill (by decide)
  | declarationPattern => exact cons_le_each htype (hone (a_le_each_isStill (by decide)))
  | catchDeclaration =>
    exact cons_le_each hword (cons_le_each htype (cons_le_each (opt_le_each hword) (hone hmark)))
  | _ => exact absurd hk (by decide)

theorem Still.of_isStill {cs : List Shape} (hs : Stands t (.node n k cs))
    (h : IsStill (.node n k cs)) : Still t n := by
  rcases h with ⟨_, _, _, heq, hk⟩ | hplain
  · cases heq
    exact .kind (hs.kind_eq ▸ hk)
  · exact .plain ⟨k, cs, hs, hplain⟩

theorem Still.child (hp : Parsed t) (h : Still t n) (hc : c ∈ t.childNodes n) : Still t c := by
  cases h with
  | kind hk =>
    have hne : t.kind n ≠ .compilationUnit := fun heq => by
      rw [heq] at hk
      exact absurd hk (by decide)
    obtain ⟨_, _, hs, hstill⟩ := (hp.words rfl hne).each (production_le_each_isStill hk) c hc
    exact .of_isStill hs hstill
  | plain hplain =>
    obtain ⟨k, cs, hs, hplain⟩ := hplain
    cases hplain with
    | node _ _ _ _ hall =>
      obtain ⟨_, _, hs', hplain'⟩ := (hs.words (l := each IsPlain) hall).each le_rfl c hc
      exact .plain ⟨_, _, hs', hplain'⟩

/-- The kind of a node at which nothing is evaluated. -/
theorem Still.kind_mem (h : Still t n) : t.kind n ∈ stillKinds ++ plainKinds := by
  cases h with
  | kind hk => exact List.mem_append_left _ hk
  | plain hplain =>
    obtain ⟨k, cs, hs, hplain⟩ := hplain
    cases hplain with
    | node _ _ _ hk _ => exact List.mem_append_right _ (hs.kind_eq ▸ hk)

end CodeMend.Tree
