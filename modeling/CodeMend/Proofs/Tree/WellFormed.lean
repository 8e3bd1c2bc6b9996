import CodeMend.Proofs.Grammar.Parse

/-!
# CodeMend — parsed trees are well-formed

The arrays of a tree could say anything: a node could be listed twice, name another parent than the
one that lists it, or stand in a cycle.  Those of a parsed source do not.

* **`HasLeaves`** — the leaves under a child, told by the children that the arrays list.
* **`WellFormed`** — the arrays agree with one another and with the tokens.
* **`Whole.wellFormed`** — the layout of the shape of a file is well-formed.
* **`parse_wellFormed`** — so is the tree of every source that parses, and it writes the source out.
-/

namespace CodeMend

/-! ## Leaves of shapes -/

namespace Shape

theorem leaves_infix_of_mem {s : Shape} {cs : List Shape} (h : s ∈ cs) :
    s.leaves <:+: leavesOfList cs := by
  obtain ⟨a, b, rfl⟩ := List.append_of_mem h
  exact ⟨leavesOfList a, leavesOfList b, by simp⟩

theorem ids_infix_of_mem {s : Shape} {cs : List Shape} (h : s ∈ cs) : s.ids <:+: idsOfList cs := by
  obtain ⟨a, b, rfl⟩ := List.append_of_mem h
  exact ⟨idsOfList a, idsOfList b, by simp⟩

/-- The leaves of a part follow one another among those of the shape. -/
theorem leaves_infix_of_mem_parts {p q : Option NodeId} {s c : Shape} (h : (q, c) ∈ parts p s) :
    c.leaves <:+: s.leaves := by
  induction s using induct generalizing p with
  | token i =>
    obtain ⟨rfl, rfl⟩ := Prod.mk.inj (List.mem_singleton.mp (parts_token p i ▸ h))
    exact List.infix_rfl
  | node id k cs ih =>
    rw [parts_node, List.mem_cons] at h
    rcases h with h | h
    · obtain ⟨rfl, rfl⟩ := Prod.mk.inj h
      exact List.infix_rfl
    · obtain ⟨s, hs, h⟩ := mem_partsOfList_iff.mp h
      rw [leaves_node]
      exact (ih s hs h).trans (leaves_infix_of_mem hs)

/-- The numbers of the nodes of a part follow one another among those of the shape. -/
theorem ids_infix_of_mem_parts {p q : Option NodeId} {s c : Shape} (h : (q, c) ∈ parts p s) :
    c.ids <:+: s.ids := by
  induction s using induct generalizing p with
  | token i =>
    obtain ⟨rfl, rfl⟩ := Prod.mk.inj (List.mem_singleton.mp (parts_token p i ▸ h))
    exact List.infix_rfl
  | node id k cs ih =>
    rw [parts_node, List.mem_cons] at h
    rcases h with h | h
    · obtain ⟨rfl, rfl⟩ := Prod.mk.inj h
      exact List.infix_rfl
    · obtain ⟨s, hs, h⟩ := mem_partsOfList_iff.mp h
      rw [ids_node]
      exact (ih s hs h).trans ((ids_infix_of_mem hs).trans (List.suffix_cons _ _).isInfix)

/-- No two children are the same as long as no number and no token stands twice. -/
theorem nodup_map_asChild {cs : List Shape} (hids : (idsOfList cs).Nodup)
    (hleaves : (leavesOfList cs).Nodup) : (cs.map asChild).Nodup := by
  induction cs with
  | nil => simp
  | cons c cs ih =>
    rw [idsOfList_cons] at hids
    rw [leavesOfList_cons] at hleaves
    rw [List.map_cons, List.nodup_cons]
    refine ⟨fun hmem => ?_, ih hids.of_append_right hleaves.of_append_right⟩
    obtain ⟨d, hd, heq⟩ := List.mem_map.mp hmem
    cases c with
    | token i =>
      cases d with
      | token j =>
        cases heq
        have hi : i ∈ leavesOfList cs := (leaves_infix_of_mem hd).subset (by simp)
        exact List.disjoint_of_nodup_append hleaves (by simp) hi
      | node id k ds => cases heq
    | node id k ds =>
      cases d with
      | token j => cases heq
      | node id' k' ds' =>
        cases heq
        have hid : id ∈ idsOfList cs := (ids_infix_of_mem hd).subset (by simp)
        exact List.disjoint_of_nodup_append hids (by simp) hid

end Shape

namespace Tree

/-! ## Leaves of trees -/

mutual

/-- `HasLeaves t c l`: the leaves under the child `c`, from left to right, are `l`. -/
inductive HasLeaves (t : Tree) : Child → List TokenId → Prop where
  | token (i : TokenId) : HasLeaves t (.token i) [i]
  | node (n : NodeId) (l : List TokenId) (h : HaveLeaves t (t.children n) l) :
      HasLeaves t (.node n) l

/-- The leaves under children, one after the other. -/
inductive HaveLeaves (t : Tree) : List Child → List TokenId → Prop where
  | nil : HaveLeaves t [] []
  | cons (c : Child) (cs : List Child) (l m : List TokenId) (hc : HasLeaves t c l)
      (hcs : HaveLeaves t cs m) : HaveLeaves t (c :: cs) (l ++ m)

end

mutual

/-- A child has no leaves but its leaves. -/
theorem HasLeaves.unique {t : Tree} : ∀ {c : Child} {l l' : List TokenId},
    HasLeaves t c l → HasLeaves t c l' → l = l'
  | _, _, _, .token _, .token _ => rfl
  | _, _, _, .node _ _ h, .node _ _ h' => HaveLeaves.unique h h'

theorem HaveLeaves.unique {t : Tree} : ∀ {cs : List Child} {l l' : List TokenId},
    HaveLeaves t cs l → HaveLeaves t cs l' → l = l'
  | _, _, _, .nil, .nil => rfl
  | _, _, _, .cons _ _ _ _ hc hcs, .cons _ _ _ _ hc' hcs' => by
    rw [HasLeaves.unique hc hc', HaveLeaves.unique hcs hcs']

end

/-- The source that the tokens of a tree write out. -/
def codegen (t : Tree) : String := Token.renderAll t.tokens.toList

/-- The arrays of a tree agree with one another and with its tokens. -/
structure WellFormed (t : Tree) : Prop where
  /-- The leaves under the root are the tokens in order, each once. -/
  root_leaves : t.HasLeaves (.node root) (List.range t.tokens.size)
  /-- The last child of the root is the last token. -/
  root_children : ∃ members, t.children root = members ++ [.token (t.tokens.size - 1)]
  /-- There is a token, and the last one, and only the last, marks the end of the file. -/
  size_pos : 0 < t.tokens.size
  kind_eq_iff : ∀ i < t.tokens.size, (t.token i).kind = .endOfFile ↔ i + 1 = t.tokens.size
  /-- Every node has a child, and lists nothing that is not there. -/
  children_ne_nil : ∀ n < t.nodeCount, t.children n ≠ []
  node_lt : ∀ p < t.nodeCount, ∀ n, .node n ∈ t.children p → n < t.nodeCount
  token_lt : ∀ p < t.nodeCount, ∀ i, .token i ∈ t.children p → i < t.tokens.size
  /-- The root is a node, hangs under none and says so. -/
  root_lt : root < t.nodeCount
  root_parent : t.parent? root = none
  root_notMem : ∀ p < t.nodeCount, .node root ∉ t.children p
  /-- Every other node names the node that lists it; that one lists it once, and no other does. -/
  parent : ∀ n < t.nodeCount, n ≠ root → ∃ p < t.nodeCount, t.parent? n = some p ∧
    ∀ q < t.nodeCount, (t.children q).count (.node n) = if q = p then 1 else 0
  /-- A token is listed once, by the node that it hangs under, and by no other. -/
  tokenParent : ∀ i < t.tokens.size, t.tokenParent i < t.nodeCount ∧
    ∀ q < t.nodeCount, (t.children q).count (.token i) = if q = t.tokenParent i then 1 else 0
  /-- A node tells the first and the last of its leaves. -/
  ends : ∀ n < t.nodeCount, ∃ l, t.HasLeaves (.node n) l ∧ l.head? = some (t.firstToken n) ∧
    l.getLast? = some (t.lastToken n)

/-! ## What the layout of a shape says -/

section Laid

open Shape

variable {t : Tree} {s : Shape} (hl : Laid t s)

include hl

/-- The leaves of a part are those that the tree lists. -/
theorem Laid.hasLeaves {q : Option NodeId} {c : Shape} (h : (q, c) ∈ s.parts none) :
    t.HasLeaves c.asChild c.leaves := by
  induction c using induct generalizing q with
  | token i =>
    rw [leaves_token]
    exact .token i
  | node id k cs ih =>
    have hlist : ∀ ds ⊆ cs, t.HaveLeaves (ds.map asChild) (leavesOfList ds) := by
      intro ds hds
      induction ds with
      | nil =>
        rw [leavesOfList_nil]
        exact .nil
      | cons d ds ihds =>
        obtain ⟨hd, hds⟩ := List.cons_subset.mp hds
        rw [leavesOfList_cons]
        exact .cons _ _ _ _ (ih d hd (mem_parts_of_mem_children h hd)) (ihds hds)
    rw [leaves_node]
    refine .node id _ ?_
    rw [children, hl.data_eq h]
    exact hlist cs (List.Subset.refl cs)

/-- What a node lists is a part that hangs under it. -/
theorem Laid.exists_part {p : NodeId} (hp : p < t.nodeCount) {c : Child} (hc : c ∈ t.children p) :
    ∃ d, d.asChild = c ∧ (some p, d) ∈ s.parts none := by
  obtain ⟨q, k, cs, hpart⟩ := hl.exists_node hp
  rw [children, hl.data_eq hpart] at hc
  obtain ⟨d, hd, rfl⟩ := List.mem_map.mp hc
  exact ⟨d, rfl, mem_parts_of_mem_children hpart hd⟩

/-- A part is listed by the node that it hangs under. -/
theorem Laid.mem_children {p : NodeId} {c : Shape} (h : (some p, c) ∈ s.parts none) :
    p < t.nodeCount ∧ c.asChild ∈ t.children p := by
  rcases parent_of_mem_parts h with ⟨hp, -⟩ | ⟨q, id, k, cs, hp, hpart, hc⟩
  · cases hp
  · obtain rfl := Option.some.inj hp
    refine ⟨hl.lt_nodeCount hpart, ?_⟩
    rw [children, hl.data_eq hpart]
    exact List.mem_map_of_mem hc

/-- A node that is listed tells who lists it. -/
theorem Laid.parent?_eq {p n : NodeId} (hp : p < t.nodeCount) (h : .node n ∈ t.children p) :
    t.parent? n = some p := by
  obtain ⟨d, hd, hpart⟩ := hl.exists_part hp h
  cases d with
  | token i => cases hd
  | node id k cs =>
    cases hd
    rw [parent?, hl.data_eq hpart]
    rfl

theorem Laid.tokenParent_of_mem {p : NodeId} {i : TokenId} (hp : p < t.nodeCount)
    (h : .token i ∈ t.children p) : t.tokenParent i = p := by
  obtain ⟨d, hd, hpart⟩ := hl.exists_part hp h
  cases d with
  | token j =>
    cases hd
    exact hl.tokenParent_eq hpart
  | node id k cs => cases hd

/-- No node lists a child twice. -/
theorem Laid.nodup_children (hids : s.ids.Nodup) (hleaves : s.leaves.Nodup) {p : NodeId}
    (hp : p < t.nodeCount) : (t.children p).Nodup := by
  obtain ⟨q, k, cs, hpart⟩ := hl.exists_node hp
  have hids' := hids.sublist (ids_infix_of_mem_parts hpart).sublist
  have hleaves' := hleaves.sublist (leaves_infix_of_mem_parts hpart).sublist
  rw [ids_node, List.nodup_cons] at hids'
  rw [leaves_node] at hleaves'
  rw [children, hl.data_eq hpart]
  exact nodup_map_asChild hids'.2 hleaves'

end Laid

/-! ## The tree of a file -/

section Whole

open Shape Production

variable {t : Tree} {s : Shape}

/-- The parser and the tree agree about tokens that are there. -/
theorem token_eq_tokenAt {i : Nat} (hi : i < t.tokens.size) :
    t.token i = tokenAt t.tokens i := by
  rw [token, tokenAt, Nat.min_eq_left (by omega)]

theorem token_eq_getElem {tokens : List Token} (htokens : t.tokens = tokens.toArray) {i : Nat}
    (hi : i < tokens.length) : t.token i = tokens[i] := by
  rw [token, htokens, Array.getD_eq_getD_getElem?, List.getElem?_toArray,
    List.getElem?_eq_getElem hi]
  rfl

/-- **The layout of the shape of a file is well-formed.** -/
theorem WellFormed.of_whole (hts : Ended t.tokens) (hw : Grammar.Whole t.tokens s)
    (hl : Laid t s) : t.WellFormed := by
  obtain ⟨members, hroot⟩ := hw.root
  have hids : s.ids.Nodup := hw.ids_perm.nodup_iff.mpr List.nodup_range
  have hleaves : s.leaves.Nodup := hw.leaves_eq ▸ List.nodup_range
  have hnodup := fun {p} => hl.nodup_children hids hleaves (p := p)
  -- the root is the part that hangs under none
  have hself : (none, .node root .compilationUnit (members ++ [.token (t.tokens.size - 1)])) ∈
      s.parts none := hroot ▸ mem_parts_self none s
  have hlt : root < t.nodeCount := hl.lt_nodeCount hself
  have hparent : t.parent? root = none := by
    rw [parent?, hl.data_eq hself]
    rfl
  refine
    { root_leaves := ?_
      root_children := ⟨members.map asChild, ?_⟩
      size_pos := hts.size_pos
      kind_eq_iff := ?_
      children_ne_nil := ?_
      node_lt := ?_
      token_lt := ?_
      root_lt := hlt
      root_parent := hparent
      root_notMem := ?_
      parent := ?_
      tokenParent := ?_
      ends := ?_ }
  · rw [← hw.leaves_eq, hroot]
    exact hl.hasLeaves hself
  · rw [children, hl.data_eq hself]
    simp [dataOf, asChild]
  · intro i hi
    rw [token_eq_tokenAt hi, hts.kind_eq_iff]
    omega
  · intro n hn
    obtain ⟨p, k, cs, hpart⟩ := hl.exists_node hn
    rw [children, hl.data_eq hpart]
    cases hw.conforms.part hpart with
    | node _ _ _ hcs _ =>
      intro hnil
      rw [dataOf, List.map_eq_nil_iff] at hnil
      exact nil_notMem_production _ _ (hnil ▸ hcs)
  · intro p hp n h
    obtain ⟨d, hd, hpart⟩ := hl.exists_part hp h
    cases d with
    | token i => cases hd
    | node id k cs =>
      cases hd
      exact hl.lt_nodeCount hpart
  · intro p hp i h
    obtain ⟨d, hd, hpart⟩ := hl.exists_part hp h
    cases d with
    | token j =>
      cases hd
      exact hl.lt_size hpart
    | node id k cs => cases hd
  · intro p hp h
    rw [hl.parent?_eq hp h] at hparent
    cases hparent
  · intro n hn hne
    obtain ⟨q, k, cs, hpart⟩ := hl.exists_node hn
    cases q with
    | none =>
      -- only the shape itself hangs under none
      rcases parent_of_mem_parts hpart with ⟨-, heq⟩ | ⟨_, _, _, _, hq, _⟩
      · rw [hroot] at heq
        cases heq
        exact absurd rfl hne
      · cases hq
    | some p =>
      obtain ⟨hp, hmem⟩ := hl.mem_children hpart
      refine ⟨p, hp, hl.parent?_eq hp hmem, fun q hq => ?_⟩
      split
      next heq => exact List.count_eq_one_of_mem (hnodup hq) (heq ▸ hmem)
      next hne' =>
        refine List.count_eq_zero.mpr fun h => hne' ?_
        exact Option.some.inj ((hl.parent?_eq hq h).symm.trans (hl.parent?_eq hp hmem))
  · intro i hi
    obtain ⟨q, hpart⟩ := hl.exists_token hi
    cases q with
    | none =>
      rcases parent_of_mem_parts hpart with ⟨-, heq⟩ | ⟨_, _, _, _, hq, _⟩
      · rw [hroot] at heq
        cases heq
      · cases hq
    | some p =>
      obtain ⟨hp, hmem⟩ := hl.mem_children hpart
      rw [hl.tokenParent_eq hpart]
      refine ⟨hp, fun q hq => ?_⟩
      split
      next heq => exact List.count_eq_one_of_mem (hnodup hq) (heq ▸ hmem)
      next hne =>
        refine List.count_eq_zero.mpr fun h => hne ?_
        rw [← hl.tokenParent_of_mem hq h, hl.tokenParent_eq hpart]
  · intro n hn
    obtain ⟨p, k, cs, hpart⟩ := hl.exists_node hn
    have hne := (hw.conforms.part hpart).leaves_ne_nil
    rw [leaves_node] at hne
    refine ⟨_, hl.hasLeaves hpart, ?_, ?_⟩
    · rw [firstToken, hl.data_eq hpart, dataOf, leaves_node, List.head?_eq_some_head hne]
      rfl
    · rw [lastToken, hl.data_eq hpart, dataOf, leaves_node, List.getLast?_eq_some_getLast hne]
      rfl

end Whole

end Tree

/-- **Every source that parses has a well-formed tree, and the tree writes the source out.** -/
theorem parse_wellFormed {source : String} {t : Tree} (h : parse source = .ok t) :
    t.WellFormed ∧ t.source = source ∧ t.codegen = source := by
  obtain ⟨tokens, s, b, htokens, hts, hw, rfl, hl⟩ := Grammar.exists_whole_of_parse h
  exact ⟨.of_whole hts hw hl, rfl, (lossless_of_tokenize htokens).render⟩

/-- The tree of a class without members. -/
theorem parse_class_wellFormed : ∃ t, parse "class C { }" = .ok t ∧
    t.WellFormed ∧ t.source = "class C { }" ∧ t.codegen = "class C { }" := by
  have hok : (parse "class C { }").toOption.isSome = true := by decide +kernel
  cases h : parse "class C { }" with
  | error e =>
    rw [h] at hok
    cases hok
  | ok t => exact ⟨t, rfl, parse_wellFormed h⟩

end CodeMend
