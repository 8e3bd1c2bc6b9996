import CodeMend.Proofs.Tree.Places
import Mathlib.Data.List.Pairwise

/-!
# CodeMend — nodes above other nodes

Of two nodes of a tree, one is above the other, or one ends in front of the other.  A walk that
visits a node before the nodes under it comes to the nodes in the order of their first tokens, and
of those that start together it comes to the longest first.  Whether a node stands above another one
is a question to the list of the nodes above it; in a parsed tree it asks for a way up.

* **`InOrder.nested_or_apart`** — of two nodes, one is above the other, or they are apart.
* **`InOrder.exists_rises_of_token`** — a token between the ends of a node hangs under it.
* **`InOrder.pairwise_ids`** — what holds of a node and those visited later.
* **`InOrder.descendants_pairwise`**, **`InOrder.nodup_descendants`** — the order in which the nodes
  under a node are visited, each once.
* **`isAncestor_iff`**, **`under_iff`** — a node is above another one if a way leads up to it.
* **`child_unique`** — a node is under at most one child of another.
* **`exists_rises_ancestors`** — the nodes above a node are a way up.
* **`Rises.ancestors_append`** — they go on with those above one of them.
* **`InOrder.pairwise_descendants`** — no node is visited in front of one above it.
* **`mem_front_of_ancestor`** — when a walk through the tree comes to a node, it has been at all
  nodes above it.
-/

namespace CodeMend.Tree

/-- The node is another one, or stands under it. -/
def under (t : Tree) (n a : NodeId) : Bool := n == a || t.isAncestor a n

section Nesting

open Shape

variable {t : Tree} {a b m n r : NodeId} {i : TokenId} {ms ns : List NodeId}

/-! ## Two nodes

The nodes of a tree are nested as the stretches of tokens that they span. -/

/-- Two children of a node stand one after the other. -/
theorem InOrder.apart_of_ne (h : InOrder t) {c d : Child} (hc : c ∈ t.children n)
    (hd : d ∈ t.children n) (hne : c ≠ d) :
    t.lastOf c < t.firstOf d ∨ t.lastOf d < t.firstOf c := by
  have hsymm : Std.Symm fun c d => t.lastOf c < t.firstOf d ∨ t.lastOf d < t.firstOf c :=
    ⟨fun _ _ => Or.symm⟩
  have hpairs : (t.children n).Pairwise fun c d =>
      t.lastOf c < t.firstOf d ∨ t.lastOf d < t.firstOf c := (h.children_pairwise n).imp Or.inl
  exact hpairs.forall hc hd hne

/-- **Of two nodes, one is above the other, or they stand one after the other.** -/
theorem InOrder.nested_or_apart (h : InOrder t) (ha : Rises t a ns r) (hb : Rises t b ms r) :
    (∃ ks, Rises t a ks b) ∨ (∃ ks, Rises t b ks a) ∨
      t.lastToken a < t.firstToken b ∨ t.lastToken b < t.firstToken a := by
  induction ha with
  | here => exact .inr (.inl ⟨ms, hb⟩)
  | @up a p ns r hp hrises ih =>
    obtain ⟨hfirst, hlast⟩ := h.child_tokens_le hp
    rcases ih hb with ⟨ks, hbelow⟩ | ⟨ks, habove⟩ | hapart | hapart
    · exact .inl ⟨p :: ks, .up hp hbelow⟩
    · rcases habove.eq_or_child with rfl | ⟨d, hd, ks, hrises'⟩
      · exact .inl ⟨[b], .up hp (.here b)⟩
      by_cases had : a = d
      · subst had
        exact .inr (.inl ⟨ks, hrises'⟩)
      · obtain ⟨hfirst', hlast'⟩ := hrises'.tokens_le h
        have hne : Child.node a ≠ .node d := fun heq => had (Child.node.inj heq)
        rcases h.apart_of_ne (mem_childNodes_iff.mp hp) (mem_childNodes_iff.mp hd) hne with
          hlt | hlt
        · exact .inr (.inr (.inl (Nat.lt_of_lt_of_le hlt hfirst')))
        · exact .inr (.inr (.inr (Nat.lt_of_le_of_lt hlast' hlt)))
    · exact .inr (.inr (.inl (Nat.lt_of_le_of_lt hlast hapart)))
    · exact .inr (.inr (.inr (Nat.lt_of_lt_of_le hapart hfirst)))

/-- **A token between the ends of a node hangs under it.** -/
theorem InOrder.exists_rises_of_token (h : InOrder t) (hn : n < t.nodeCount)
    (hi : .token i ∈ t.children m) (hfirst : t.firstToken n ≤ i) (hlast : i ≤ t.lastToken n) :
    ∃ ks, Rises t m ks n := by
  obtain ⟨ms, hm⟩ := h.parsed.exists_rises_root (lt_nodeCount_of_mem_children hi)
  obtain ⟨ns, hn⟩ := h.parsed.exists_rises_root hn
  obtain ⟨hfirst', hlast'⟩ : t.firstToken m ≤ i ∧ i ≤ t.lastToken m := h.child_ends_le hi
  rcases h.nested_or_apart hm hn with hbelow | ⟨ks, habove⟩ | hapart | hapart
  · exact hbelow
  · rcases habove.eq_or_child with rfl | ⟨d, hd, ls, hrises⟩
    · exact ⟨[], .here n⟩
    -- a child with the node under it does not reach over a token beside it
    obtain ⟨hd₁, hd₂⟩ := hrises.tokens_le h
    rcases h.apart_of_ne hi (mem_childNodes_iff.mp hd) (by simp) with hlt | hlt
    · exact absurd (Nat.le_trans hd₁ hfirst) (Nat.not_le.mpr hlt)
    · exact absurd (Nat.le_trans hlast hd₂) (Nat.not_le.mpr hlt)
  · exact absurd (Nat.le_trans hfirst hlast') (Nat.not_le.mpr hapart)
  · exact absurd (Nat.le_trans hfirst' hlast) (Nat.not_le.mpr hapart)

/-- Behind the last token of a node other than the root, the end of the file follows at the
earliest. -/
theorem InOrder.lastToken_add_one_lt (h : InOrder t) (hn : n < t.nodeCount) (hne : n ≠ root) :
    t.lastToken n + 1 < t.tokens.size := by
  obtain ⟨members, hroot⟩ := h.parsed.wellFormed.root_children
  obtain ⟨ns, hrises⟩ := h.parsed.exists_rises_root hn
  obtain ⟨c, hc, ms, hrises⟩ := hrises.eq_or_child.resolve_left hne
  have hend : Child.token (t.tokens.size - 1) ∈ t.children root := hroot ▸ by simp
  have hlast := (hrises.tokens_le h).2
  rcases h.apart_of_ne (mem_childNodes_iff.mp hc) hend (by simp) with hlt | hlt
  · change t.lastToken c < t.tokens.size - 1 at hlt
    exact Nat.add_lt_of_lt_sub (Nat.lt_of_le_of_lt hlast hlt)
  · change t.tokens.size - 1 < t.firstToken c at hlt
    have hends := h.firstToken_le_lastToken c
    exact absurd (Nat.le_sub_one_of_lt (Nat.lt_of_le_of_lt hends.1 hends.2)) (Nat.not_le.mpr hlt)

/-- A node that hangs under another one ends in front of the end of the file. -/
theorem InOrder.lastToken_add_one_lt_of_child (h : InOrder t) {p : NodeId}
    (hn : n ∈ t.childNodes p) : t.lastToken n + 1 < t.tokens.size := by
  have hwf := h.parsed.wellFormed
  obtain ⟨hp, hlt, hmem⟩ := hwf.lt_of_mem hn
  refine h.lastToken_add_one_lt hlt ?_
  rintro rfl
  exact hwf.root_notMem p hp hmem

/-- A node other than the whole file ends in front of the end of the file. -/
theorem lastToken_add_one_lt {source : String} (h : parse source = .ok t)
    (hk : t.kind n ≠ .compilationUnit) : t.lastToken n + 1 < t.tokens.size := by
  refine (inOrder_of_parse h).lastToken_add_one_lt (lt_nodeCount_of_kind hk) ?_
  rintro rfl
  exact hk (kind_root_of_parse h)

/-! ## The order of a walk

A walk from the root lists a node in front of all that is under it, and so by where nodes begin. -/

/-- The node starts in front of the other one, or starts with it and reaches as far at least. -/
def Leads (t : Tree) (n m : NodeId) : Prop :=
  t.firstToken n ≤ t.firstToken m ∧
    (t.firstToken n = t.firstToken m → t.lastToken m ≤ t.lastToken n)

/-- The nodes of a shape lead up to its root. -/
theorem Stands.exists_rises {s : Shape} (hs : Stands t s) (hm : m ∈ s.ids) :
    ∃ id k cs ns, s = .node id k cs ∧ Rises t m ns id := by
  induction hs with
  | token i => simp at hm
  | @node id k cs _ _ hchildren _ hall ih =>
    rw [ids_node, List.mem_cons] at hm
    rcases hm with rfl | hm
    · exact ⟨m, k, cs, [], rfl, .here m⟩
    obtain ⟨s, hs, hm⟩ := mem_idsOfList_iff.mp hm
    obtain ⟨c, k', ds, ns, rfl, hrises⟩ := ih s hs hm
    have hc : c ∈ t.childNodes id := by
      rw [mem_childNodes_iff, hchildren]
      exact List.mem_map_of_mem hs
    exact ⟨id, k, cs, ns ++ [id], rfl, hrises.append (.up hc (.here id))⟩

/-- The nodes of a shape stand in a relation, each to the ones visited later, that holds of a node
and one under it and of nodes of which one starts behind the other one. -/
theorem InOrder.pairwise_ids (h : InOrder t) {R : NodeId → NodeId → Prop}
    (hunder : ∀ {n m ns}, Rises t m ns n → ns ≠ [] → R n m)
    (hbehind : ∀ {n m}, t.lastToken n < t.firstToken m → R n m) {s : Shape} (hs : Stands t s) :
    s.ids.Pairwise R := by
  induction hs with
  | token i => simp
  | @node id k cs hlt hkind hchildren hword hall ih =>
    have hpairs := h.children_pairwise id
    rw [hchildren, List.pairwise_map] at hpairs
    rw [ids_node, List.pairwise_cons]
    constructor
    · intro m hm
      obtain ⟨s, hs, hm⟩ := mem_idsOfList_iff.mp hm
      obtain ⟨c, _, _, ns, rfl, hrises⟩ := (hall s hs).exists_rises hm
      have hc : c ∈ t.childNodes id := by
        rw [mem_childNodes_iff, hchildren]
        exact List.mem_map_of_mem hs
      exact hunder (hrises.append (.up hc (.here id))) (by simp)
    · clear hchildren hword
      induction cs with
      | nil => simp
      | cons s cs ihs =>
        obtain ⟨hs, hcs⟩ := List.forall_mem_cons.mp hall
        obtain ⟨ihs', ihcs⟩ := List.forall_mem_cons.mp ih
        obtain ⟨hfront, hpairs⟩ := List.pairwise_cons.mp hpairs
        rw [idsOfList_cons, List.pairwise_append]
        refine ⟨ihs', ihs hcs ihcs hpairs, fun n hn m hm => hbehind ?_⟩
        -- what stands under one child ends in front of what stands under a later one
        obtain ⟨s', hs', hm⟩ := mem_idsOfList_iff.mp hm
        obtain ⟨c, _, _, _, rfl, hn'⟩ := hs.exists_rises hn
        obtain ⟨d, _, _, _, rfl, hm'⟩ := (hcs _ hs').exists_rises hm
        calc t.lastToken n
          _ ≤ t.lastToken c := (hn'.tokens_le h).2
          _ < t.firstToken d := hfront _ hs'
          _ ≤ t.firstToken m := (hm'.tokens_le h).1

theorem InOrder.ids_pairwise (h : InOrder t) {s : Shape} (hs : Stands t s) :
    s.ids.Pairwise t.Leads := by
  refine h.pairwise_ids (fun {n m ns} hrises _ => ?_) (fun {n m} hlt => ?_) hs
  · obtain ⟨hfirst, hlast⟩ := hrises.tokens_le h
    exact ⟨hfirst, fun _ => hlast⟩
  · have hlt := Nat.lt_of_le_of_lt (h.firstToken_le_lastToken n).1 hlt
    exact ⟨Nat.le_of_lt hlt, fun heq => absurd heq (Nat.ne_of_lt hlt)⟩

/-- **The nodes under a node are visited in the order of their first tokens**, and of those that
start together the longest comes first. -/
theorem InOrder.descendants_pairwise (h : InOrder t) (hn : n < t.nodeCount) :
    (t.descendants n).Pairwise t.Leads := by
  obtain ⟨cs, hs, heq⟩ := h.parsed.exists_descendants hn
  have hpairs := h.ids_pairwise hs
  rw [ids_node, List.pairwise_cons] at hpairs
  exact heq ▸ hpairs.2

theorem InOrder.nodup_ids (h : InOrder t) {s : Shape} (hs : Stands t s) : s.ids.Nodup := by
  refine h.pairwise_ids (fun {n m ns} hrises hne => ?_) (fun {n m} hlt => ?_) hs
  · -- a node under itself would close a circle of children
    rintro rfl
    exact hne (hrises.eq_nil h.parsed)
  · rintro rfl
    exact absurd hlt (Nat.not_lt.mpr (h.firstToken_le_lastToken n).1)

/-- **No node is visited twice.** -/
theorem InOrder.nodup_descendants (h : InOrder t) (hn : n < t.nodeCount) :
    (t.descendants n).Nodup := by
  obtain ⟨cs, hs, heq⟩ := h.parsed.exists_descendants hn
  have hnodup := h.nodup_ids hs
  rw [ids_node, List.nodup_cons] at hnodup
  exact heq ▸ hnodup.2

end Nesting

/-! ## The list of the nodes above

The list of the nodes above is computed by following parents.  Since no way up is longer than the
tree has nodes, it ends at the root. -/

variable {t : Tree} {n m a b c d : NodeId} {ns : List NodeId}

theorem isAncestor_iff (hp : Parsed t) :
    t.isAncestor a n = true ↔ ∃ p ns, Rises t n (p :: ns) a := by
  rw [isAncestor, List.contains_iff_mem]
  constructor
  · intro ha
    rw [ancestors] at ha
    cases hsize : t.nodes.size with
    | zero =>
      rw [hsize] at ha
      cases ha
    | succ fuel =>
      rw [hsize, ancestorsFrom] at ha
      split at ha
      case h_1 p hparent =>
        obtain ⟨ns, hrises⟩ := hp.wellFormed.exists_rises_of_mem ha
        exact ⟨p, ns, .up (hp.wellFormed.mem_childNodes_of_parent? hparent) hrises⟩
      case h_2 => cases ha
  · rintro ⟨p, ns, hrises⟩
    obtain ⟨rest, hrest⟩ := hrises.ancestors_eq hp
    cases hrises with
    | up hc h => exact hrest ▸ List.mem_append_left _ h.mem

theorem under_iff (hp : Parsed t) : t.under n a = true ↔ ∃ ns, Rises t n ns a := by
  rw [under, Bool.or_eq_true, beq_iff_eq, isAncestor_iff hp]
  constructor
  · rintro (rfl | ⟨p, ns, h⟩)
    · exact ⟨[], .here n⟩
    · exact ⟨p :: ns, h⟩
  · rintro ⟨ns, h⟩
    cases h with
    | here => exact .inl rfl
    | @up _ p ns _ hc h => exact .inr ⟨p, ns, .up hc h⟩

theorem under_of_child (hp : Parsed t) (hc : c ∈ t.childNodes a) (h : t.under n c = true) :
    t.under n a = true := by
  obtain ⟨ns, hrises⟩ := (under_iff hp).mp h
  exact (under_iff hp).mpr ⟨_, hrises.append (.up hc (.here a))⟩

/-- No node is under a node that it lists. -/
theorem not_rises_child (hp : Parsed t) (hc : c ∈ t.childNodes a) : ¬ Rises t a ns c := by
  intro h
  have hcycle := (h.append (.up hc (.here a))).eq_nil hp
  exact absurd hcycle (by simp)

/-- Of two nodes that a node lists, at most one has another node under it. -/
theorem child_unique (hp : Parsed t) (hc : c ∈ t.childNodes a) (hd : d ∈ t.childNodes a)
    (hnc : t.under n c = true) (hnd : t.under n d = true) : c = d := by
  obtain ⟨ns, hnc⟩ := (under_iff hp).mp hnc
  obtain ⟨ms, hnd⟩ := (under_iff hp).mp hnd
  have hsame {c d : NodeId} {ks : List NodeId} (hc : c ∈ t.childNodes a) (hd : d ∈ t.childNodes a)
      (h : Rises t c ks d) : c = d := by
    cases h with
    | here => rfl
    | up hc' h =>
      obtain rfl := hp.wellFormed.parent_unique hc hc'
      exact absurd h (not_rises_child hp hd)
  -- Both are on the way up from the one node, so one of them is above the other.
  rcases hnc.total hp.wellFormed hnd with ⟨ks, h⟩ | ⟨ks, h⟩
  · exact hsame hc hd h
  · exact (hsame hd hc h).symm

theorem ancestorsFrom_root (ht : t.WellFormed) (fuel : Nat) : t.ancestorsFrom fuel root = [] := by
  cases fuel with
  | zero => rfl
  | succ fuel => rw [ancestorsFrom, ht.root_parent]

/-- A way up to the root passes through all nodes above its start. -/
theorem Rises.ancestors_eq_of_root (h : Rises t n ns root) (hp : Parsed t) :
    t.ancestors n = ns := by
  have hancestors := h.ancestorsFrom_eq hp.wellFormed (Nat.le_of_lt (h.length_lt hp))
  rwa [ancestorsFrom_root hp.wellFormed, List.append_nil] at hancestors

/-- The nodes above a node lead up from it. -/
theorem exists_rises_ancestors (hp : Parsed t) (n : NodeId) :
    ∃ top, Rises t n (t.ancestors n) top := by
  by_cases hn : n < t.nodeCount
  · obtain ⟨ns, hrises⟩ := hp.exists_rises_root hn
    exact ⟨root, hrises.ancestors_eq_of_root hp ▸ hrises⟩
  · -- No node of the tree lists a node that is not in it.
    have hnil (fuel : Nat) : t.ancestorsFrom fuel n = [] := by
      cases fuel with
      | zero => rfl
      | succ fuel =>
        rw [ancestorsFrom]
        split
        case h_1 p hparent =>
          exact absurd (hp.wellFormed.lt_of_mem
            (hp.wellFormed.mem_childNodes_of_parent? hparent)).2.1 hn
        case h_2 => rfl
    exact ⟨n, by rw [ancestors, hnil]; exact .here n⟩

/-- A node on the way up divides it. -/
theorem Rises.split {pre post : List NodeId}
    (h : Rises t n (pre ++ a :: post) b) : Rises t n (pre ++ [a]) a ∧ Rises t a post b := by
  induction pre generalizing n with
  | nil =>
    cases h with
    | up hc h => exact ⟨.up hc (.here a), h⟩
  | cons m pre ih =>
    cases h with
    | up hc h => exact ⟨.up hc (ih h).1, (ih h).2⟩

theorem isAncestor_of_rises (hp : Parsed t) {pre : List NodeId}
    (h : Rises t n (pre ++ [a]) a) : t.isAncestor a n = true := by
  obtain ⟨p, ms, hcons⟩ := List.exists_cons_of_ne_nil (List.append_ne_nil_of_right_ne_nil pre
    (List.cons_ne_nil a []))
  exact (isAncestor_iff hp).mpr ⟨p, ms, hcons ▸ h⟩

theorem not_isAncestor_self (hp : Parsed t) : t.isAncestor n n = false := by
  by_contra h
  obtain ⟨p, ms, hrises⟩ := (isAncestor_iff hp).mp (by simpa using h)
  exact absurd (hrises.eq_nil hp) (by simp)

theorem isAncestor_trans (hp : Parsed t) (ha : t.isAncestor a n = true)
    (hb : t.isAncestor b a = true) : t.isAncestor b n = true := by
  obtain ⟨p, ms, ha⟩ := (isAncestor_iff hp).mp ha
  obtain ⟨q, ks, hb⟩ := (isAncestor_iff hp).mp hb
  exact (isAncestor_iff hp).mpr ⟨p, ms ++ q :: ks, ha.append hb⟩

/-- A node above another one has a child that the other one is under. -/
theorem exists_child_of_isAncestor (hp : Parsed t) (h : t.isAncestor a n = true) :
    ∃ c ∈ t.childNodes a, t.under n c = true := by
  obtain ⟨p, ms, hrises⟩ := (isAncestor_iff hp).mp h
  rcases hrises.eq_or_child with rfl | ⟨c, hc, ks, hc'⟩
  · exact absurd h (by simp [not_isAncestor_self hp])
  · exact ⟨c, hc, (under_iff hp).mpr ⟨ks, hc'⟩⟩

/-- **The nodes above a node go on with those above one of them.** -/
theorem Rises.ancestors_append (h : Rises t n ns a) (hp : Parsed t) :
    t.ancestors n = ns ++ t.ancestors a := by
  by_cases hn : n < t.nodeCount
  · obtain ⟨ms, hroot⟩ := hp.exists_rises_root (h.lt_nodeCount hn hp.wellFormed)
    rw [hroot.ancestors_eq_of_root hp, (h.append hroot).ancestors_eq_of_root hp]
  · cases h with
    | here => rfl
    | up hc _ => exact absurd (hp.wellFormed.lt_of_mem hc).2.1 hn

/-! ## Walks

Both orders are compared. -/

/-- **No node is visited in front of one above it.** -/
theorem InOrder.pairwise_descendants (h : InOrder t) (hn : n < t.nodeCount) :
    (t.descendants n).Pairwise fun n m => t.isAncestor m n = false := by
  obtain ⟨cs, hs, heq⟩ := h.parsed.exists_descendants hn
  have hpairs : (Shape.node n (t.kind n) cs).ids.Pairwise fun n m => t.isAncestor m n = false := by
    refine h.pairwise_ids (fun {n m ns} hrises hne => ?_) (fun {n m} hlt => ?_) hs
    · obtain ⟨p, ms, rfl⟩ := List.exists_cons_of_ne_nil hne
      have habove := (isAncestor_iff h.parsed).mpr ⟨p, ms, hrises⟩
      by_contra hcircle
      have hself := isAncestor_trans h.parsed habove (by simpa using hcircle)
      rw [not_isAncestor_self h.parsed] at hself
      cases hself
    · by_contra habove
      obtain ⟨p, ms, hrises⟩ := (isAncestor_iff h.parsed).mp (by simpa using habove)
      have hle : t.firstToken m ≤ t.lastToken n :=
        Nat.le_trans (hrises.tokens_le h).1 (h.firstToken_le_lastToken n).1
      exact absurd hlt (Nat.not_lt.mpr hle)
  rw [Shape.ids_node, List.pairwise_cons] at hpairs
  exact heq ▸ hpairs.2

/-- **When a walk through the tree comes to a node, it has been at all nodes above it.** -/
theorem mem_front_of_ancestor {source : String} (h : parse source = .ok t)
    {front back : List NodeId} (hwalk : t.descendants root = front ++ n :: back)
    (ha : a ∈ t.ancestors n) (hk : t.kind a ≠ .compilationUnit) : a ∈ front := by
  have hin := inOrder_of_parse h
  have hp := hin.parsed
  have hmem := mem_descendants_root h hk
  have habove : t.isAncestor a n = true := by
    obtain ⟨top, hrises⟩ := exists_rises_ancestors hp n
    obtain ⟨pre, post, hsplit⟩ := List.append_of_mem ha
    rw [hsplit] at hrises
    exact isAncestor_of_rises hp hrises.split.1
  have hpairs := hin.pairwise_descendants hp.wellFormed.root_lt
  rw [hwalk] at hmem hpairs
  rcases List.mem_append.mp hmem with hfront | hrest
  · exact hfront
  rcases List.mem_cons.mp hrest with rfl | hback
  · rw [not_isAncestor_self hp] at habove
    cases habove
  · have hlater := (List.pairwise_cons.mp (List.pairwise_append.mp hpairs).2.1).1 a hback
    rw [habove] at hlater
    cases hlater

end CodeMend.Tree
