import CodeMend.Proofs.Grammar.Declarations
import CodeMend.Proofs.Token.Lossless

/-!
# CodeMend — what a parse builds

The rules over rules that keep the contract keep it, so they do at every depth.  The shape of a
whole file holds every token of it, and the tree that was built meanwhile is laid out as that shape.

* **`sound_rulesOfDepth`** — by induction on the depth; each nonterminal has its lemma.
* **`Whole`** — what the shape of a source is like.
* **`laid_of_compilationUnit`** — the tree that a reader of a file has built is laid out as the
  shape that it returns.
* **`exists_whole_of_parse`** — a source that parses has a tree that is laid out as such a shape.
-/

namespace CodeMend

open Production Shape

/-! ## The ends of a shape

A builder tells the first token of a node by its first child and the last one by its last child.  In
a shape of the grammar every node has a child, so that these are the ends of its leaves. -/

namespace Production

/-- A part of a shape of the grammar is one. -/
theorem Conforms.part {ts : Array Token} {s c : Shape} {p q : Option NodeId}
    (h : Conforms ts s) (hc : (q, c) ∈ s.parts p) : Conforms ts c := by
  induction h generalizing p with
  | token i =>
    obtain ⟨rfl, rfl⟩ := Prod.mk.inj (List.mem_singleton.mp (parts_token p i ▸ hc))
    exact .token i
  | node id k cs hcs hall ih =>
    rw [parts_node, List.mem_cons] at hc
    rcases hc with hc | hc
    · obtain ⟨rfl, rfl⟩ := Prod.mk.inj hc
      exact .node id k cs hcs hall
    · obtain ⟨s, hs, hc⟩ := mem_partsOfList_iff.mp hc
      exact ih s hs hc

theorem ends_of_list {cs : List Shape} (hne : cs ≠ [])
    (h : ∀ s ∈ cs, s.leaves.head? = some s.first ∧ s.leaves.getLast? = some s.last) :
    (leavesOfList cs).head? = some (firstOfList cs) ∧
      (leavesOfList cs).getLast? = some (lastOfList 0 cs) := by
  constructor
  · obtain ⟨c, cs, rfl⟩ := List.exists_cons_of_ne_nil hne
    rw [leavesOfList_cons, List.head?_append, (h c List.mem_cons_self).1, firstOfList]
    rfl
  · obtain ⟨cs, c, rfl⟩ := (List.eq_nil_or_concat' cs).resolve_left hne
    rw [leavesOfList_append, leavesOfList_cons, leavesOfList_nil, List.append_nil,
      List.getLast?_append, (h c (by simp)).2, lastOfList_eq]
    simp

/-- The first and the last leaf of a shape are the tokens that a builder finds. -/
theorem Conforms.ends {ts : Array Token} {s : Shape} (h : Conforms ts s) :
    s.leaves.head? = some s.first ∧ s.leaves.getLast? = some s.last := by
  induction h with
  | token i => simp [first, last]
  | node id k cs hcs hall ih =>
    have hne : cs ≠ [] := fun h => nil_notMem_production ts k (h ▸ hcs)
    rw [leaves_node, first, last]
    exact ends_of_list hne ih

end Production

namespace Grammar

open CodeMend.Parser

/-! ## Rules of any depth

The contract of the rules is kept by one step of each rule, and so holds of rules of any depth. -/

/-- **One step of the rules keeps the contract.** -/
theorem sound_rule {ts : Array Token} {rules : Rules} (hts : Ended ts) (hr : Sound ts rules) :
    Sound ts (rule rules) := by
  intro n nt htakes
  cases nt with
  | type nullable => exact makes_type hts hr nullable
  | expression => exact makes_expression hts hr
  | coalesce => exact Yields.mono (makes_coalesce hts hr) (fun _ h => h) fun _ hs => hs.1
  | unary => exact Yields.mono (makes_unary hts hr) (fun _ h => h) fun _ hs => hs.1
  | operators cp operand =>
    obtain ⟨rfl, hexpr, hconforms⟩ := htakes
    have hoperand : IsOperand ts 0 operand := ⟨hexpr, Nat.zero_le _⟩
    exact Yields.mono (makes_operators hts hr (Nat.zero_le _) hoperand hconforms) (fun _ h => h)
      fun _ hs => hs.1
  | initializer => exact makes_initializer hts hr
  | pattern => exact makes_pattern hts hr
  | statement => exact makes_statement hts hr
  | block => exact makes_block hts hr
  | member => exact makes_member hts hr
  | namespaceMember => exact makes_namespaceMember hts hr

theorem sound_rulesOfDepth {ts : Array Token} (hts : Ended ts) (depth : Nat) :
    Sound ts (rulesOfDepth depth) := by
  induction depth with
  | zero => exact fun _ _ _ => Yields.tooDeep
  | succ depth ih => exact sound_rule hts ih

/-! ## Whole files

The members of a file stop in front of the token that ends it.  That one is added by itself, as it
is never left behind, and then the node of the file is ended, under which all others stand. -/

/-- The shape of a file: its root holds the end of the file as its last child, the leaves are the
tokens in order, and the nodes bear the numbers from zero on, each once. -/
structure Whole (ts : Array Token) (s : Shape) : Prop where
  conforms : Conforms ts s
  root : ∃ members, s = .node 0 .compilationUnit (members ++ [.token (ts.size - 1)])
  leaves_eq : s.leaves = List.range ts.size
  ids_perm : s.ids.Perm (List.range s.ids.length)

/-- Where a file is read: nothing is built yet. -/
def atStart (ts : Array Token) : Cursor := ⟨ts, 0, .ofTokens ts.size⟩

/-- Where the members of a file are read: its node is open. -/
def inFile (ts : Array Token) : Cursor :=
  ⟨ts, 0, (TreeBuilder.ofTokens ts.size).startNode .compilationUnit⟩

/-- The members of a file and the token that the reader stops at make up its root. -/
theorem exists_members_of_compilationUnit {ts : Array Token} {rules : Rules} {s : Shape}
    {c' : Cursor} (h : compilationUnit rules (atStart ts) = .ok (s, c')) :
    ∃ members c, manyWhile (fun c => !c.atEnd) (one (namespaceMember rules)) (inFile ts) =
      .ok (members, c) ∧ s = .node 0 .compilationUnit (members ++ [.token c.pos]) ∧
      c'.builder = (c.builder.token c.pos).finishNode := by
  obtain ⟨cs, c₁, hbody, rfl, rfl⟩ := exists_of_nodeSince h
  obtain ⟨members, c₂, hmembers, h⟩ := bind_eq_ok hbody
  obtain ⟨last, c₃, hlast, h⟩ := bind_eq_ok h
  cases h
  obtain ⟨_, c₄, hlast, h⟩ := bind_eq_ok hlast
  cases hlast
  cases h
  exact ⟨members, _, hmembers, rfl, rfl⟩

/-- What the members of a file are like: they are read up to the last token. -/
structure Members (ts : Array Token) (members : List Shape) (c : Cursor) : Prop where
  built : HasBuilt c [⟨0, .compilationUnit, members⟩]
  tokens_eq : c.tokens = ts
  pos_eq : c.pos + 1 = ts.size
  leaves_eq : leavesOfList members = List.range c.pos
  ids_perm : (0 :: idsOfList members).Perm (List.range c.builder.nodes.size)
  conforms : ∀ s ∈ members, Conforms ts s

theorem members_of_manyWhile {ts : Array Token} {rules : Rules} (hts : Ended ts)
    (hr : Sound ts rules) {members : List Shape} {c : Cursor}
    (h : manyWhile (fun c => !c.atEnd) (one (namespaceMember rules)) (inFile ts) =
      .ok (members, c)) : Members ts members c := by
  have hread : Reads ts 0 anywhere []
      (manyWhile (fun c => !c.atEnd) (one (namespaceMember rules)))
      (KStar.kstar (part fun _ => True)) :=
    Reads.manyWhile (makes_namespaceMember hts hr).one
  have hbuilt : HasBuilt (inFile ts) [⟨0, .compilationUnit, []⟩] :=
    ⟨TreeBuilder.represents_first _ _, by simp [inFile, TreeBuilder.ofTokens, TreeBuilder.startNode,
      TreeBuilder.alloc]⟩
  obtain ⟨hbuilt', hc, hadds, -, hall⟩ :=
    hread ⟨0, .compilationUnit, []⟩ [] _ _ _ rfl hbuilt ⟨rfl, hts.size_pos⟩ trivial h
  -- the members stop at the end of the file, which is the last token
  have hpos : c.pos + 1 = ts.size := by
    have hend : c.current.kind = .endOfFile := by
      simpa [Cursor.atEnd] using at?_eq_false_of_manyWhile h
    rw [Cursor.current, hc.tokens_eq, hts.kind_eq_iff] at hend
    have hlt := hc.pos_lt
    omega
  refine ⟨hbuilt', hc.tokens_eq, hpos, ?_, ?_, hall⟩
  · simpa [List.range_eq_range', inFile] using hadds.leaves_eq
  · have hsize : (inFile ts).builder.nodes.size = 1 := rfl
    have hle := hadds.size_le
    have hperm := hadds.ids_perm
    rw [hsize] at hle hperm
    have hsucc : c.builder.nodes.size = (c.builder.nodes.size - 1) + 1 := by omega
    rw [hsucc, List.range_eq_range', List.range'_succ]
    simpa using hperm

/-- A file is read to its end. -/
theorem whole_of_compilationUnit {ts : Array Token} {rules : Rules} (hts : Ended ts)
    (hr : Sound ts rules) {s : Shape} {c' : Cursor}
    (h : compilationUnit rules (atStart ts) = .ok (s, c')) : Whole ts s := by
  obtain ⟨members, c, hmembers, rfl, -⟩ := exists_members_of_compilationUnit h
  have hm := members_of_manyWhile hts hr hmembers
  have hlength : (idsOfList members).length + 1 = c.builder.nodes.size := by
    simpa using hm.ids_perm.length_eq
  have hsize : ts.size - 1 = c.pos := by
    have hpos := hm.pos_eq
    omega
  refine ⟨?_, ⟨members, by rw [hsize]⟩, ?_, ?_⟩
  · refine .node _ _ _ (List.append_ne_nil_of_right_ne_nil _ (List.cons_ne_nil _ _)) ?_
    exact conforms_append hm.conforms (by simpa using Conforms.token c.pos)
  · rw [leaves_node, leavesOfList_append, hm.leaves_eq, ← hm.pos_eq, List.range_succ]
    simp
  · simpa [hlength] using hm.ids_perm

/-- **What was built while a file was read is laid out as its shape.** -/
theorem laid_of_compilationUnit {ts : Array Token} {rules : Rules} (hts : Ended ts)
    (hr : Sound ts rules) {s : Shape} {c' : Cursor}
    (h : compilationUnit rules (atStart ts) = .ok (s, c')) (source : String) :
    Tree.Laid (c'.builder.finish source ts) s := by
  have hw := whole_of_compilationUnit hts hr h
  obtain ⟨members, c, hmembers, rfl, hbuilder⟩ := exists_members_of_compilationUnit h
  have hm := members_of_manyWhile hts hr hmembers
  have hlt : c.pos < c.builder.tokenParents.size := by
    rw [hm.built.size_eq, hm.tokens_eq, ← hm.pos_eq]
    exact Nat.lt_succ_self _
  have hlast := hm.built.represents.token hlt
  -- The file is the node that was begun first, so no other one is open when it is ended.
  have hclosed : c'.builder.opened = [] := hbuilder ▸ hlast.sizes_finishNode.1
  have hsize : c'.builder.nodes.size = c.builder.nodes.size := by
    rw [hbuilder, TreeBuilder.size_finishNode, TreeBuilder.size_token]
  rw [TreeBuilder.finish, hclosed, List.foldl_nil]
  refine Tree.laid_of_tells ?_ hw.leaves_eq ?_ fun {p id k cs} hpart => ?_
  · rw [hbuilder]
    exact hlast.tells_finishNode
  · rw [hsize]
    simpa using hm.ids_perm
  · cases hw.conforms.part hpart with
    | node _ _ _ hcs hall =>
      have hne : cs ≠ [] := fun h => nil_notMem_production ts k (h ▸ hcs)
      obtain ⟨hfirst, hlast⟩ := ends_of_list hne fun s hs => (hall s hs).ends
      rw [hfirst, hlast]
      exact ⟨rfl, rfl⟩

/-! ## Sources

The contract of the rule for files, for the tokens of a source. -/

/-- The tokens of a source end with the mark of its end. -/
theorem ended_of_tokenize {source : String} {tokens : List Token}
    (h : tokenize source = .ok tokens) : Ended tokens.toArray := by
  obtain ⟨front, last, rfl, hlast, hfront⟩ := (lossless_of_tokenize h).ends
  refine ⟨by simp, fun i => ?_⟩
  have htoken : tokenAt (front ++ [last]).toArray i =
      (front ++ [last])[min i front.length]?.getD Tree.noToken := by
    simp [tokenAt, Array.getD_eq_getD_getElem?]
  rw [htoken]
  rcases Nat.lt_or_ge i front.length with hlt | hge
  · rw [Nat.min_eq_left hlt.le, List.getElem?_append_left hlt, List.getElem?_eq_getElem hlt]
    have hkind := (hfront _ (List.getElem_mem hlt)).1
    simp only [Option.getD_some, hkind, false_iff, List.size_toArray, List.length_append,
      List.length_singleton]
    omega
  · rw [Nat.min_eq_right hge, List.getElem?_append_right (Nat.le_refl _)]
    simpa [hlast] using hge

/-- **A source that parses has a tree that is laid out as a whole shape.** -/
theorem exists_whole_of_parse {source : String} {t : Tree} (h : parse source = .ok t) :
    ∃ tokens s, ∃ b : TreeBuilder, tokenize source = .ok tokens ∧ Ended tokens.toArray ∧
      Whole tokens.toArray s ∧ t = ⟨source, tokens.toArray, b.nodes, b.tokenParents⟩ ∧
      Tree.Laid t s := by
  unfold parse at h
  split at h
  · cases h
  next tokens htokens =>
  split at h
  · cases h
  next s c hrun =>
  cases h
  have hts := ended_of_tokenize htokens
  have hr := sound_rulesOfDepth hts (depthFor tokens.toArray.size)
  exact ⟨tokens, s, _, htokens, hts, whole_of_compilationUnit hts hr hrun, rfl,
    laid_of_compilationUnit hts hr hrun source⟩

end Grammar

end CodeMend
