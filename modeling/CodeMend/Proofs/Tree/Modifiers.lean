import Mathlib.Data.List.Chain
import CodeMend.Patch.RefModifier
import CodeMend.Proofs.Tree.Views

/-!
# CodeMend — where modifiers stand

The word that says how a parameter or an argument is passed stands behind a mark: the bracket or the
comma of its list, the bracket of an attribute, or the colon of a label.  So it can go without
anything running together, but perhaps for a colon, and behind a label a name follows the word.

* **`Gapless`** — the leaves under a node follow one another.
* **`Gapless.lastOf_add_one`** — so do the ends of neighbouring children.
* **`Unjoined`** — a word between a mark and what may stand behind that mark.
* **`unjoined_of_parameterModifier?`**, **`unjoined_of_argumentModifier?`** — modifiers are such.
-/

namespace CodeMend.Tree

open Shape Production
open scoped Computability

variable {t : Tree} {n m : NodeId} {c d : Child} {i : TokenId}

/-! ## Neighbours

The children of a node follow one another without a token in between that is not a child. -/

/-- The leaves under a node follow one another without a gap. -/
def Gapless (t : Tree) : Prop :=
  ∀ n < t.nodeCount, ∀ l, t.HasLeaves (.node n) l → l.IsChain fun i j => j = i + 1

theorem gapless_of_parse {source : String} (h : parse source = .ok t) : Gapless t := by
  intro n hn l hleaves
  obtain ⟨tokens, s, b, -, -, hw, rfl, hl⟩ := Grammar.exists_whole_of_parse h
  obtain ⟨q, k, cs, hpart⟩ := hl.exists_node hn
  obtain rfl := hleaves.unique (hl.hasLeaves hpart)
  have hrun := leaves_infix_of_mem_parts hpart
  rw [hw.leaves_eq, List.range_eq_range'] at hrun
  obtain ⟨xs, ys, hall⟩ := hrun
  have hchain := List.isChain_range' 0 tokens.toArray.size 1
  rw [← hall] at hchain
  exact hchain.left_of_append.right_of_append

/-- **Between neighbouring children there is no token.** -/
theorem Gapless.lastOf_add_one (hg : Gapless t) (h : InOrder t) {front back : List Child}
    (hchildren : t.children n = front ++ c :: d :: back) : t.lastOf c + 1 = t.firstOf d := by
  have hmem : ∀ e ∈ [c, d], e ∈ t.children n := by
    rw [hchildren]
    simp
  have hn : n < t.nodeCount := lt_nodeCount_of_mem_children (hmem c (by simp))
  have hlt : ∀ e ∈ [c, d], ∀ m, e = .node m → m < t.nodeCount := by
    rintro e he m rfl
    exact h.parsed.wellFormed.node_lt n hn m (hmem _ he)
  obtain ⟨l, hl, -⟩ := h.exists_leaves hn
  have hchain := hg n hn l (.node n l hl)
  rw [hchildren] at hl
  obtain ⟨l₁, l₂, rfl, -, hl₂⟩ := hl.append
  cases hl₂ with
  | cons _ _ lc _ hc hrest =>
    cases hrest with
    | cons _ _ ld rest hd _ =>
      have hlast := (hc.ends h.parsed.wellFormed (hlt c (by simp))).2
      have hfirst := (hd.ends h.parsed.wellFormed (hlt d (by simp))).1
      obtain ⟨xs, rfl⟩ := List.getLast?_eq_some_iff.mp hlast
      obtain ⟨ys, rfl⟩ := List.head?_eq_some_iff.mp hfirst
      have hpair : l₁ ++ ((xs ++ [t.lastOf c]) ++ (t.firstOf d :: ys ++ rest)) =
          (l₁ ++ xs) ++ (t.lastOf c :: t.firstOf d :: (ys ++ rest)) := by simp
      rw [hpair] at hchain
      exact (List.isChain_cons_cons.mp hchain.right_of_append).1.symm

/-! ## Items

Hence the token in front of an item is a comma or the bracket of the list. -/

/-- An item stands at the start of a list or behind a comma. -/
theorem Alternates.exists_before {ns : List NodeId} {is : List TokenId} {cs : List Child}
    (h : Alternates ns is cs) (hm : m ∈ ns) :
    ∃ front back, cs = front ++ .node m :: back ∧
      (front = [] ∨ ∃ front' i, front = front' ++ [.token i] ∧ i ∈ is) := by
  induction h with
  | nil => cases hm
  | last n =>
    obtain rfl := List.mem_singleton.mp hm
    exact ⟨[], [], rfl, .inl rfl⟩
  | @more n i ns is cs h ih =>
    rcases List.mem_cons.mp hm with rfl | hm
    · exact ⟨[], .token i :: cs, rfl, .inl rfl⟩
    obtain ⟨front, back, rfl, hfront⟩ := ih hm
    refine ⟨.node n :: .token i :: front, back, rfl, .inr ?_⟩
    rcases hfront with rfl | ⟨front', j, rfl, hj⟩
    · exact ⟨[.node n], i, rfl, List.mem_cons_self⟩
    · exact ⟨.node n :: .token i :: front', j, rfl, List.mem_cons_of_mem _ hj⟩

/-- The brackets of a list are parentheses, and the file goes on behind them. -/
theorem isMark_brackets (h : InOrder t)
    (hk : t.kind n = .parameterList ∨ t.kind n = .argumentList) :
    (t.token (SeparatedList.ofNode t n).opening).isMark "(" = true ∧
      (t.token (SeparatedList.ofNode t n).close).isMark ")" = true ∧
      (SeparatedList.ofNode t n).close + 1 < t.tokens.size := by
  have hword : ∃ l cs, cs ∈ enclosed t.tokens "(" l ")" ∧ t.children n = cs.map asChild := by
    rcases hk with hk | hk
    all_goals
      obtain ⟨cs, hword, hstands⟩ := h.parsed.exists_children hk (by decide)
      cases hstands with
      | node _ _ hchildren => exact ⟨_, cs, hword, hchildren⟩
  obtain ⟨l, cs, hcs, hchildren⟩ := hword
  obtain ⟨o, mid, e, rfl, -, ho, hopening, he, hclose⟩ := exists_of_enclosed hcs
  have hfirst : t.firstToken n = o := h.firstToken_eq hchildren
  have hlast : t.lastToken n = e := by
    have hends : t.children n = (.token o :: mid.map asChild) ++ [.token e] := by
      rw [hchildren]
      simp [asChild]
    exact h.lastToken_eq hends
  rw [← token_eq_tokenAt (Nat.lt_of_succ_lt ho), ← hfirst] at hopening
  rw [← token_eq_tokenAt (Nat.lt_of_succ_lt he), ← hlast] at hclose
  rw [← hlast] at he
  exact ⟨hopening, hclose, he⟩

/-- In front of an item stands a parenthesis or a comma. -/
theorem exists_mark_before_item (h : InOrder t) (hg : Gapless t)
    (hk : t.kind n = .parameterList ∨ t.kind n = .argumentList)
    (hm : m ∈ (SeparatedList.ofNode t n).items) :
    ∃ j, j + 1 = t.firstToken m ∧
      ((t.token j).isMark "(" = true ∨ (t.token j).isMark "," = true) := by
  obtain ⟨mid, halternates, hchildren⟩ := h.exists_alternates hk
  obtain ⟨front, back, rfl, hfront⟩ := halternates.exists_before hm
  rcases hfront with rfl | ⟨front', j, rfl, hj⟩
  · have hchildren : t.children n = [] ++ .token (SeparatedList.ofNode t n).opening ::
        .node m :: (back ++ [.token (SeparatedList.ofNode t n).close]) := hchildren
    exact ⟨_, hg.lastOf_add_one h hchildren, .inl (isMark_brackets h hk).1⟩
  · have hcomma := (List.mem_filter.mp hj).2
    have hchildren : t.children n = (.token (SeparatedList.ofNode t n).opening :: front') ++
        .token j :: .node m :: (back ++ [.token (SeparatedList.ofNode t n).close]) := by
      rw [hchildren]
      simp
    exact ⟨j, hg.lastOf_add_one h hchildren, .inr hcomma⟩

/-! ## Words between marks

A word that stands between marks can be taken away without joining what stands around it. -/

/-- The word stands between a mark and what may stand behind that mark: a bracket or a comma, which
nothing carries on, or a colon with a name behind the word. -/
structure Unjoined (t : Tree) (i : TokenId) : Prop where
  before : ∃ j, j + 1 = i ∧
    ((∃ text ∈ ["(", ",", "]"], (t.token j).isMark text = true) ∨
      ((t.token j).isMark ":" = true ∧ (t.token (i + 1)).isIdentifier = true))
  lt : i + 1 < t.tokens.size

/-! ### Parameters

The view of a parameter is a fold over its children; it is followed along the order in which these
stand. -/

/-- Shapes that are nodes of some kinds, as children. -/
theorem exists_nodes_of_each {q : NodeKind → Prop} {cs : List Shape} (hcs : cs ∈ each (HasKind q))
    (hall : ∀ s ∈ cs, Stands t s) :
    ∃ ns : List NodeId, cs.map asChild = ns.map Child.node ∧ ∀ m ∈ ns, q (t.kind m) := by
  induction cs with
  | nil => exact ⟨[], rfl, by simp⟩
  | cons s cs ih =>
    obtain ⟨ns, hns, hkinds⟩ := ih (fun s hs => hcs s (List.mem_cons_of_mem _ hs))
      (fun s hs => hall s (List.mem_cons_of_mem _ hs))
    obtain ⟨id, k, ds, rfl, hq⟩ := hcs s List.mem_cons_self
    have hkind := (hall _ List.mem_cons_self).kind_eq
    refine ⟨id :: ns, by simp [hns, asChild], fun m hm => ?_⟩
    rcases List.mem_cons.mp hm with rfl | hm
    · exact hkind ▸ hq
    · exact hkinds m hm

/-- Words of a sort, as children. -/
theorem exists_tokens_of_kstar {ts : Array Token} {sort : Token → Prop} {cs : List Shape}
    (hcs : cs ∈ (word ts sort)∗) :
    ∃ is : List TokenId, cs.map asChild = is.map Child.token ∧
      ∀ i ∈ is, i + 1 < ts.size ∧ sort (tokenAt ts i) := by
  obtain ⟨words, rfl, hwords⟩ := Language.mem_kstar.mp hcs
  clear hcs
  induction words with
  | nil => exact ⟨[], rfl, by simp⟩
  | cons w words ih =>
    obtain ⟨is, his, hsorts⟩ := ih fun w hw => hwords w (List.mem_cons_of_mem _ hw)
    obtain ⟨i, hi, hsort, rfl⟩ := hwords w List.mem_cons_self
    refine ⟨i :: is, by simp [his, asChild], fun j hj => ?_⟩
    rcases List.mem_cons.mp hj with rfl | hj
    · exact ⟨hi, hsort⟩
    · exact hsorts j hj

/-- What stands under a parameter: lists of attributes, words, a type that may be missing under a
lambda, the name and perhaps a default. -/
structure ParameterChildren (t : Tree) (n : NodeId) (attributes : List NodeId)
    (words : List TokenId) (types : List NodeId) (name : TokenId) (clauses : List NodeId) :
    Prop where
  children_eq : t.children n = attributes.map .node ++ (words.map .token ++
    (types.map .node ++ .token name :: clauses.map .node))
  attributes_kind : ∀ m ∈ attributes, t.kind m = .attributeList
  words_sort : ∀ i ∈ words, i + 1 < t.tokens.size ∧
    ((t.token i).kind = .keyword ∨ (t.token i).isContextual "scoped" = true ∧ types ≠ [])
  types_kind : ∀ m ∈ types, (t.kind m).isType = true
  name_sort : (t.token name).isIdentifier = true
  clauses_kind : ∀ m ∈ clauses, t.kind m = .equalsValueClause

theorem exists_parameterChildren (h : InOrder t) (hk : t.kind n = .parameter) :
    ∃ attributes words types name clauses,
      ParameterChildren t n attributes words types name clauses := by
  obtain ⟨cs, hword, hstands⟩ := h.parsed.exists_children hk (by decide)
  cases hstands with
  | node _ _ hchildren _ hall =>
    have hnodes : ∀ {q : NodeKind → Prop} {ds : List Shape}, ds ∈ each (HasKind q) →
        (∀ s ∈ ds, s ∈ cs) →
        ∃ ns : List NodeId, ds.map asChild = ns.map Child.node ∧ ∀ m ∈ ns, q (t.kind m) :=
      fun hds hsub => exists_nodes_of_each hds fun s hs => hall s (hsub s hs)
    have htype : plainType ≤ each (HasKind fun k => k.isType = true) :=
      part_le_each fun _ hs => hs.1
    -- Parameters of a method, and those of a lambda, which may have no type.
    rcases hword with hword | hword
    · obtain ⟨xs, hxs, _, hrest₁, rfl⟩ := mem_prod_cons.mp hword
      obtain ⟨ws, hws, _, hrest₂, rfl⟩ := mem_prod_cons.mp hrest₁
      obtain ⟨us, hus, _, hrest₃, rfl⟩ := mem_prod_cons.mp hrest₂
      obtain ⟨_, ⟨name, hname, hsort, rfl⟩, ds, hds, rfl⟩ := mem_prod_cons.mp hrest₃
      rw [List.prod_singleton] at hds
      have hattribute : (a .attributeList)∗ ≤ each (IsA .attributeList) :=
        kstar_le_each (part_le_each fun _ hs => hs)
      have hclause : opt (a .equalsValueClause) ≤ each (IsA .equalsValueClause) :=
        opt_le_each (part_le_each fun _ hs => hs)
      have hne : us ≠ [] := by
        rintro rfl
        exact nil_notMem_part _ hus
      obtain ⟨attributes, hattributes, hattributesKind⟩ :=
        hnodes (hattribute hxs) fun s hs => by simp [hs]
      obtain ⟨words, hwords, hwordsSort⟩ := exists_tokens_of_kstar hws
      obtain ⟨types, htypes, htypesKind⟩ := hnodes (htype hus) fun s hs => by simp [hs]
      obtain ⟨clauses, hclauses, hclausesKind⟩ := hnodes (hclause hds) fun s hs => by simp [hs]
      rw [← token_eq_tokenAt (Nat.lt_of_succ_lt hname)] at hsort
      refine ⟨attributes, words, types, name, clauses, ?_, hattributesKind, fun i hi => ?_,
        htypesKind, hsort, hclausesKind⟩
      · rw [hchildren]
        simp [hattributes, hwords, htypes, hclauses, asChild]
      · obtain ⟨hlt, hmodifier⟩ := hwordsSort i hi
        rw [← token_eq_tokenAt (Nat.lt_of_succ_lt hlt)] at hmodifier
        refine ⟨hlt, hmodifier.imp_right fun hscoped => ⟨hscoped, ?_⟩⟩
        rintro rfl
        exact hne (List.map_eq_nil_iff.mp htypes)
    · obtain ⟨ws, hws, _, hrest₁, rfl⟩ := mem_prod_cons.mp hword
      obtain ⟨us, hus, _, hrest₂, rfl⟩ := mem_prod_cons.mp hrest₁
      rw [List.prod_singleton] at hrest₂
      obtain ⟨name, hname, hsort, rfl⟩ := hrest₂
      obtain ⟨words, hwords, hwordsSort⟩ := exists_tokens_of_kstar hws
      obtain ⟨types, htypes, htypesKind⟩ := hnodes (opt_le_each htype hus) fun s hs => by simp [hs]
      rw [← token_eq_tokenAt (Nat.lt_of_succ_lt hname)] at hsort
      refine ⟨[], words, types, name, [], ?_, by simp, fun i hi => ?_, htypesKind, hsort, by simp⟩
      · rw [hchildren]
        simp [hwords, htypes, asChild]
      · obtain ⟨hlt, hkeyword⟩ := hwordsSort i hi
        rw [← token_eq_tokenAt (Nat.lt_of_succ_lt hlt)] at hkeyword
        exact ⟨hlt, .inl hkeyword⟩

namespace ParameterParts

open ParameterView

variable {p : Parts} {ns : List NodeId}

theorem foldl_attributes (hns : ∀ m ∈ ns, t.kind m = .attributeList) :
    ((ns.map Child.node).foldl (Parts.add t) p).modifiers = p.modifiers ∧
      ((ns.map Child.node).foldl (Parts.add t) p).typeNode = p.typeNode := by
  induction ns generalizing p with
  | nil => exact ⟨rfl, rfl⟩
  | cons m ns ih =>
    have hm := hns m List.mem_cons_self
    have hrest := @ih (Parts.add t p (.node m)) fun m hm => hns m (List.mem_cons_of_mem _ hm)
    simpa [Parts.add, hm] using hrest

theorem foldl_words {is : List TokenId} (hp : p.typeNode = none) :
    ((is.map Child.token).foldl (Parts.add t) p).modifiers =
        p.modifiers ++ is.filter (fun i => !(t.token i).isIdentifier) ∧
      ((is.map Child.token).foldl (Parts.add t) p).typeNode = none := by
  induction is generalizing p with
  | nil => exact ⟨by simp, hp⟩
  | cons i is ih =>
    have hadd : (Parts.add t p (.token i)).typeNode = none ∧
        (Parts.add t p (.token i)).modifiers =
          p.modifiers ++ [i].filter fun i => !(t.token i).isIdentifier := by
      cases hi : (t.token i).isIdentifier <;> cases hname : p.name.isNone <;>
        simp [Parts.add, hi, hp, hname]
    obtain ⟨hmodifiers, htype⟩ := ih hadd.1
    rw [hadd.2] at hmodifiers
    refine ⟨?_, htype⟩
    rw [List.map_cons, List.foldl_cons, hmodifiers, List.append_assoc, ← List.filter_append]
    rfl

theorem foldl_types (hns : ∀ m ∈ ns, (t.kind m).isType = true) :
    ((ns.map Child.node).foldl (Parts.add t) p).modifiers = p.modifiers ∧
      (p.typeNode.isSome = true ∨ ns ≠ [] →
        ((ns.map Child.node).foldl (Parts.add t) p).typeNode.isSome = true) := by
  induction ns generalizing p with
  | nil => exact ⟨rfl, by simp⟩
  | cons m ns ih =>
    have hadd : Parts.add t p (.node m) = { p with typeNode := some m } := by
      have hm := hns m List.mem_cons_self
      unfold Parts.add
      dsimp only
      split
      next hk => simp [hk, NodeKind.isType] at hm
      next hk => simp [hk, NodeKind.isType] at hm
      next => rfl
    obtain ⟨hmodifiers, htype⟩ := @ih { p with typeNode := some m }
      fun m hm => hns m (List.mem_cons_of_mem _ hm)
    rw [List.map_cons, List.foldl_cons, hadd]
    exact ⟨hmodifiers, fun _ => htype (.inl rfl)⟩

theorem foldl_clauses (hns : ∀ m ∈ ns, t.kind m = .equalsValueClause) :
    ((ns.map Child.node).foldl (Parts.add t) p).modifiers = p.modifiers ∧
      ((ns.map Child.node).foldl (Parts.add t) p).typeNode = p.typeNode ∧
      ((ns.map Child.node).foldl (Parts.add t) p).name = p.name := by
  induction ns generalizing p with
  | nil => exact ⟨rfl, rfl, rfl⟩
  | cons m ns ih =>
    have hm := hns m List.mem_cons_self
    have hrest := @ih (Parts.add t p (.node m)) fun m hm => hns m (List.mem_cons_of_mem _ hm)
    simpa [Parts.add, hm] using hrest

end ParameterParts

open ParameterView ParameterParts in
/-- The parts that the view of a parameter finds among its children. -/
theorem ParameterChildren.parts {attributes words types name clauses}
    (hc : ParameterChildren t n attributes words types name clauses) :
    let p := (t.children n).foldl (Parts.add t) {}
    p.modifiers = words.filter (fun i => !(t.token i).isIdentifier) ∧
      (types ≠ [] → p.typeNode.isSome = true ∧ p.name = some name) := by
  simp only [hc.children_eq, List.foldl_append, List.foldl_cons]
  obtain ⟨hmodifiers₁, htype₁⟩ := foldl_attributes (p := {}) hc.attributes_kind
  generalize (attributes.map Child.node).foldl (Parts.add t) {} = p₁ at *
  obtain ⟨hmodifiers₂, -⟩ := @foldl_words t p₁ words htype₁
  generalize (words.map Child.token).foldl (Parts.add t) p₁ = p₂ at *
  obtain ⟨hmodifiers₃, htype₃⟩ := foldl_types (p := p₂) hc.types_kind
  generalize (types.map Child.node).foldl (Parts.add t) p₂ = p₃ at *
  obtain ⟨hmodifiers₄, htype₄, hname₄⟩ :=
    foldl_clauses (p := Parts.add t p₃ (.token name)) hc.clauses_kind
  have hname : (Parts.add t p₃ (.token name)).modifiers = p₃.modifiers ∧
      (Parts.add t p₃ (.token name)).typeNode = p₃.typeNode ∧
      (p₃.typeNode.isSome = true → (Parts.add t p₃ (.token name)).name = some name) := by
    cases htype : p₃.typeNode <;> cases hn : p₃.name <;>
      simp [Parts.add, hc.name_sort, htype, hn]
  refine ⟨?_, fun hne => ?_⟩
  · rw [hmodifiers₄, hname.1, hmodifiers₃, hmodifiers₂, hmodifiers₁]
    rfl
  · rw [htype₄, hname.2.1, hname₄]
    exact ⟨htype₃ (.inr hne), hname.2.2 (htype₃ (.inr hne))⟩

/-- A node ends with the mark that its production ends with. -/
theorem isMark_lastToken (h : InOrder t) {k : NodeKind} {front : Language Shape} {text : String}
    (hk : t.kind n = k) (hne : k ≠ .compilationUnit)
    (hproduction : production t.tokens k = [front, mark t.tokens text].prod) :
    (t.token (t.lastToken n)).isMark text = true := by
  obtain ⟨cs, hword, hstands⟩ := h.parsed.exists_children hk hne
  rw [hproduction] at hword
  cases hstands with
  | node _ _ hchildren =>
    obtain ⟨xs, -, _, hlast, rfl⟩ := mem_prod_cons.mp hword
    rw [List.prod_singleton] at hlast
    obtain ⟨e, he, hclose, rfl⟩ := hlast
    have hback : t.children n = xs.map asChild ++ [.token e] := by
      rw [hchildren]
      simp [asChild]
    rw [h.lastToken_eq hback]
    show (t.token e).isMark text = true
    rwa [token_eq_tokenAt (Nat.lt_of_succ_lt he)]

/-- The only modifier of a parameter is the only word in front of its type. -/
theorem ParameterChildren.words_eq {attributes words types name clauses}
    (hc : ParameterChildren t n attributes words types name clauses) (h : InOrder t)
    {v : ParameterView} (hv : ParameterView.ofNode? t n = some v) (hi : v.modifiers = [i])
    (htext : (t.token i).text = "ref") : words = [i] := by
  unfold ParameterView.ofNode? at hv
  split at hv
  · cases hv
  simp only [Option.bind_eq_bind, Option.bind_eq_some_iff, Option.pure_def, Option.some.injEq] at hv
  obtain ⟨name', hname', rfl⟩ := hv
  obtain ⟨hmodifiers, htypes⟩ := hc.parts
  have hpairs := h.children_pairwise n
  rw [hc.children_eq] at hpairs
  have hmid := (List.pairwise_append.mp (List.pairwise_append.mp hpairs).2.1)
  dsimp only at hi
  -- every word is a modifier for the view
  have hmem : ∀ j ∈ words, j = i := by
    intro j hj
    rw [← List.mem_singleton, ← hi]
    obtain ⟨-, hkeyword | ⟨hscoped, hne⟩⟩ := hc.words_sort j hj
    · refine List.mem_append_left _ ?_
      rw [hmodifiers, List.mem_filter]
      exact ⟨hj, by simp [Token.isIdentifier, hkeyword]⟩
    · refine List.mem_append_right _ ?_
      obtain ⟨htype, hname⟩ := htypes hne
      rw [hname] at hname'
      obtain rfl := Option.some.inj hname'
      have hlt : j < name := hmid.2.2 (.token j) (by simpa using hj) (.token name) (by simp)
      rw [if_pos htype, List.mem_filter]
      refine ⟨?_, by simp [hscoped, Nat.ne_of_lt hlt]⟩
      rw [childTokens, hc.children_eq]
      simp [Child.token?, hj, List.filterMap_append]
  -- and the modifier is one of them
  have hfound : i ∈ words := by
    have hmodifier : i ∈ [i] := List.mem_singleton_self i
    rw [← hi, List.mem_append, hmodifiers] at hmodifier
    rcases hmodifier with hmodifier | hscoped
    · exact (List.mem_filter.mp hmodifier).1
    · split at hscoped
      · have hscoped := (List.mem_filter.mp hscoped).2
        simp [Token.isContextual, htext] at hscoped
      · cases hscoped
  have hascending : words.Pairwise (· < ·) := by
    have hwords := hmid.1
    rw [List.pairwise_map] at hwords
    exact hwords
  cases words with
  | nil => cases hfound
  | cons j words =>
    obtain rfl := hmem j List.mem_cons_self
    cases words with
    | nil => rfl
    | cons k words =>
      have hlt := (List.pairwise_cons.mp hascending).1 k List.mem_cons_self
      exact absurd (hmem k (by simp)) (Nat.ne_of_gt hlt)

/-- **The modifier of a parameter stands between a mark and what may stand behind that mark.** -/
theorem unjoined_of_parameterModifier? (h : InOrder t) (hg : Gapless t) {index : Nat}
    (hi : Patch.parameterModifier? t n index = some i) :
    Unjoined t i ∧ (t.token i).text = "ref" := by
  simp only [Patch.parameterModifier?, Option.bind_eq_bind, Option.bind_eq_some_iff] at hi
  obtain ⟨v, hv, m, hm, p, hp, hi⟩ := hi
  split at hi
  next j hj =>
    split at hi
    next htext =>
      obtain rfl := Option.some.inj hi
      have htext := beq_iff_eq.mp htext
      have hk : t.kind m = .parameter := by
        unfold ParameterView.ofNode? at hp
        split at hp
        · cases hp
        · simp_all
      obtain ⟨attributes, words, types, name, clauses, hc⟩ := exists_parameterChildren h hk
      obtain rfl := hc.words_eq h hp hj htext
      refine ⟨⟨?_, (hc.words_sort j List.mem_cons_self).1⟩, htext⟩
      have hchildren := hc.children_eq
      rcases List.eq_nil_or_concat attributes with rfl | ⟨front, last, rfl⟩
      · -- the modifier is what the parameter starts with
        have hfirst : t.firstToken m = j := h.firstToken_eq hchildren
        have hlist := (MethodView.kinds hv).1
        obtain ⟨k, hk, hmark⟩ := exists_mark_before_item h hg (.inl hlist) (List.mem_of_getElem? hm)
        refine ⟨k, hk.trans hfirst, .inl ?_⟩
        rcases hmark with hmark | hmark
        · exact ⟨"(", by simp, hmark⟩
        · exact ⟨",", by simp, hmark⟩
      · have hbefore : t.children m = front.map .node ++ .node last :: .token j ::
            (types.map .node ++ .token name :: clauses.map .node) := by
          rw [hchildren]
          simp
        have hkind := hc.attributes_kind last (by simp)
        have hmark := isMark_lastToken h hkind (by decide) rfl
        exact ⟨_, hg.lastOf_add_one h hbefore, .inl ⟨"]", by simp, hmark⟩⟩
    next => cases hi
  next => cases hi

/-! ### Arguments

An argument has fewer parts, and its modifier stands behind the label or at the front. -/

/-- What stands under an argument with a modifier: perhaps a label, the modifier and the
expression. -/
theorem exists_children_of_refKind (h : InOrder t) {v : ArgumentView}
    (hv : ArgumentView.ofNode? t n = some v) (hi : v.refKind = some i) :
    ∃ labels : List NodeId, t.children n = labels.map .node ++ [.token i, .node v.expression] ∧
      (∀ m ∈ labels, t.kind m = .nameColon) ∧ i + 1 < t.tokens.size := by
  unfold ArgumentView.ofNode? at hv
  split at hv
  · cases hv
  next hk =>
  have hk : t.kind n = .argument := by simpa using hk
  simp only [Option.bind_eq_bind, Option.bind_eq_some_iff, Option.pure_def, Option.some.injEq] at hv
  obtain ⟨e, he, rfl⟩ := hv
  obtain ⟨cs, hword, hstands⟩ := h.parsed.exists_children hk (by decide)
  cases hstands with
  | node _ _ hchildren _ hall =>
    obtain ⟨xs, hxs, _, hrest₁, rfl⟩ := mem_prod_cons.mp hword
    obtain ⟨ws, hws, _, hrest₂, rfl⟩ := mem_prod_cons.mp hrest₁
    rw [List.prod_singleton] at hrest₂
    obtain ⟨_, ⟨⟨id, k, ds, rfl, hexpression⟩, -⟩, rfl⟩ := hrest₂
    have hlabel : opt (a .nameColon) ≤ each (IsA .nameColon) :=
      opt_le_each (part_le_each fun _ hs => hs)
    obtain ⟨labels, hlabels, hkinds⟩ :=
      exists_nodes_of_each (hlabel hxs) fun s hs => hall s (by simp [hs])
    have hkind : t.kind id = k := (hall (.node id k ds) (by simp)).kind_eq
    have hne : t.kind id ≠ .nameColon := by
      intro heq
      rw [← hkind, heq] at hexpression
      exact absurd hexpression (by decide)
    have hnone : labels.filterMap (Child.token? ∘ Child.node) = [] := by
      simp [Function.comp_def, Child.token?]
    dsimp only at hi ⊢
    rw [childTokens, hchildren] at hi
    -- The only token of an argument is its modifier.
    rcases mem_opt_iff.mp hws with rfl | ⟨j, hj, -, rfl⟩
    · simp [hlabels, asChild, hnone, Child.token?] at hi
    · have hij : j = i := by simpa [hlabels, asChild, hnone, Child.token?] using hi
      subst hij
      have hfind : labels.find? (fun c => t.kind c != .nameColon) = none := by
        rw [List.find?_eq_none]
        intro m hm
        simp [hkinds m hm]
      have hei : e = id := by
        rw [childNodes, hchildren] at he
        simpa [hlabels, asChild, Child.node?, Function.comp_def, hfind, hne] using he.symm
      refine ⟨labels, ?_, hkinds, hj⟩
      rw [hchildren, hei]
      simp [hlabels, asChild]

/-- **The modifier of an argument stands between a mark and what may stand behind that mark.** -/
theorem unjoined_of_argumentModifier? (h : InOrder t) (hg : Gapless t) {index : Nat}
    (hi : Patch.argumentModifier? t n index = some i) :
    Unjoined t i ∧ (t.token i).text = "ref" := by
  simp only [Patch.argumentModifier?, Option.bind_eq_bind, Option.bind_eq_some_iff,
    Option.ite_none_right_eq_some, Option.pure_def, Option.some.injEq] at hi
  obtain ⟨v, hv, w, hw, j, hj, htext, rfl⟩ := hi
  simp only [Bool.and_eq_true, beq_iff_eq] at htext
  obtain ⟨htext, hname⟩ := htext
  simp only [InvocationView.argument?, Option.bind_eq_bind, Option.bind_eq_some_iff] at hw
  obtain ⟨m, hm, hw⟩ := hw
  obtain ⟨labels, hchildren, hlabels, hlt⟩ := exists_children_of_refKind h hw hj
  refine ⟨⟨?_, hlt⟩, htext⟩
  rcases List.eq_nil_or_concat labels with rfl | ⟨front, label, rfl⟩
  · have hfirst : t.firstToken m = j := h.firstToken_eq hchildren
    obtain ⟨-, hlist, harguments⟩ := InvocationView.arguments_eq hv
    rw [harguments] at hm
    obtain ⟨k, hk, hmark⟩ := exists_mark_before_item h hg (.inr hlist) (List.mem_of_getElem? hm)
    refine ⟨k, hk.trans hfirst, .inl ?_⟩
    rcases hmark with hmark | hmark
    · exact ⟨"(", by simp, hmark⟩
    · exact ⟨",", by simp, hmark⟩
  · -- behind a label, the argument is a name
    have hbefore : t.children m = front.map .node ++ .node label :: .token j ::
        [.node w.expression] := by
      rw [hchildren]
      simp
    have hbehind : t.children m = (front ++ [label]).map .node ++ .token j ::
        .node w.expression :: [] := by
      rw [hchildren]
      simp
    have hcolon := isMark_lastToken h (hlabels label (by simp)) (by decide) rfl
    have hfirst : j + 1 = t.firstToken w.expression := hg.lastOf_add_one h hbehind
    refine ⟨_, hg.lastOf_add_one h hbefore, .inr ⟨hcolon, ?_⟩⟩
    obtain ⟨cs, hword, hstands⟩ := h.parsed.exists_children hname (by decide)
    obtain ⟨e, he, hidentifier, rfl⟩ := hword
    cases hstands with
    | node _ _ hchildren =>
      rw [hfirst, h.firstToken_eq hchildren]
      show (t.token e).isIdentifier = true
      rwa [token_eq_tokenAt (Nat.lt_of_succ_lt he)]

end CodeMend.Tree
