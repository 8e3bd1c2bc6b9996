import CodeMend.Proofs.Tree.Standing
import CodeMend.Tree.Views

/-!
# CodeMend — the order of a parsed tree

The tokens of a parsed tree stand in the source in the order of their numbers, and the children of
a node stand there one after the other.  So an offset taken from one end of a node, or from an
earlier child, is no greater than one taken from the other end, or from a later child.

* **`InOrder`** — the tokens ascend in the source, and the leaves under every node ascend.
* **`inOrder_of_parse`** — so it is in the tree of every source that parses.
* **`InOrder.children_pairwise`** — children stand one after the other.
* **`Alternates`** — items and commas taking turns; `InOrder.exists_alternates` finds them between
  the brackets of every list of parameters or arguments.
-/

namespace CodeMend

namespace Token

theorem fullStart_le_offset (t : Token) : t.fullStart ≤ t.offset := Nat.sub_le _ _

theorem offset_le_stop (t : Token) : t.offset ≤ t.stop := Nat.le_add_right _ _

theorem stop_le_fullStop (t : Token) : t.stop ≤ t.fullStop := Nat.le_add_right _ _

theorem fullStart_le_fullStop (t : Token) : t.fullStart ≤ t.fullStop :=
  Nat.le_trans t.fullStart_le_offset (Nat.le_trans t.offset_le_stop t.stop_le_fullStop)

end Token

/-- Of spans that follow one another, each ends where a later one starts at the latest. -/
theorem Tiles.pairwise {start stop : Nat} {spans : List Span} (h : Tiles start spans stop) :
    (∀ s ∈ spans, start ≤ s.start) ∧ spans.Pairwise fun a b => a.stop ≤ b.start := by
  induction spans generalizing start with
  | nil => exact ⟨by simp, .nil⟩
  | cons span rest ih =>
    obtain ⟨hstart, hle, hrest⟩ := h
    obtain ⟨hfrom, hpairs⟩ := ih hrest
    refine ⟨fun s hs => ?_, List.pairwise_cons.mpr ⟨hfrom, hpairs⟩⟩
    rcases List.mem_cons.mp hs with rfl | hs
    · exact Nat.le_of_eq hstart.symm
    · exact Nat.le_trans hle (hfrom s hs)

namespace Tree

open Shape Production
open scoped Computability

variable {t : Tree} {n : NodeId} {c : Child}

/-- The first token of a child. -/
def firstOf (t : Tree) : Child → TokenId
  | .token i => i
  | .node n => t.firstToken n

/-- The last token of a child. -/
def lastOf (t : Tree) : Child → TokenId
  | .token i => i
  | .node n => t.lastToken n

/-- A parsed tree whose tokens ascend in the source and whose nodes keep to the order of the
tokens. -/
structure InOrder (t : Tree) : Prop where
  parsed : Parsed t
  /-- The leaves under a node ascend, and they are tokens. -/
  leaves : ∀ n < t.nodeCount, ∀ l, t.HasLeaves (.node n) l →
    l.Pairwise (· < ·) ∧ ∀ i ∈ l, i < t.tokens.size
  /-- A token with its trivia ends where a later one starts at the latest. -/
  tokens : ∀ i j, i < j → j < t.tokens.size → (t.token i).fullStop ≤ (t.token j).fullStart

theorem source_of_parse {source : String} (h : parse source = .ok t) : t.source = source := by
  obtain ⟨tokens, s, b, -, -, -, rfl, -⟩ := Grammar.exists_whole_of_parse h
  rfl

theorem exists_tokens_of_parse {source : String} (h : parse source = .ok t) :
    ∃ tokens, tokenize source = .ok tokens ∧ t.tokens = tokens.toArray := by
  obtain ⟨tokens, s, b, htokens, -, -, rfl, -⟩ := Grammar.exists_whole_of_parse h
  exact ⟨tokens, htokens, rfl⟩

/-- **The tree of a source that parses is in order.** -/
theorem inOrder_of_parse {source : String} (h : parse source = .ok t) : InOrder t := by
  refine ⟨parsed_of_parse h, ?_, ?_⟩
  · intro n hn l hleaves
    obtain ⟨tokens, s, b, -, -, hw, rfl, hl⟩ := Grammar.exists_whole_of_parse h
    obtain ⟨q, k, cs, hpart⟩ := hl.exists_node hn
    obtain rfl := hleaves.unique (hl.hasLeaves hpart)
    -- the leaves of a part follow one another among all tokens
    have hrun := leaves_infix_of_mem_parts hpart
    rw [hw.leaves_eq] at hrun
    exact ⟨List.pairwise_lt_range.sublist hrun.sublist,
      fun i hi => List.mem_range.mp (hrun.subset hi)⟩
  · intro i j hij hj
    obtain ⟨tokens, s, b, htokens, -, -, rfl, -⟩ := Grammar.exists_whole_of_parse h
    have hpairs := (lossless_of_tokenize htokens).tiles.pairwise.2
    change j < tokens.toArray.size at hj
    rw [List.size_toArray] at hj
    have hat := List.pairwise_iff_getElem.mp hpairs i j (by rw [List.length_map]; omega)
      (by rw [List.length_map]; omega) hij
    rw [List.getElem_map, List.getElem_map] at hat
    rw [token_eq_getElem rfl (show i < tokens.length by omega), token_eq_getElem rfl hj]
    exact hat

/-! ## The ends of a node

The first and the last token of a node are the ends of its leaves, which ascend. -/

/-- The leaves of a child begin and end with its first and its last token. -/
theorem HasLeaves.ends {l : List TokenId} (h : t.HasLeaves c l) (ht : t.WellFormed)
    (hc : ∀ n, c = .node n → n < t.nodeCount) :
    l.head? = some (t.firstOf c) ∧ l.getLast? = some (t.lastOf c) := by
  cases c with
  | token i =>
    cases h
    exact ⟨rfl, rfl⟩
  | node n =>
    obtain ⟨l', hl', hfirst, hlast⟩ := ht.ends n (hc n rfl)
    obtain rfl := h.unique hl'
    exact ⟨hfirst, hlast⟩

/-- The leaves of the children that stand last come last. -/
theorem HaveLeaves.append {cs ds : List Child} {l : List TokenId}
    (h : t.HaveLeaves (cs ++ ds) l) :
    ∃ l₁ l₂, l = l₁ ++ l₂ ∧ t.HaveLeaves cs l₁ ∧ t.HaveLeaves ds l₂ := by
  induction cs generalizing l with
  | nil => exact ⟨[], l, rfl, .nil, h⟩
  | cons c cs ih =>
    cases h with
    | cons _ _ lc m hc hcs =>
      obtain ⟨l₁, l₂, rfl, h₁, h₂⟩ := ih hcs
      exact ⟨lc ++ l₁, l₂, by rw [List.append_assoc], .cons _ _ _ _ hc h₁, h₂⟩

/-- The first token of a child is one of the leaves. -/
theorem HaveLeaves.firstOf_mem {cs : List Child} {l : List TokenId} (h : t.HaveLeaves cs l)
    (ht : t.WellFormed) (hcs : ∀ n, .node n ∈ cs → n < t.nodeCount) (hc : c ∈ cs) :
    t.firstOf c ∈ l := by
  obtain ⟨front, back, rfl⟩ := List.append_of_mem hc
  obtain ⟨l₁, l₂, rfl, -, h₂⟩ := h.append
  cases h₂ with
  | cons _ _ lc m hlc _ =>
    have hends := hlc.ends ht fun n hn => hcs n (hn ▸ List.mem_append_right _ List.mem_cons_self)
    have hmem : t.firstOf c ∈ lc := List.mem_of_head? hends.1
    exact List.mem_append_right _ (List.mem_append_left _ hmem)

/-- Children whose leaves ascend stand one after the other. -/
theorem HaveLeaves.pairwise {cs : List Child} {l : List TokenId} (h : t.HaveLeaves cs l)
    (ht : t.WellFormed) (hcs : ∀ n, .node n ∈ cs → n < t.nodeCount) (hl : l.Pairwise (· < ·)) :
    cs.Pairwise fun c d => t.lastOf c < t.firstOf d := by
  induction cs generalizing l with
  | nil => exact .nil
  | cons c cs ih =>
    cases h with
    | cons _ _ lc m hc hm =>
      obtain ⟨-, hrest, hbetween⟩ := List.pairwise_append.mp hl
      have hcs' : ∀ n, .node n ∈ cs → n < t.nodeCount := fun n hn =>
        hcs n (List.mem_cons_of_mem _ hn)
      refine List.pairwise_cons.mpr ⟨fun d hd => ?_, ih hm hcs' hrest⟩
      have hends := hc.ends ht fun n hn => hcs n (hn ▸ List.mem_cons_self)
      exact hbetween _ (List.mem_of_getLast? hends.2) _ (hm.firstOf_mem ht hcs' hd)

namespace InOrder

variable (h : InOrder t)

include h

theorem exists_leaves (hn : n < t.nodeCount) :
    ∃ l, t.HaveLeaves (t.children n) l ∧ l.head? = some (t.firstToken n) ∧
      l.getLast? = some (t.lastToken n) ∧ l.Pairwise (· < ·) ∧ ∀ i ∈ l, i < t.tokens.size := by
  obtain ⟨l, hl, hfirst, hlast⟩ := h.parsed.wellFormed.ends n hn
  obtain ⟨hpairs, hlt⟩ := h.leaves n hn l hl
  cases hl with
  | node _ _ hchildren => exact ⟨l, hchildren, hfirst, hlast, hpairs, hlt⟩

/-- **The children of a node stand one after the other.** -/
theorem children_pairwise (n : NodeId) :
    (t.children n).Pairwise fun c d => t.lastOf c < t.firstOf d := by
  by_cases hn : n < t.nodeCount
  · obtain ⟨l, hl, -, -, hpairs, -⟩ := h.exists_leaves hn
    exact hl.pairwise h.parsed.wellFormed (h.parsed.wellFormed.node_lt n hn) hpairs
  · have hnil : t.children n = [] :=
      List.eq_nil_iff_forall_not_mem.mpr fun c hc => hn (lt_nodeCount_of_mem_children hc)
    rw [hnil]
    exact .nil

/-- Also where no node has the number, the first token is not behind the last one. -/
theorem firstToken_le_lastToken (n : NodeId) :
    t.firstToken n ≤ t.lastToken n ∧ t.lastToken n < t.tokens.size := by
  by_cases hn : n < t.nodeCount
  · obtain ⟨l, -, hfirst, hlast, hpairs, hlt⟩ := h.exists_leaves hn
    obtain ⟨rest, rfl⟩ := List.head?_eq_some_iff.mp hfirst
    have hmem := List.mem_of_getLast? hlast
    refine ⟨?_, hlt _ hmem⟩
    rcases List.mem_cons.mp hmem with heq | hmem
    · exact Nat.le_of_eq heq.symm
    · exact Nat.le_of_lt ((List.pairwise_cons.mp hpairs).1 _ hmem)
  · rw [firstToken, lastToken, data_eq_default (Nat.le_of_not_lt hn)]
    exact ⟨Nat.le_refl 0, h.parsed.wellFormed.size_pos⟩

theorem firstToken_eq {cs : List Child} (hchildren : t.children n = c :: cs) :
    t.firstToken n = t.firstOf c := by
  have hc : c ∈ t.children n := hchildren ▸ List.mem_cons_self
  have hn := lt_nodeCount_of_mem_children hc
  obtain ⟨l, hl, hfirst, -⟩ := h.exists_leaves hn
  rw [hchildren] at hl
  cases hl with
  | cons _ _ lc m hlc _ =>
    have hends := hlc.ends h.parsed.wellFormed fun m hm =>
      h.parsed.wellFormed.node_lt n hn m (hm ▸ hc)
    rw [List.head?_append, hends.1] at hfirst
    exact (Option.some.inj hfirst).symm

theorem lastToken_eq {cs : List Child} (hchildren : t.children n = cs ++ [c]) :
    t.lastToken n = t.lastOf c := by
  have hc : c ∈ t.children n := hchildren ▸ List.mem_append_right _ List.mem_cons_self
  have hn := lt_nodeCount_of_mem_children hc
  obtain ⟨l, hl, -, hlast, -⟩ := h.exists_leaves hn
  rw [hchildren] at hl
  obtain ⟨l₁, l₂, rfl, -, hl₂⟩ := hl.append
  cases hl₂ with
  | cons _ _ lc m hlc hnil =>
    cases hnil
    have hends := hlc.ends h.parsed.wellFormed fun m hm =>
      h.parsed.wellFormed.node_lt n hn m (hm ▸ hc)
    rw [List.append_nil, List.getLast?_append, hends.2] at hlast
    exact (Option.some.inj hlast).symm

/-! ## Offsets

Offsets ascend with the tokens. -/

theorem fullStop_le_fullStart {i j : TokenId} (hij : i < j) (hj : j < t.tokens.size) :
    (t.token i).fullStop ≤ (t.token j).fullStart :=
  h.tokens i j hij hj

theorem fullStart_le_fullStart {i j : TokenId} (hij : i ≤ j) (hj : j < t.tokens.size) :
    (t.token i).fullStart ≤ (t.token j).fullStart := by
  rcases Nat.lt_or_eq_of_le hij with hlt | rfl
  · exact Nat.le_trans (t.token i).fullStart_le_fullStop (h.tokens i j hlt hj)
  · exact Nat.le_refl _

/-- **The span of a node starts before it ends.** -/
theorem span_le (n : NodeId) : (t.span n).start ≤ (t.span n).stop := by
  obtain ⟨hle, hlt⟩ := h.firstToken_le_lastToken n
  show (t.token (t.firstToken n)).offset ≤ (t.token (t.lastToken n)).stop
  rcases Nat.lt_or_eq_of_le hle with hlt' | heq
  · calc (t.token (t.firstToken n)).offset
      _ ≤ (t.token (t.firstToken n)).stop := Token.offset_le_stop _
      _ ≤ (t.token (t.firstToken n)).fullStop := Token.stop_le_fullStop _
      _ ≤ (t.token (t.lastToken n)).fullStart := h.tokens _ _ hlt' hlt
      _ ≤ (t.token (t.lastToken n)).offset := Token.fullStart_le_offset _
      _ ≤ (t.token (t.lastToken n)).stop := Token.offset_le_stop _
  · rw [heq]
    exact Token.offset_le_stop _

theorem fullSpan_le (n : NodeId) : (t.fullSpan n).start ≤ (t.fullSpan n).stop := by
  obtain ⟨hle, hlt⟩ := h.firstToken_le_lastToken n
  exact Nat.le_trans (h.fullStart_le_fullStart hle hlt) (Token.fullStart_le_fullStop _)

end InOrder

/-! ## Brackets

Brackets are the first and the last child of the node that they enclose. -/

theorem exists_of_enclosed {ts : Array Token} {opening close : String} {l : Language Shape}
    {cs : List Shape} (hcs : cs ∈ enclosed ts opening l close) :
    ∃ o mid e, cs = .token o :: (mid ++ [.token e]) ∧ mid ∈ l ∧
      o + 1 < ts.size ∧ (tokenAt ts o).isMark opening = true ∧
      e + 1 < ts.size ∧ (tokenAt ts e).isMark close = true := by
  obtain ⟨_, ⟨o, ho, hopening, rfl⟩, _, hrest, rfl⟩ := mem_prod_cons.mp hcs
  obtain ⟨mid, hmid, _, hlast, rfl⟩ := mem_prod_cons.mp hrest
  rw [List.prod_singleton] at hlast
  obtain ⟨e, he, hclose, rfl⟩ := hlast
  exact ⟨o, mid, e, rfl, hmid, ho, hopening, he, hclose⟩

/-- A block begins and ends with its braces. -/
theorem InOrder.exists_braces (h : InOrder t) (hk : t.kind n = .block) :
    ∃ mid, t.children n =
      .token (t.firstToken n) :: (mid ++ [.token (t.lastToken n)]) := by
  obtain ⟨cs, hword, hstands⟩ := h.parsed.exists_children hk (by decide)
  obtain ⟨o, mid, e, rfl, -⟩ := exists_of_enclosed hword
  cases hstands with
  | node _ _ hchildren =>
    have hfront : t.children n = .token o :: (mid.map asChild ++ [.token e]) := by
      rw [hchildren]
      simp [asChild]
    have hback : t.children n = (.token o :: mid.map asChild) ++ [.token e] := hfront
    refine ⟨mid.map asChild, ?_⟩
    rw [h.firstToken_eq hfront, h.lastToken_eq hback]
    exact hfront

/-- The first brace of a block stands before the last one. -/
theorem InOrder.firstToken_lt_lastToken_of_block (h : InOrder t) (hk : t.kind n = .block) :
    t.firstToken n < t.lastToken n := by
  obtain ⟨mid, hchildren⟩ := h.exists_braces hk
  have hpairs := h.children_pairwise n
  rw [hchildren] at hpairs
  exact (List.pairwise_cons.mp hpairs).1 _ (List.mem_append_right _ List.mem_cons_self)

/-- The statements of a block stand between its braces. -/
theorem InOrder.between_braces (h : InOrder t) (hk : t.kind n = .block) {m : NodeId}
    (hm : m ∈ t.childNodes n) :
    t.firstToken n < t.firstToken m ∧ t.lastToken m < t.lastToken n := by
  obtain ⟨mid, hchildren⟩ := h.exists_braces hk
  obtain ⟨d, hd, hnode⟩ := List.mem_filterMap.mp hm
  cases d with
  | token i => cases hnode
  | node m' =>
    obtain rfl : m' = m := Option.some.inj hnode
    have hmid : .node m' ∈ mid := by
      simpa [hchildren] using hd
    have hpairs := h.children_pairwise n
    rw [hchildren] at hpairs
    obtain ⟨hfront, hrest⟩ := List.pairwise_cons.mp hpairs
    exact ⟨hfront _ (List.mem_append_left _ hmid),
      (List.pairwise_append.mp hrest).2.2 _ hmid _ List.mem_cons_self⟩

/-! ## Items and commas

The production of a list says that items and commas take turns.  Said by indices, it tells which
comma goes with which item. -/

/-- Items and commas take turns; the comma behind the last item may be there or not. -/
inductive Alternates : List NodeId → List TokenId → List Child → Prop where
  | nil : Alternates [] [] []
  | last (n : NodeId) : Alternates [n] [] [.node n]
  | more (n : NodeId) (i : TokenId) {ns : List NodeId} {is : List TokenId} {cs : List Child}
      (h : Alternates ns is cs) : Alternates (n :: ns) (i :: is) (.node n :: .token i :: cs)

namespace Alternates

variable {ns : List NodeId} {is : List TokenId} {cs : List Child}

theorem filterMap_eq (h : Alternates ns is cs) :
    cs.filterMap Child.node? = ns ∧ cs.filterMap Child.token? = is := by
  induction h with
  | nil => exact ⟨rfl, rfl⟩
  | last n => exact ⟨rfl, rfl⟩
  | more n i h ih =>
    obtain ⟨rfl, rfl⟩ := ih
    exact ⟨rfl, rfl⟩

/-- A comma follows the item with its index. -/
theorem exists_split (h : Alternates ns is cs) {k : Nat} {n : NodeId} {i : TokenId}
    (hn : ns[k]? = some n) (hi : is[k]? = some i) :
    ∃ front back, cs = front ++ .node n :: .token i :: back := by
  induction h generalizing k with
  | nil => cases hn
  | last m => cases hi
  | @more m j _ _ cs h ih =>
    cases k with
    | zero =>
      obtain rfl := Option.some.inj hn
      obtain rfl := Option.some.inj hi
      exact ⟨[], cs, rfl⟩
    | succ k =>
      obtain ⟨front, back, rfl⟩ := ih hn hi
      exact ⟨.node m :: .token j :: front, back, rfl⟩

/-- Each item has a comma behind it, but perhaps the last one. -/
theorem length_eq (h : Alternates ns is cs) :
    is.length = ns.length ∨ is.length + 1 = ns.length := by
  induction h with
  | nil => exact .inl rfl
  | last n => exact .inr rfl
  | more n i h ih => exact ih.imp (congrArg (· + 1)) (congrArg (· + 1))

/-- The first items, each with the comma behind it, and the others. -/
theorem exists_drop (h : Alternates ns is cs) {k : Nat} (hk : k ≤ is.length) :
    ∃ rest, Alternates (ns.drop k) (is.drop k) rest ∧
      cs = ((List.range k).flatMap fun i => [.node (ns.getD i 0), .token (is.getD i 0)]) ++
        rest := by
  induction h generalizing k with
  | nil =>
    obtain rfl := Nat.le_zero.mp hk
    exact ⟨[], .nil, rfl⟩
  | last n =>
    obtain rfl := Nat.le_zero.mp hk
    exact ⟨[.node n], .last n, rfl⟩
  | @more n i ns is cs h ih =>
    cases k with
    | zero => exact ⟨_, .more n i h, rfl⟩
    | succ k =>
      obtain ⟨rest, hrest, rfl⟩ := ih (Nat.le_of_succ_le_succ hk)
      refine ⟨rest, hrest, ?_⟩
      rw [List.range_succ_eq_map, List.flatMap_cons, List.flatMap_map]
      rfl

/-- With a comma behind every item, a comma comes last. -/
theorem exists_comma_last (h : Alternates ns is cs) (hlength : is.length = ns.length)
    (hne : ns ≠ []) : ∃ front i, cs = front ++ [.token i] ∧ i ∈ is := by
  induction h with
  | nil => exact absurd rfl hne
  | last n => cases hlength
  | @more n i ns is cs h ih =>
    cases h with
    | nil => exact ⟨[.node n], i, rfl, List.mem_cons_self⟩
    | last m => cases hlength
    | more m j h =>
      obtain ⟨front, k, hcs, hk⟩ := ih (Nat.succ.inj hlength) (List.cons_ne_nil _ _)
      exact ⟨.node n :: .token i :: front, k, by rw [hcs]; rfl, List.mem_cons_of_mem _ hk⟩

/-- With one comma less than there are items, an item comes last, behind all commas. -/
theorem exists_item_last (h : Alternates ns is cs) (hlength : is.length + 1 = ns.length) :
    ∃ front m, cs = front ++ [.node m] ∧ ∀ i ∈ is, .token i ∈ front := by
  induction h with
  | nil => cases hlength
  | last n => exact ⟨[], n, rfl, by simp⟩
  | more n i h ih =>
    obtain ⟨front, m, rfl, hall⟩ := ih (Nat.succ.inj hlength)
    refine ⟨.node n :: .token i :: front, m, rfl, fun j hj => ?_⟩
    rcases List.mem_cons.mp hj with rfl | hj
    · exact List.mem_cons_of_mem _ List.mem_cons_self
    · exact List.mem_cons_of_mem _ (List.mem_cons_of_mem _ (hall j hj))

end Alternates

/-- A first item, commas each with another item, and perhaps one more comma. -/
theorem alternates_of_words {ts : Array Token} {q : NodeKind → Prop} {words : List (List Shape)}
    (hwords : ∀ w ∈ words, w ∈ mark ts "," * part (HasKind q)) {first trailing : List Shape}
    (hfirst : first ∈ part (HasKind q)) (htrailing : trailing ∈ opt (mark ts ",")) :
    ∃ ns is, Alternates ns is ((first ++ (words.flatten ++ trailing)).map asChild) ∧
      (trailing = [] → is.length + 1 = ns.length) ∧
      ∀ i ∈ is, i + 1 < ts.size ∧ (tokenAt ts i).isMark "," = true := by
  induction words generalizing first with
  | nil =>
    obtain ⟨_, ⟨n, k, ds, rfl, -⟩, rfl⟩ := hfirst
    rcases mem_opt_iff.mp htrailing with rfl | ⟨i, hi, hcomma, rfl⟩
    · exact ⟨[n], [], .last n, fun _ => rfl, by simp⟩
    · exact ⟨[n], [i], .more n i .nil, by simp, by simpa using ⟨hi, hcomma⟩⟩
  | cons word words ih =>
    obtain ⟨_, ⟨n, k, ds, rfl, -⟩, rfl⟩ := hfirst
    obtain ⟨_, ⟨i, hi, hcomma, rfl⟩, next, hnext, rfl⟩ := hwords word List.mem_cons_self
    obtain ⟨ns, is, hrest, hlength, hall⟩ :=
      ih (fun w hw => hwords w (List.mem_cons_of_mem _ hw)) hnext
    refine ⟨n :: ns, i :: is, ?_, fun h => congrArg Nat.succ (hlength h), ?_⟩
    · have hmore := Alternates.more n i hrest
      simpa [asChild] using hmore
    · intro j hj
      rcases List.mem_cons.mp hj with rfl | hj
      · exact ⟨hi, hcomma⟩
      · exact hall j hj

/-- The words of a list are items and commas that take turns. -/
theorem alternates_of_listed {ts : Array Token} {q : NodeKind → Prop} {cs : List Shape}
    (h : cs ∈ listed ts (part (HasKind q))) :
    ∃ ns is, Alternates ns is (cs.map asChild) ∧
      ∀ i ∈ is, i + 1 < ts.size ∧ (tokenAt ts i).isMark "," = true := by
  rcases mem_opt_iff.mp h with rfl | h
  · exact ⟨[], [], .nil, by simp⟩
  obtain ⟨_, ⟨first, hfirst, _, hstar, rfl⟩, trailing, htrailing, rfl⟩ := h
  obtain ⟨words, rfl, hwords⟩ := Language.mem_kstar.mp hstar
  obtain ⟨ns, is, halternates, -, hall⟩ := alternates_of_words hwords hfirst htrailing
  rw [← List.append_assoc] at halternates
  exact ⟨ns, is, halternates, hall⟩

/-- Where no comma stands behind the last item, there is one comma less than there are items. -/
theorem alternates_of_separated {ts : Array Token} {q : NodeKind → Prop} {cs : List Shape}
    (h : cs ∈ opt (separated ts (part (HasKind q)))) :
    ∃ ns is, Alternates ns is (cs.map asChild) ∧ (ns ≠ [] → is.length + 1 = ns.length) ∧
      ∀ i ∈ is, i + 1 < ts.size ∧ (tokenAt ts i).isMark "," = true := by
  rcases mem_opt_iff.mp h with rfl | h
  · exact ⟨[], [], .nil, by simp, by simp⟩
  obtain ⟨first, hfirst, _, hstar, rfl⟩ := h
  obtain ⟨words, rfl, hwords⟩ := Language.mem_kstar.mp hstar
  obtain ⟨ns, is, halternates, hlength, hall⟩ :=
    alternates_of_words hwords hfirst (nil_mem_opt (l := mark ts ","))
  rw [List.append_nil] at halternates
  exact ⟨ns, is, halternates, fun _ => hlength rfl, hall⟩

/-- What stands between two brackets, if items and commas take turns there, is what the list of the
node says. -/
theorem InOrder.eq_ofNode_of_alternates (h : InOrder t) {opening close : String}
    {cs mid : List Shape} {o e : TokenId} (hchildren : t.children n = cs.map asChild)
    (hcs : cs = .token o :: (mid ++ [.token e]))
    (ho : o + 1 < t.tokens.size ∧ (tokenAt t.tokens o).isMark opening = true)
    (he : e + 1 < t.tokens.size ∧ (tokenAt t.tokens e).isMark close = true)
    (hopening : opening ≠ ",") (hclose : close ≠ ",") {ns : List NodeId} {is : List TokenId}
    (halternates : Alternates ns is (mid.map asChild))
    (hcommas : ∀ i ∈ is, i + 1 < t.tokens.size ∧ (tokenAt t.tokens i).isMark "," = true) :
    t.children n = .token (SeparatedList.ofNode t n).opening ::
        (mid.map asChild ++ [.token (SeparatedList.ofNode t n).close]) ∧
      (SeparatedList.ofNode t n).items = ns ∧ (SeparatedList.ofNode t n).separators = is := by
  have hsplit : t.children n = .token o :: (mid.map asChild ++ [.token e]) := by
    rw [hchildren, hcs]
    simp [asChild]
  have hback : t.children n = (.token o :: mid.map asChild) ++ [.token e] := hsplit
  have hends : (SeparatedList.ofNode t n).opening = o ∧ (SeparatedList.ofNode t n).close = e :=
    ⟨h.firstToken_eq hsplit, h.lastToken_eq hback⟩
  obtain ⟨hnodes, htokens⟩ := halternates.filterMap_eq
  have hitems : (SeparatedList.ofNode t n).items = ns := by
    show t.childNodes n = ns
    rw [childNodes, hsplit, List.filterMap_cons_none rfl, List.filterMap_append, hnodes]
    exact List.append_nil ns
  -- neither bracket is a comma
  have hnot : ∀ {i : TokenId} {text : String}, i + 1 < t.tokens.size →
      (tokenAt t.tokens i).isMark text = true → text ≠ "," → (t.token i).isMark "," = false := by
    intro i text hi hmark hne
    rw [token_eq_tokenAt (Nat.lt_of_succ_lt hi)]
    simp only [Token.isMark, Bool.and_eq_true, beq_iff_eq] at hmark
    simp [Token.isMark, hmark.2, hne]
  have hseparators : (SeparatedList.ofNode t n).separators = is := by
    show (t.childTokens n).filter (fun i => (t.token i).isMark ",") = is
    have hinner : is.filter (fun i => (t.token i).isMark ",") = is := by
      refine List.filter_eq_self.mpr fun i hi => ?_
      rw [token_eq_tokenAt (Nat.lt_of_succ_lt (hcommas i hi).1)]
      exact (hcommas i hi).2
    have htokens' : t.childTokens n = o :: (is ++ [e]) := by
      rw [childTokens, hsplit]
      show o :: (mid.map asChild ++ [Child.token e]).filterMap Child.token? = _
      rw [List.filterMap_append, htokens]
      rfl
    rw [htokens', List.filter_cons_of_neg (by simp [hnot ho.1 ho.2 hopening]),
      List.filter_append, hinner]
    simp [hnot he.1 he.2 hclose]
  rw [hends.1, hends.2]
  exact ⟨hsplit, hitems, hseparators⟩

/-- **In a list of parameters or arguments, items and commas take turns between the brackets.** -/
theorem InOrder.exists_alternates (h : InOrder t)
    (hk : t.kind n = .parameterList ∨ t.kind n = .argumentList) :
    ∃ mid, Alternates (SeparatedList.ofNode t n).items (SeparatedList.ofNode t n).separators mid ∧
      t.children n = .token (SeparatedList.ofNode t n).opening ::
        (mid ++ [.token (SeparatedList.ofNode t n).close]) := by
  have hword : ∃ q cs, cs ∈ enclosed t.tokens "(" (listed t.tokens (part (HasKind q))) ")" ∧
      t.children n = cs.map asChild := by
    rcases hk with hk | hk
    · obtain ⟨cs, hword, hstands⟩ := h.parsed.exists_children hk (by decide)
      cases hstands with
      | node _ _ hchildren => exact ⟨_, cs, hword, hchildren⟩
    · obtain ⟨cs, hword, hstands⟩ := h.parsed.exists_children hk (by decide)
      cases hstands with
      | node _ _ hchildren => exact ⟨_, cs, argumentsBetween_le hword, hchildren⟩
  obtain ⟨q, cs, hcs, hchildren⟩ := hword
  obtain ⟨o, mid, e, hsplit, hmid, ho, hopening, he, hclose⟩ := exists_of_enclosed hcs
  obtain ⟨ns, is, halternates, hcommas⟩ := alternates_of_listed hmid
  obtain ⟨hshape, hitems, hseparators⟩ := h.eq_ofNode_of_alternates hchildren hsplit
    ⟨ho, hopening⟩ ⟨he, hclose⟩ (by decide) (by decide) halternates hcommas
  rw [hitems, hseparators]
  exact ⟨mid.map asChild, halternates, hshape⟩

/-- **In a list of arguments there is one comma less than there are arguments.** -/
theorem InOrder.length_items_of_arguments (h : InOrder t)
    (hk : t.kind n = .argumentList ∨ t.kind n = .bracketedArgumentList)
    (hne : (SeparatedList.ofNode t n).items ≠ []) :
    (SeparatedList.ofNode t n).items.length = (SeparatedList.ofNode t n).separators.length + 1 := by
  have hword : ∃ opening close cs, cs ∈ argumentsBetween t.tokens opening close ∧
      t.children n = cs.map asChild ∧ opening ≠ "," ∧ close ≠ "," := by
    rcases hk with hk | hk
    all_goals
      obtain ⟨cs, hword, hstands⟩ := h.parsed.exists_children hk (by decide)
      cases hstands with
      | node _ _ hchildren => exact ⟨_, _, cs, hword, hchildren, by decide, by decide⟩
  obtain ⟨opening, close, cs, hcs, hchildren, hopening, hclose⟩ := hword
  obtain ⟨o, mid, e, hsplit, hmid, ho, ho', he, he'⟩ := exists_of_enclosed hcs
  obtain ⟨ns, is, halternates, hlength, hcommas⟩ := alternates_of_separated
    ((add_le_add_right (separated_mono listedArgument_le) 1) hmid)
  obtain ⟨-, hitems, hseparators⟩ := h.eq_ofNode_of_alternates hchildren hsplit
    ⟨ho, ho'⟩ ⟨he, he'⟩ hopening hclose halternates hcommas
  rw [hitems] at hne ⊢
  rw [hseparators, hlength hne]

end Tree

end CodeMend
