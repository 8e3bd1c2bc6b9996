import CodeMend.Proofs.Tree.Chains

/-!
# CodeMend — the nodes and tokens at a place

From a place in the source back to what stands there.  Places are told by offsets of tokens with a
text and by spans of nodes.

* **`text_ne_empty_of_parse`** — of the tokens of a source, only the last has no text.
* **`span_lt`** — something stands in the span of every node but the whole file.
* **`exists_rises_covering`** — the way down to a span ends at or under every node that covers it.
-/

namespace CodeMend.Tree

open Shape

variable {source : String} {t : Tree} {a c n p : NodeId} {i : TokenId} {ns : List NodeId}

/-! ## Tokens

All tokens but the last have a text, so no two of them start at one offset. -/

section Tokens

/-- Of the tokens of a source, only the last has no text. -/
theorem text_ne_empty_of_parse (h : parse source = .ok t) (hi : i + 1 < t.tokens.size) :
    (t.token i).text ≠ "" := by
  obtain ⟨tokens, s, b, htokens, -, -, rfl, -⟩ := Grammar.exists_whole_of_parse h
  change i + 1 < tokens.toArray.size at hi
  rw [List.size_toArray] at hi
  obtain ⟨front, last, rfl, -, hfront⟩ := (lossless_of_tokenize htokens).ends
  rw [List.length_append, List.length_singleton, Nat.add_lt_add_iff_right] at hi
  rw [token_eq_getElem rfl (Nat.lt_of_lt_of_le hi (by simp)), List.getElem_append_left hi]
  exact (hfront _ (List.getElem_mem hi)).2

theorem offset_lt_stop {token : Token} (h : token.text ≠ "") : token.offset < token.stop :=
  Nat.lt_add_of_pos_right (Nat.pos_of_ne_zero fun hzero =>
    h (String.utf8ByteSize_eq_zero_iff.mp hzero))

/-- The search for an offset ends between the tokens that start at or before it and the others. -/
theorem countStarts_eq {offset lo k hi : Nat} (hbefore : ∀ i < k, (t.token i).fullStart ≤ offset)
    (hbehind : ∀ i, k ≤ i → i < hi → offset < (t.token i).fullStart) (hlo : lo ≤ k)
    (hhi : k ≤ hi) : t.countStarts offset lo hi = k := by
  induction lo, hi using countStarts.induct t offset with
  | case1 lo hi hlt mid hle ih =>
    have hmid : mid < k := by
      by_contra hge
      have hgt := hbehind mid (Nat.le_of_not_lt hge) (by omega)
      omega
    rw [countStarts, if_pos hlt, if_pos hle]
    exact ih hbehind hmid hhi
  | case2 lo hi hlt mid hgt ih =>
    have hmid : k ≤ mid := by
      by_contra hlt
      exact hgt (hbefore mid (Nat.lt_of_not_le hlt))
    rw [countStarts, if_pos hlt, if_neg hgt]
    exact ih (fun i hk hi => hbehind i hk (by omega)) hlo hmid
  | case3 lo hi hge =>
    rw [countStarts, if_neg hge]
    omega

theorem mem_childTokens_iff : i ∈ t.childTokens n ↔ .token i ∈ t.children n := by
  constructor
  · intro hi
    obtain ⟨d, hd, htoken⟩ := List.mem_filterMap.mp hi
    cases d with
    | token j => exact Option.some.inj htoken ▸ hd
    | node m => cases htoken
  · exact fun hi => List.mem_filterMap.mpr ⟨_, hi, rfl⟩

/-- A token hangs under the node that lists it. -/
theorem WellFormed.tokenParent_eq (h : t.WellFormed) (hi : .token i ∈ t.children n) :
    i < t.tokens.size ∧ t.tokenParent i = n := by
  have hn := lt_nodeCount_of_mem_children hi
  have hlt := h.token_lt n hn i hi
  have hcount := (h.tokenParent i hlt).2 n hn
  refine ⟨hlt, ?_⟩
  by_contra hne
  rw [if_neg (Ne.symm hne), List.count_eq_zero] at hcount
  exact hcount hi

end Tokens

/-! ## Nodes that start at a place

Nodes that start with one token lead up from the node that lists the token. -/

theorem InOrder.firstToken_lt (h : InOrder t) (n : NodeId) : t.firstToken n < t.tokens.size :=
  Nat.lt_of_le_of_lt (h.firstToken_le_lastToken n).1 (h.firstToken_le_lastToken n).2

theorem InOrder.offset_le_offset (h : InOrder t) {j : TokenId} (hij : i ≤ j)
    (hj : j < t.tokens.size) : (t.token i).offset ≤ (t.token j).offset := by
  rcases Nat.lt_or_eq_of_le hij with hlt | rfl
  · calc (t.token i).offset
      _ ≤ (t.token i).fullStop := Nat.le_trans (Token.offset_le_stop _) (Token.stop_le_fullStop _)
      _ ≤ (t.token j).fullStart := h.fullStop_le_fullStart hlt hj
      _ ≤ (t.token j).offset := Token.fullStart_le_offset _
  · exact Nat.le_refl _

theorem InOrder.stop_le_stop (h : InOrder t) {j : TokenId} (hij : i ≤ j)
    (hj : j < t.tokens.size) : (t.token i).stop ≤ (t.token j).stop := by
  rcases Nat.lt_or_eq_of_le hij with hlt | rfl
  · calc (t.token i).stop
      _ ≤ (t.token i).fullStop := Token.stop_le_fullStop _
      _ ≤ (t.token j).fullStart := h.fullStop_le_fullStart hlt hj
      _ ≤ (t.token j).stop := Nat.le_trans (Token.fullStart_le_offset _) (Token.offset_le_stop _)
  · exact Nat.le_refl _

/-- From the node that the first token of a node hangs under, nodes with the same first token lead
up to the node. -/
theorem exists_rises_firstToken (h : InOrder t) (hn : n < t.nodeCount) :
    ∃ ns, Rises t (t.tokenParent (t.firstToken n)) ns n ∧
      ∀ m ∈ t.tokenParent (t.firstToken n) :: ns, t.firstToken m = t.firstToken n := by
  obtain ⟨cs, hs, -⟩ := h.parsed.stands n hn
  have hall : ∀ {s : Shape}, Stands t s → ∀ id k cs, s = .node id k cs →
      ∃ ns, Rises t (t.tokenParent (t.firstToken id)) ns id ∧
        ∀ m ∈ t.tokenParent (t.firstToken id) :: ns, t.firstToken m = t.firstToken id := by
    clear hs hn cs
    intro s hs
    induction hs with
    | token => exact fun _ _ _ h => nomatch h
    | @node id k cs hlt _ hchildren _ _ ih =>
      intro _ _ _ heq
      cases heq
      cases cs with
      | nil => exact absurd hchildren (h.parsed.wellFormed.children_ne_nil id hlt)
      | cons s cs =>
        rw [List.map_cons] at hchildren
        have hfirst := h.firstToken_eq hchildren
        cases s with
        | token i =>
          have hmem : .token i ∈ t.children id := hchildren ▸ List.mem_cons_self
          obtain ⟨-, hparent⟩ := h.parsed.wellFormed.tokenParent_eq hmem
          change t.firstToken id = i at hfirst
          rw [hfirst, hparent]
          refine ⟨[], .here id, fun m hm => ?_⟩
          obtain rfl := List.mem_singleton.mp hm
          exact hfirst
        | node m k' ds =>
          have hmem : m ∈ t.childNodes id :=
            mem_childNodes_iff.mpr (hchildren ▸ List.mem_cons_self)
          obtain ⟨ns, hrises, hfirsts⟩ := ih _ List.mem_cons_self m k' ds rfl
          change t.firstToken id = t.firstToken m at hfirst
          rw [hfirst]
          refine ⟨ns ++ [id], hrises.append (.up hmem (.here id)), fun x hx => ?_⟩
          rw [← List.cons_append, List.mem_append, List.mem_singleton] at hx
          rcases hx with hx | rfl
          · exact hfirsts x hx
          · exact hfirst
  exact hall hs _ _ _ rfl

theorem Rises.mem (h : Rises t n ns a) : a ∈ n :: ns := by
  induction h with
  | here => exact List.mem_singleton_self _
  | up _ _ ih => exact List.mem_cons_of_mem _ ih

/-- The token that ends the source hangs under the root, so no other node starts with it. -/
theorem firstToken_add_one_lt (h : InOrder t) (hn : n < t.nodeCount) (hne : n ≠ root) :
    t.firstToken n + 1 < t.tokens.size := by
  refine Nat.lt_of_le_of_ne (h.firstToken_lt n) fun hlast => ?_
  have hwf := h.parsed.wellFormed
  obtain ⟨members, hroot⟩ := hwf.root_children
  have hmem : .token (t.firstToken n) ∈ t.children root := by
    have heq : t.firstToken n = t.tokens.size - 1 := by
      rw [← hlast]
      rfl
    rw [hroot, heq]
    simp
  obtain ⟨ns, hrises, -⟩ := exists_rises_firstToken h hn
  rw [(hwf.tokenParent_eq hmem).2] at hrises
  cases hrises with
  | here => exact hne rfl
  | up hc _ =>
    obtain ⟨hp, -, hmem⟩ := hwf.lt_of_mem hc
    exact hwf.root_notMem _ hp hmem

/-- The first token of a node other than the whole file has a text. -/
theorem text_firstToken_ne_empty (h : parse source = .ok t) (hk : t.kind n ≠ .compilationUnit) :
    (t.token (t.firstToken n)).text ≠ "" := by
  refine text_ne_empty_of_parse h (firstToken_add_one_lt (inOrder_of_parse h) ?_ ?_)
  · exact lt_nodeCount_of_kind hk
  · rintro rfl
    exact hk (kind_root_of_parse h)

/-- Something stands in the span of a node other than the whole file. -/
theorem span_lt (h : parse source = .ok t) (hk : t.kind n ≠ .compilationUnit) :
    (t.span n).start < (t.span n).stop := by
  have ht := inOrder_of_parse h
  obtain ⟨hle, hlt⟩ := ht.firstToken_le_lastToken n
  exact Nat.lt_of_lt_of_le (offset_lt_stop (text_firstToken_ne_empty h hk))
    (ht.stop_le_stop hle hlt)

/-- The nodes of a kind that start at an offset start with the same token, and one is above the
other. -/
theorem eq_firstToken_of_mem_startingAt (h : InOrder t) {k : NodeKind} {offset : Nat}
    (hm : n ∈ t.startingAt k offset) (hc : c ∈ t.startingAt k offset) :
    t.kind n = k ∧ t.firstToken n = t.firstToken c ∧
      ((∃ ns, Rises t n ns c) ∨ ∃ ns, Rises t c ns n) := by
  unfold startingAt at hm hc
  split at hm
  · cases hm
  next i hi =>
  rw [hi] at hc
  split at hm
  · cases hm
  next hoffset =>
  simp only [if_neg hoffset, List.mem_filter, beq_iff_eq] at hm hc
  have hfirst : ∀ m, m ∈ ((t.tokenParent i :: t.ancestors (t.tokenParent i)).takeWhile
      fun a => t.firstToken a == i) → t.firstToken m = i ∧ ∃ ns, Rises t (t.tokenParent i) ns m := by
    intro m hm
    refine ⟨beq_iff_eq.mp (List.all_eq_true.mp List.all_takeWhile m hm), ?_⟩
    exact h.parsed.wellFormed.exists_rises_of_mem ((List.takeWhile_prefix _).subset hm)
  obtain ⟨hfirstn, ns, hn⟩ := hfirst n hm.1
  obtain ⟨hfirstc, ms, hc'⟩ := hfirst c hc.1
  exact ⟨hm.2, hfirstn.trans hfirstc.symm, hn.total h.parsed.wellFormed hc'⟩

/-! ## The node that covers a span

Children stand one after the other, so at most one of them covers a span in which something stands.
Hence the way down passes through all nodes that cover it. -/

/-- A child lies between the ends of the node. -/
theorem InOrder.child_ends_le (h : InOrder t) {d : Child} (hd : d ∈ t.children n) :
    t.firstToken n ≤ t.firstOf d ∧ t.lastOf d ≤ t.lastToken n := by
  have hle : ∀ d : Child, t.firstOf d ≤ t.lastOf d
    | .token _ => Nat.le_refl _
    | .node m => (h.firstToken_le_lastToken m).1
  obtain ⟨front, back, hsplit⟩ := List.append_of_mem hd
  have hpairs := h.children_pairwise n
  rw [hsplit] at hpairs
  obtain ⟨-, hback, hbetween⟩ := List.pairwise_append.mp hpairs
  constructor
  · cases front with
    | nil => exact Nat.le_of_eq (h.firstToken_eq hsplit)
    | cons e front =>
      rw [h.firstToken_eq hsplit]
      exact Nat.le_trans (hle e)
        (Nat.le_of_lt (hbetween e List.mem_cons_self _ List.mem_cons_self))
  · rcases List.eq_nil_or_concat back with rfl | ⟨back, e, rfl⟩
    · exact Nat.le_of_eq (h.lastToken_eq hsplit).symm
    · have hlast : t.children n = (front ++ d :: back) ++ [e] := by
        rw [hsplit]
        simp
      rw [h.lastToken_eq hlast]
      have hlt := (List.pairwise_cons.mp hback).1 e (by simp)
      exact Nat.le_trans (Nat.le_of_lt hlt) (hle e)

/-- The leaves of a child lie within those of the node. -/
theorem InOrder.child_tokens_le (h : InOrder t) (hc : c ∈ t.childNodes n) :
    t.firstToken n ≤ t.firstToken c ∧ t.lastToken c ≤ t.lastToken n :=
  h.child_ends_le (mem_childNodes_iff.mp hc)

theorem InOrder.childNodes_pairwise (h : InOrder t) (n : NodeId) :
    (t.childNodes n).Pairwise fun c d => t.lastToken c < t.firstToken d := by
  refine List.Pairwise.filterMap Child.node? (fun c d hcd m hm m' hm' => ?_) (h.children_pairwise n)
  cases c with
  | token i => cases hm
  | node c =>
    cases d with
    | token i => cases hm'
    | node d =>
      obtain rfl := Option.some.inj hm
      obtain rfl := Option.some.inj hm'
      exact hcd

/-- The leaves of a node lie within those of a node above it. -/
theorem Rises.tokens_le (h : Rises t n ns a) (ht : InOrder t) :
    t.firstToken a ≤ t.firstToken n ∧ t.lastToken n ≤ t.lastToken a := by
  induction h with
  | here => exact ⟨Nat.le_refl _, Nat.le_refl _⟩
  | up hc _ ih =>
    have hchild := ht.child_tokens_le hc
    exact ⟨Nat.le_trans ih.1 hchild.1, Nat.le_trans hchild.2 ih.2⟩

/-- The way down from a node ends at or under it. -/
theorem exists_rises_coveringFrom (t : Tree) (span : Span) (fuel : Nat) (n : NodeId) :
    ∃ ns, Rises t (t.coveringFrom span fuel n) ns n := by
  induction fuel generalizing n with
  | zero => exact ⟨[], .here n⟩
  | succ fuel ih =>
    rw [coveringFrom]
    split
    next c hc =>
      obtain ⟨ns, hrises⟩ := ih c
      exact ⟨ns ++ [n], hrises.append (.up (List.mem_of_find?_eq_some hc) (.here n))⟩
    next => exact ⟨[], .here n⟩

/-- Some of the nodes that lead up from a node lead up to each of them. -/
theorem Rises.exists_prefix (h : Rises t n ns a) (hc : c ∈ n :: ns) : ∃ ms, Rises t n ms c := by
  induction h with
  | here n =>
    obtain rfl := List.mem_singleton.mp hc
    exact ⟨[], .here c⟩
  | @up m p ns a hm _ ih =>
    rcases List.mem_cons.mp hc with rfl | hc
    · exact ⟨[], .here c⟩
    · obtain ⟨ms, hms⟩ := ih hc
      exact ⟨p :: ms, .up hm hms⟩

/-- Nodes that stand one after the other do not both cover a span in which something stands. -/
theorem InOrder.contains_eq_false (h : InOrder t) {span : Span} (hspan : span.start < span.stop)
    {b : NodeId} (hab : t.lastToken a < t.firstToken b) :
    (t.span a).contains span = false ∨ (t.span b).contains span = false := by
  have hle : (t.span a).stop ≤ (t.span b).start :=
    calc (t.span a).stop
      _ ≤ (t.token (t.lastToken a)).fullStop := Token.stop_le_fullStop _
      _ ≤ (t.token (t.firstToken b)).fullStart := h.fullStop_le_fullStart hab (h.firstToken_lt b)
      _ ≤ (t.span b).start := Token.fullStart_le_offset _
  by_contra hboth
  simp only [Span.contains, not_or, Bool.not_eq_false, Bool.and_eq_true, decide_eq_true_eq] at hboth
  omega

/-- A node above one that covers a span covers it too. -/
theorem Rises.contains (h : Rises t n ns a) (ht : InOrder t) {span : Span}
    (hn : (t.span n).contains span = true) : (t.span a).contains span = true := by
  obtain ⟨hfirst, hlast⟩ := h.tokens_le ht
  simp only [Span.contains, Bool.and_eq_true, decide_eq_true_eq] at hn ⊢
  exact ⟨Nat.le_trans (ht.offset_le_offset hfirst (ht.firstToken_lt n)) hn.1,
    Nat.le_trans hn.2 (ht.stop_le_stop hlast (ht.firstToken_le_lastToken a).2)⟩

/-- Of the nodes that a node lists, the one above a node that covers a span is the first to cover
it. -/
theorem InOrder.find?_contains (h : InOrder t) {span : Span} (hspan : span.start < span.stop)
    (hn : (t.span n).contains span = true) (hrises : Rises t n ns c) (hc : c ∈ t.childNodes p) :
    (t.childNodes p).find? (fun d => (t.span d).contains span) = some c := by
  have hcontains : (t.span c).contains span = true := hrises.contains h hn
  obtain ⟨front, back, hsplit⟩ := List.append_of_mem hc
  have hnone : front.find? (fun d => (t.span d).contains span) = none := by
    refine List.find?_eq_none.mpr fun d hd => ?_
    have hpairs := h.childNodes_pairwise p
    rw [hsplit] at hpairs
    have hlt := (List.pairwise_append.mp hpairs).2.2 d hd c List.mem_cons_self
    rcases h.contains_eq_false hspan hlt with hfalse | hfalse
    · rw [hfalse]
      exact Bool.false_ne_true
    · rw [hcontains] at hfalse
      cases hfalse
  rw [hsplit, List.find?_append, hnone, List.find?_cons, hcontains]
  rfl

/-- **The way down to a span ends at or under every node that covers it.** -/
theorem exists_rises_covering (h : InOrder t) (hn : n < t.nodeCount) {span : Span}
    (hspan : span.start < span.stop) (hcontains : (t.span n).contains span = true) :
    ∃ ns, Rises t (t.covering span) ns n := by
  obtain ⟨ns, hrises⟩ := h.parsed.exists_rises_root hn
  have hfind : ∀ c p, c ∈ n :: ns → c ∈ t.childNodes p →
      (t.childNodes p).find? (fun d => (t.span d).contains span) = some c := by
    intro c p hc hp
    obtain ⟨ms, hms⟩ := hrises.exists_prefix hc
    exact h.find?_contains hspan hcontains hms hp
  have hlength := Nat.le_of_lt (hrises.length_lt h.parsed)
  rw [covering, ← nodeCount, hrises.coveringFrom_eq hlength hfind]
  exact exists_rises_coveringFrom t span _ n

end CodeMend.Tree
