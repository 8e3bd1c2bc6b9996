import CodeMend.Plan.Basic
import CodeMend.Proofs.Tree.Ancestry
import CodeMend.Proofs.Tree.Trivia

/-!
# CodeMend — nodes and tokens found by place

Whoever keeps a node for later keeps where it stands.  A plan keeps its kind, where it starts and
how many nodes of its kind inside of it start there too; a finding keeps its span.  The search for a
start goes from the offset to a token and up from there, as far as the nodes start with the token.
The search for a span goes down from the root, at every node to the first child that covers the
span, and up again.  The children of a node stand one after the other, so neither passes by a node.

* **`tokenAt?_eq_some_iff`** — the token at an offset is the last one that holds it.
* **`mem_startingAt_iff`** — the nodes that are listed for a kind and an offset.
* **`pairwise_startingAt`** — each of them stands under the later ones.
* **`places_are_found_again`** — these facts, and that every node is found again by its site.
* **`Deepest`** — of all nodes with a property, the one that the others stand above.
* **`deepest_covering`** — the way down ends at the deepest node that covers the span.
* **`deepest_of_find?`** — the first node with a property on the way up is the deepest one.
* **`spans_are_found`** — what covers a span, and which nodes have exactly this span.
-/

namespace CodeMend

/-- Spans that follow one another end where the last one ends. -/
theorem Tiles.stop_getLast {start stop : Nat} {spans : List Span} {s : Span}
    (h : Tiles start (spans ++ [s]) stop) : s.stop = stop := by
  induction spans generalizing start with
  | nil => exact h.2.2
  | cons first spans ih => exact ih h.2.2

namespace Tree

variable {source : String} {t : Tree} {a m n : NodeId} {i j : TokenId} {k : NodeKind}
  {offset : Nat} {span : Span} {p : NodeId → Prop}

/-! ## The token at an offset

Tokens with their trivia tile the source, so each offset lies in one of them or between two. -/

/-- The token with its trivia holds the offset, or ends at it. -/
def HoldsOffset (t : Tree) (i : TokenId) (offset : Nat) : Prop :=
  (t.token i).fullStart ≤ offset ∧ offset ≤ (t.token i).fullStop

/-- The token holds the offset, and no later one does. -/
structure LastHolding (t : Tree) (offset : Nat) (i : TokenId) : Prop where
  lt_size : i < t.tokens.size
  holds : t.HoldsOffset i offset
  last : ∀ j < t.tokens.size, t.HoldsOffset j offset → j ≤ i

theorem LastHolding.unique (hi : t.LastHolding offset i) (hj : t.LastHolding offset j) : i = j :=
  Nat.le_antisymm (hj.last i hi.lt_size hi.holds) (hi.last j hj.lt_size hj.holds)

/-- The trivia in front of the first token starts the source. -/
theorem fullStart_zero (h : parse source = .ok t) : (t.token 0).fullStart = 0 := by
  obtain ⟨tokens, s, b, htokens, -, -, rfl, -⟩ := Grammar.exists_whole_of_parse h
  obtain ⟨front, last, rfl, -⟩ := (lossless_of_tokenize htokens).ends
  have htiles := (lossless_of_tokenize htokens).tiles
  rw [token_eq_getElem rfl (by simp)]
  cases front <;> exact htiles.1

theorem fullStop_last (h : parse source = .ok t) (hi : i + 1 = t.tokens.size) :
    (t.token i).fullStop = t.source.utf8ByteSize := by
  obtain ⟨tokens, s, b, htokens, -, -, rfl, -⟩ := Grammar.exists_whole_of_parse h
  obtain ⟨front, last, rfl, -⟩ := (lossless_of_tokenize htokens).ends
  have htiles := (lossless_of_tokenize htokens).tiles
  change i + 1 = (front ++ [last]).toArray.size at hi
  obtain rfl : i = front.length := by simpa using hi
  rw [token_eq_getElem rfl (by simp), List.getElem_concat_length (h := rfl)]
  rw [List.map_append, List.map_singleton] at htiles
  exact htiles.stop_getLast

/-- Every offset of the source lies in a token with its trivia. -/
theorem exists_lastHolding (h : parse source = .ok t) (hoffset : offset ≤ t.source.utf8ByteSize) :
    ∃ i, t.LastHolding offset i ∧ t.tokenAt? offset = some i := by
  have ht := inOrder_of_parse h
  have hpos := ht.parsed.wellFormed.size_pos
  -- the last of the tokens that start at or before the offset
  let i := Nat.findGreatest (fun j => (t.token j).fullStart ≤ offset) (t.tokens.size - 1)
  have hstart : (t.token i).fullStart ≤ offset :=
    Nat.findGreatest_spec (P := fun j => (t.token j).fullStart ≤ offset) (Nat.zero_le _)
      (by rw [fullStart_zero h]; exact Nat.zero_le _)
  have hlt : i < t.tokens.size :=
    Nat.lt_of_le_of_lt (Nat.findGreatest_le _) (Nat.sub_lt hpos Nat.one_pos)
  have hbehind : ∀ j, i < j → j < t.tokens.size → offset < (t.token j).fullStart := fun j hij hj =>
    Nat.lt_of_not_le (Nat.findGreatest_is_greatest
      (P := fun j => (t.token j).fullStart ≤ offset) hij (Nat.le_sub_one_of_lt hj))
  have hstop : offset ≤ (t.token i).fullStop := by
    by_cases hnext : i + 1 < t.tokens.size
    · rw [fullStop_eq_fullStart h hnext]
      exact Nat.le_of_lt (hbehind _ (Nat.lt_succ_self i) hnext)
    · rw [fullStop_last h (Nat.le_antisymm hlt (Nat.le_of_not_lt hnext))]
      exact hoffset
  refine ⟨i, ⟨hlt, ⟨hstart, hstop⟩, fun j hj hholds => ?_⟩, ?_⟩
  · by_contra hij
    exact absurd hholds.1 (Nat.not_le.mpr (hbehind j (Nat.lt_of_not_le hij) hj))
  · have hcount : t.countStarts offset 0 t.tokens.size = i + 1 :=
      countStarts_eq (fun j hj => Nat.le_trans
          (ht.fullStart_le_fullStart (Nat.le_of_lt_succ hj) hlt) hstart)
        (fun j hj => hbehind j hj) (Nat.zero_le _) hlt
    rw [tokenAt?, if_neg (Nat.not_lt.mpr hoffset), hcount]
    rfl

/-- **The token at an offset is the last one that holds it.** -/
theorem tokenAt?_eq_some_iff (h : parse source = .ok t) :
    t.tokenAt? offset = some i ↔ t.LastHolding offset i := by
  constructor
  · intro hi
    have hoffset : offset ≤ t.source.utf8ByteSize := by
      by_contra hgt
      rw [tokenAt?, if_pos (Nat.lt_of_not_le hgt)] at hi
      cases hi
    obtain ⟨j, hj, heq⟩ := exists_lastHolding h hoffset
    rw [hi] at heq
    exact Option.some.inj heq ▸ hj
  · intro hi
    have hlast : t.tokens.size - 1 + 1 = t.tokens.size :=
      Nat.sub_add_cancel (Nat.succ_le_of_lt (Nat.lt_of_le_of_lt (Nat.zero_le i) hi.lt_size))
    have hoffset : offset ≤ t.source.utf8ByteSize := by
      refine Nat.le_trans hi.holds.2 ?_
      rw [← fullStop_last h hlast]
      rcases Nat.lt_or_eq_of_le (Nat.le_sub_one_of_lt hi.lt_size) with hlt | heq
      · have hsize : t.tokens.size - 1 < t.tokens.size := hlast ▸ Nat.lt_succ_self _
        exact Nat.le_trans ((inOrder_of_parse h).fullStop_le_fullStart hlt hsize)
          (Token.fullStart_le_fullStop _)
      · rw [← heq]
    obtain ⟨j, hj, heq⟩ := exists_lastHolding h hoffset
    rw [heq, hj.unique hi]

/-- A token is found at its offset, the end of the file included. -/
theorem tokenAt?_offset (h : parse source = .ok t) (hi : i < t.tokens.size) :
    t.tokenAt? (t.token i).offset = some i := by
  refine (tokenAt?_eq_some_iff h).mpr ⟨hi, ⟨Token.fullStart_le_offset _, ?_⟩, fun j hj hholds => ?_⟩
  · exact Nat.le_trans (Token.offset_le_stop _) (Token.stop_le_fullStop _)
  · by_contra hij
    have hij := Nat.lt_of_not_le hij
    have htext := text_ne_empty_of_parse h (Nat.lt_of_le_of_lt (Nat.succ_le_of_lt hij) hj)
    refine absurd hholds.1 (Nat.not_le.mpr ?_)
    calc (t.token i).offset
      _ < (t.token i).stop := offset_lt_stop htext
      _ ≤ (t.token i).fullStop := Token.stop_le_fullStop _
      _ ≤ (t.token j).fullStart := (inOrder_of_parse h).fullStop_le_fullStart hij hj

/-! ## The nodes that start at an offset

Nodes that start at one place are on one way up from the token there. -/

/-- The nodes that start with a token, the innermost first: on the way up from the node that it
hangs under, all nodes up to the first one that starts in front of it. -/
def startingWith (t : Tree) (i : TokenId) : List NodeId :=
  (t.tokenParent i :: t.ancestors (t.tokenParent i)).takeWhile fun a => t.firstToken a == i

theorem startingAt_offset (h : parse source = .ok t) (hi : i < t.tokens.size) (k : NodeKind) :
    t.startingAt k (t.token i).offset = (t.startingWith i).filter fun a => t.kind a == k := by
  simp [startingAt, tokenAt?_offset h hi, startingWith]

/-- Where no token starts, no nodes are listed. -/
theorem exists_token_of_mem_startingAt (h : parse source = .ok t) (hn : n ∈ t.startingAt k offset) :
    ∃ i < t.tokens.size, (t.token i).offset = offset := by
  unfold startingAt at hn
  split at hn
  · cases hn
  next i hi =>
  split at hn
  · cases hn
  next hoffset =>
  exact ⟨i, ((tokenAt?_eq_some_iff h).mp hi).lt_size, Decidable.not_not.mp hoffset⟩

/-- **All nodes that start with a token are on the way up from it.** -/
theorem InOrder.mem_startingWith_iff (h : InOrder t) (hi : i < t.tokens.size) :
    n ∈ t.startingWith i ↔ n < t.nodeCount ∧ t.firstToken n = i := by
  constructor
  · intro hn
    have hfirst : t.firstToken n = i :=
      beq_iff_eq.mp (List.all_eq_true.mp (List.all_takeWhile (p := fun a => t.firstToken a == i)) n hn)
    obtain ⟨ns, hrises⟩ :=
      h.parsed.wellFormed.exists_rises_of_mem ((List.takeWhile_prefix _).subset hn)
    exact ⟨hrises.lt_nodeCount (h.parsed.wellFormed.tokenParent i hi).1 h.parsed.wellFormed, hfirst⟩
  · rintro ⟨hn, rfl⟩
    obtain ⟨ns, hrises, hfirsts⟩ := exists_rises_firstToken h hn
    have hwhile : ∀ m ∈ t.tokenParent (t.firstToken n) :: ns,
        (t.firstToken m == t.firstToken n) = true := fun m hm => beq_iff_eq.mpr (hfirsts m hm)
    rw [startingWith, hrises.ancestors_append h.parsed, ← List.cons_append,
      List.takeWhile_append_of_pos hwhile]
    exact List.mem_append_left _ hrises.mem

/-- **Exactly the nodes of the kind that start at the offset are listed.** -/
theorem mem_startingAt_iff (h : parse source = .ok t) :
    n ∈ t.startingAt k offset ↔ n < t.nodeCount ∧ t.kind n = k ∧ (t.span n).start = offset := by
  have ht := inOrder_of_parse h
  constructor
  · intro hn
    obtain ⟨i, hi, rfl⟩ := exists_token_of_mem_startingAt h hn
    rw [startingAt_offset h hi, List.mem_filter, ht.mem_startingWith_iff hi, beq_iff_eq] at hn
    obtain ⟨⟨hlt, rfl⟩, hk⟩ := hn
    exact ⟨hlt, hk, rfl⟩
  · rintro ⟨hlt, hk, rfl⟩
    have hi := ht.firstToken_lt n
    rw [span, startingAt_offset h hi, List.mem_filter, ht.mem_startingWith_iff hi, beq_iff_eq]
    exact ⟨⟨hlt, rfl⟩, hk⟩

/-- On a way up, a node stands under all later ones. -/
theorem Rises.pairwise {ns : List NodeId} (h : Rises t n ns a) (hp : Parsed t) :
    (n :: ns).Pairwise fun m b => t.isAncestor b m = true := by
  induction h with
  | here => exact List.pairwise_singleton _ _
  | @up c p ns a hc hrises ih =>
    refine List.pairwise_cons.mpr ⟨fun b hb => ?_, ih⟩
    obtain ⟨ms, hms⟩ := hrises.exists_prefix hb
    exact (isAncestor_iff hp).mpr ⟨p, ms, .up hc hms⟩

/-- **Of the nodes listed for an offset, each stands under all later ones.** -/
theorem pairwise_startingAt (h : parse source = .ok t) (k : NodeKind) (offset : Nat) :
    (t.startingAt k offset).Pairwise fun n m => t.isAncestor m n = true := by
  have hp := parsed_of_parse h
  rcases hnodes : t.startingAt k offset with _ | ⟨n, ns⟩
  · exact .nil
  rw [← hnodes]
  obtain ⟨i, hi, rfl⟩ := exists_token_of_mem_startingAt h (n := n) (k := k)
    (hnodes ▸ List.mem_cons_self)
  rw [startingAt_offset h hi]
  obtain ⟨top, hrises⟩ := exists_rises_ancestors hp (t.tokenParent i)
  exact (hrises.pairwise hp).sublist (List.filter_sublist.trans (List.takeWhile_sublist _))

theorem nodup_startingAt (h : parse source = .ok t) (k : NodeKind) (offset : Nat) :
    (t.startingAt k offset).Nodup := by
  refine (pairwise_startingAt h k offset).imp ?_
  rintro n _ habove rfl
  rw [not_isAncestor_self (parsed_of_parse h)] at habove
  cases habove

/-! ## The node of a site

A site keeps kind, offset and how many nodes like it stand further in, and that is enough to find
the node in a tree again. -/

/-- A node is found again in the tree that its site was made for. -/
theorem relocate?_ofNode (h : parse source = .ok t) (hn : n < t.nodeCount)
    (role : SiteRole) : (Site.ofNode t n role).relocate? t = some n := by
  have hmem : n ∈ t.startingAt (t.kind n) (t.span n).start :=
    (mem_startingAt_iff h).mpr ⟨hn, rfl, rfl⟩
  obtain ⟨depth, hdepth⟩ : ∃ depth,
      (t.startingAt (t.kind n) (t.span n).start).idxOf? n = some depth :=
    Option.isSome_iff_exists.mp (List.isSome_idxOf?.mpr hmem)
  obtain ⟨hlt, hsame, -⟩ := List.findIdx?_eq_some_iff_getElem.mp hdepth
  show (t.startingAt (t.kind n) (t.span n).start)[(List.idxOf? n _).getD 0]? = some n
  rw [hdepth, Option.getD_some, List.getElem?_eq_getElem hlt, beq_iff_eq.mp hsame]

/-- **Nodes and tokens are found by their places.**  The nodes listed for a kind and an offset are
those of the kind whose first token starts there, each once and each in front of the ones above it.
Every offset of the source has a token, the last one that holds it, and the site of a node leads
back to the node. -/
theorem places_are_found_again (h : parse source = .ok t) :
    (∀ k offset, (t.startingAt k offset).Nodup ∧
      (t.startingAt k offset).Pairwise (fun n m => t.isAncestor m n = true) ∧
      ∀ n, n ∈ t.startingAt k offset ↔
        n < t.nodeCount ∧ t.kind n = k ∧ (t.token (t.firstToken n)).offset = offset) ∧
    (∀ offset, (t.tokenAt? offset).isSome = true ↔ offset ≤ source.utf8ByteSize) ∧
    (∀ offset i, t.tokenAt? offset = some i ↔ t.LastHolding offset i) ∧
    ∀ n < t.nodeCount, ∀ role, (Site.ofNode t n role).relocate? t = some n := by
  refine ⟨fun k offset => ⟨nodup_startingAt h k offset, pairwise_startingAt h k offset, fun n =>
    mem_startingAt_iff h⟩, fun offset => ?_, fun offset i => tokenAt?_eq_some_iff h,
    fun n hn role => relocate?_ofNode h hn role⟩
  rw [← source_of_parse h]
  constructor
  · intro hsome
    by_contra hgt
    rw [tokenAt?, if_pos (Nat.lt_of_not_le hgt)] at hsome
    cases hsome
  · intro hoffset
    obtain ⟨i, -, hi⟩ := exists_lastHolding h hoffset
    rw [hi]
    rfl

/-- A call of what another call returns; both start at the same place. -/
def chainedCalls : String := "class C \x7b void F() \x7b M(ref a).N(b); \x7d \x7d"

/-- The outer one of two calls that start together is found again, and the end of the file is found
where the source ends. -/
theorem places_are_found_again_chained :
    ∃ t, parse chainedCalls = .ok t ∧ t.startingAt .invocationExpression 21 = [8, 14] ∧
      t.isAncestor 14 8 = true ∧ (Site.ofNode t 14 .declaration).depth = 1 ∧
      (Site.ofNode t 14 .declaration).relocate? t = some 14 ∧ t.LastHolding 39 21 := by
  have hfacts : (parse chainedCalls).toOption.any (fun t => 14 < t.nodeCount ∧
      t.startingAt .invocationExpression 21 = [8, 14] ∧
      (Site.ofNode t 14 .declaration).depth = 1 ∧ t.tokenAt? 39 = some 21) = true := by
    decide +kernel
  cases h : parse chainedCalls with
  | error e =>
    rw [h] at hfacts
    cases hfacts
  | ok t =>
    rw [h] at hfacts
    obtain ⟨hlt, hcalls, hdepth, htoken⟩ := of_decide_eq_true hfacts
    obtain ⟨hnodes, -, htokens, hsites⟩ := places_are_found_again h
    obtain ⟨-, habove, -⟩ := hnodes .invocationExpression 21
    rw [hcalls] at habove
    exact ⟨t, rfl, hcalls, (List.pairwise_cons.mp habove).1 14 (by simp), hdepth,
      hsites 14 hlt .declaration, (htokens 39 21).mp htoken⟩

/-! ## The deepest node with a property

Where the nodes with a property stand above one another, there is one that all others stand above.
-/

/-- How many nodes stand above a node. -/
def depth (t : Tree) (n : NodeId) : Nat := (t.ancestors n).length

/-- The node has the property, and all other nodes with the property stand above it. -/
structure Deepest (t : Tree) (p : NodeId → Prop) (n : NodeId) : Prop where
  lt_nodeCount : n < t.nodeCount
  holds : p n
  others : ∀ m < t.nodeCount, p m → m ≠ n → t.isAncestor m n = true ∧ t.depth m < t.depth n

/-- A node stands deeper than those above it. -/
theorem depth_lt_of_isAncestor (hp : Parsed t) (h : t.isAncestor a n = true) :
    t.depth a < t.depth n := by
  obtain ⟨b, ns, hrises⟩ := (isAncestor_iff hp).mp h
  rw [depth, depth, hrises.ancestors_append hp, List.length_append, List.length_cons]
  omega

/-- **There is one deepest node at most.** -/
theorem Deepest.unique (hm : t.Deepest p m) (hn : t.Deepest p n) : m = n := by
  by_contra hne
  have hlt := (hn.others m hm.lt_nodeCount hm.holds hne).2
  have hgt := (hm.others n hn.lt_nodeCount hn.holds (Ne.symm hne)).2
  exact absurd hlt (Nat.lt_asymm hgt)

/-- It is enough that the other nodes stand above the node. -/
theorem Deepest.of_under (hp : Parsed t) (hlt : n < t.nodeCount) (hn : p n)
    (h : ∀ m < t.nodeCount, p m → t.under n m = true) : t.Deepest p n := by
  refine ⟨hlt, hn, fun m hm hpm hne => ?_⟩
  have habove : t.isAncestor m n = true := by
    have hunder := h m hm hpm
    rwa [under, Bool.or_eq_true, beq_iff_eq, or_iff_right (Ne.symm hne)] at hunder
  exact ⟨habove, depth_lt_of_isAncestor hp habove⟩

/-! ## The nodes that cover a span

The nodes that cover a span are such nodes, since two that stand apart cover no span together. -/

/-- The way down from a node that covers the span ends at one that does. -/
theorem contains_coveringFrom (fuel : Nat) (h : (t.span n).contains span = true) :
    (t.span (t.coveringFrom span fuel n)).contains span = true := by
  induction fuel generalizing n with
  | zero => exact h
  | succ fuel ih =>
    rw [coveringFrom]
    split
    next c hc => exact ih (List.find?_some (p := fun c => (t.span c).contains span) hc)
    next => exact h

/-- What leads up to a node of the tree starts at one. -/
theorem Rises.start_lt {ns : List NodeId} (h : Rises t n ns a) (ht : t.WellFormed)
    (ha : a < t.nodeCount) : n < t.nodeCount := by
  cases h with
  | here => exact ha
  | up hc _ => exact (ht.lt_of_mem hc).2.1

/-- **The way down ends at the deepest node that covers the span.** -/
theorem InOrder.deepest_covering (h : InOrder t) (hspan : span.start < span.stop)
    (hroot : (t.span root).contains span = true) :
    t.Deepest (fun n => (t.span n).contains span = true) (t.covering span) := by
  have hunder : ∀ n < t.nodeCount, (t.span n).contains span = true →
      t.under (t.covering span) n = true := fun n hn hcontains =>
    (under_iff h.parsed).mpr (exists_rises_covering h hn hspan hcontains)
  obtain ⟨ns, hrises⟩ := exists_rises_covering h h.parsed.wellFormed.root_lt hspan hroot
  exact .of_under h.parsed (hrises.start_lt h.parsed.wellFormed h.parsed.wellFormed.root_lt)
    (contains_coveringFrom _ hroot) hunder

/-- Behind a node on the way up, the way goes on from this node. -/
theorem Rises.rest {ns front back : List NodeId} {b : NodeId} (h : Rises t n ns b)
    (hsplit : n :: ns = front ++ a :: back) : Rises t a back b := by
  cases front with
  | nil =>
    obtain ⟨rfl, rfl⟩ := List.cons.inj hsplit
    exact h
  | cons m front =>
    obtain ⟨rfl, rfl⟩ := List.cons.inj hsplit
    exact h.split.2

/-- **The first node with a property on the way up is the deepest with it**, if all nodes with the
property are on the way. -/
theorem deepest_of_find? (hp : Parsed t) (hn : n < t.nodeCount) {q : NodeId → Bool}
    (hfind : (n :: t.ancestors n).find? q = some a)
    (hway : ∀ m < t.nodeCount, q m = true → t.under n m = true) :
    t.Deepest (fun m => q m = true) a := by
  obtain ⟨hq, front, back, hsplit, hfront⟩ := List.find?_eq_some_iff_append.mp hfind
  obtain ⟨top, hrises⟩ := exists_rises_ancestors hp n
  have ha : a ∈ n :: t.ancestors n := hsplit ▸ List.mem_append_right _ List.mem_cons_self
  obtain ⟨ns, hrises'⟩ := hrises.exists_prefix ha
  refine .of_under hp (hrises'.lt_nodeCount hn hp.wellFormed) hq fun m hm hqm => ?_
  have hmem : m ∈ n :: t.ancestors n := by
    have hunder := hway m hm hqm
    rw [under, Bool.or_eq_true, beq_iff_eq, isAncestor, List.contains_iff_mem] at hunder
    exact List.mem_cons.mpr (hunder.imp_left Eq.symm)
  -- the node does not stand in front of the one that was found, so it is above it
  rw [hsplit] at hmem
  rcases List.mem_append.mp hmem with hm | hm
  · have hnot := hfront m hm
    rw [hqm] at hnot
    cases hnot
  · exact (under_iff hp).mpr (Rises.exists_prefix (hrises.rest hsplit) hm)

/-- **A search by kind and span finds the deepest such node.** -/
theorem InOrder.deepest_findNode? (h : InOrder t) (hspan : span.start < span.stop)
    (hroot : (t.span root).contains span = true) {k : NodeKind} (hfind : t.findNode? k span = some n) :
    t.Deepest (fun m => t.kind m = k ∧ t.span m = span) n := by
  have hdeepest := deepest_of_find? h.parsed (h.deepest_covering hspan hroot).lt_nodeCount
    (q := fun m => t.kind m == k && t.span m == span) hfind fun m hm hq => by
      simp only [Bool.and_eq_true, beq_iff_eq] at hq
      exact (under_iff h.parsed).mpr
        (exists_rises_covering h hm hspan (by simp [hq.2, Span.contains]))
  simpa only [Bool.and_eq_true, beq_iff_eq] using hdeepest

/-- A search by kind and span finds something if there is such a node. -/
theorem InOrder.isSome_findNode? (h : InOrder t) (hspan : span.start < span.stop) {k : NodeKind}
    (hn : n < t.nodeCount) (hk : t.kind n = k) (hs : t.span n = span) :
    (t.findNode? k span).isSome = true := by
  have hunder : t.under (t.covering span) n = true := (under_iff h.parsed).mpr
    (exists_rises_covering h hn hspan (by simp [hs, Span.contains]))
  rw [under, Bool.or_eq_true, beq_iff_eq, isAncestor, List.contains_iff_mem] at hunder
  refine List.find?_isSome.mpr ⟨n, List.mem_cons.mpr (hunder.imp_left Eq.symm), ?_⟩
  rw [hk, hs, beq_self_eq_true, beq_self_eq_true]
  rfl

/-- **What covers a span and what has it is found.**  For every span of the root in which something
stands, the way down ends at the deepest node that covers the span, and the search by kind and span
finds the deepest node of the kind with this span, if there is a node of the kind with this span. -/
theorem spans_are_found (h : parse source = .ok t) (hspan : span.start < span.stop)
    (hroot : (t.span root).contains span = true) :
    (∀ n, t.covering span = n ↔ t.Deepest (fun m => (t.span m).contains span = true) n) ∧
    ∀ k, (∀ n, t.findNode? k span = some n ↔
        t.Deepest (fun m => t.kind m = k ∧ t.span m = span) n) ∧
      ((t.findNode? k span).isSome = true ↔
        ∃ m < t.nodeCount, t.kind m = k ∧ t.span m = span) := by
  have ht := inOrder_of_parse h
  have hcovering := ht.deepest_covering hspan hroot
  refine ⟨fun n => ⟨fun heq => heq ▸ hcovering, hcovering.unique⟩, fun k => ⟨fun n => ?_, ?_⟩⟩
  · refine ⟨ht.deepest_findNode? hspan hroot, fun hn => ?_⟩
    obtain ⟨m, hm⟩ := Option.isSome_iff_exists.mp
      (ht.isSome_findNode? hspan hn.lt_nodeCount hn.holds.1 hn.holds.2)
    rw [hm, (ht.deepest_findNode? hspan hroot hm).unique hn]
  · constructor
    · intro hsome
      obtain ⟨m, hm⟩ := Option.isSome_iff_exists.mp hsome
      have hdeepest := ht.deepest_findNode? hspan hroot hm
      exact ⟨m, hdeepest.lt_nodeCount, hdeepest.holds⟩
    · rintro ⟨m, hm, hk, hs⟩
      exact ht.isSome_findNode? hspan hm hk hs

/-- An argument and the name in it have one span; the search by kind tells them apart. -/
theorem spans_are_found_chained :
    ∃ t, parse chainedCalls = .ok t ∧ (t.span root).contains ⟨32, 33⟩ = true ∧
      t.span 16 = ⟨32, 33⟩ ∧ t.span 17 = ⟨32, 33⟩ ∧
      t.Deepest (fun m => (t.span m).contains ⟨32, 33⟩ = true) 17 ∧
      t.findNode? .argument ⟨32, 33⟩ = some 16 ∧
      t.Deepest (fun m => t.kind m = .argument ∧ t.span m = ⟨32, 33⟩) 16 := by
  have hfacts : (parse chainedCalls).toOption.any (fun t =>
      (t.span root).contains ⟨32, 33⟩ = true ∧ t.span 16 = ⟨32, 33⟩ ∧ t.span 17 = ⟨32, 33⟩ ∧
      t.covering ⟨32, 33⟩ = 17 ∧ t.findNode? .argument ⟨32, 33⟩ = some 16) = true := by
    decide +kernel
  cases h : parse chainedCalls with
  | error e =>
    rw [h] at hfacts
    cases hfacts
  | ok t =>
    rw [h] at hfacts
    obtain ⟨hroot, hargument, hname, hcovering, hfound⟩ := of_decide_eq_true hfacts
    obtain ⟨hcovers, hkinds⟩ := spans_are_found h (by decide) hroot
    exact ⟨t, rfl, hroot, hargument, hname, (hcovers 17).mp hcovering, hfound,
      ((hkinds .argument).1 16).mp hfound⟩

end Tree

end CodeMend
