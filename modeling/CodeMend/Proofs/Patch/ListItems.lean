import CodeMend.Proofs.Patch.Spans
import CodeMend.Proofs.Token.Removal
import CodeMend.Proofs.Tree.Ends
import CodeMend.Proofs.Tree.Signatures
import CodeMend.Proofs.Tree.Trivia

/-!
# CodeMend — what taking items out of a list leaves

Items go from a list with one comma each.  What is left are the same tokens, but for these items
and commas: the items that stay, with commas between them, in the same brackets.  A directive that
stands right behind items that go is what this fails for: it comes to stand behind a mark.

* **`SeparatedList.removeItems?_eq_none_iff`** — for which lists and indices there are no deletions.
* **`SeparatedList.splices_joinTouching`** — deleting spans that touch is deleting them together.
* **`SeparatedList.saysWithout_all`**, **`SeparatedList.saysWithout_some`** — what is left when no
  item stays, and when some do.
* **`removal_keeps_the_other_items`** — the deletions, and the tokens of the text without them.
-/

namespace CodeMend

open Tree

variable {t : Tree} {n : NodeId} {source : String} {tokens : List Token}

namespace SeparatedList

variable {l : SeparatedList} {remove : List Nat} {last : Nat}

/-! ## Lists without deletions

The deletions are computed from the indices that go.  There are three reasons for which nothing is
computed. -/

/-- **There are no deletions for an empty list, for one that ends in a comma and for an index out of
range**, and for nothing else. -/
theorem removeItems?_eq_none_iff (h : InOrder t) (hg : Gapless t)
    (hk : t.kind n = .parameterList ∨ t.kind n = .argumentList) :
    (ofNode t n).removeItems? t remove = none ↔ (ofNode t n).items = [] ∨
      (ofNode t n).EndsInComma ∨ ∃ i ∈ remove, (ofNode t n).items.length ≤ i := by
  obtain ⟨mid, halternates, -⟩ := h.exists_alternates hk
  have hnone : (ofNode t n).removeItems? t remove = none ↔ (ofNode t n).items.length = 0 ∨
      (ofNode t n).separators.length + 1 ≠ (ofNode t n).items.length ∨
        ∃ i ∈ remove, (ofNode t n).items.length ≤ i := by
    simp [removeItems?, imp_iff_not_or, or_assoc]
  rw [hnone, List.length_eq_zero_iff]
  by_cases hne : (ofNode t n).items = []
  · simp [hne]
  · have hlength := halternates.length_eq
    rw [endsInComma_iff h hg hk hne]
    simp only [hne, false_or]
    refine or_congr_left ⟨fun hmore => hlength.resolve_right hmore, fun hsame => ?_⟩
    omega

/-! ## Spans that touch

The span of an item may end where the next one starts.  Such spans are joined, since edits that
touch would be taken for conflicts, and the joined spans delete the same. -/

section Joining

variable {offset : Nat} {rest out : List Char} {spans : List Span}

theorem head?_joinTouching (spans : List Span) :
    (joinTouching spans).head?.map Span.start = spans.head?.map Span.start := by
  fun_induction joinTouching spans with
  | case1 a b rest htouch ih => exact ih
  | case2 a b rest htouch ih => rfl
  | case3 spans hshort => rfl

/-- No neighbours touch any more. -/
theorem isChain_joinTouching (spans : List Span) :
    (joinTouching spans).IsChain fun a b => a.stop ≠ b.start := by
  fun_induction joinTouching spans with
  | case1 a b rest htouch ih => exact ih
  | case2 a b rest htouch ih =>
    have hhead := head?_joinTouching (b :: rest)
    refine List.isChain_cons.mpr ⟨fun c hc => ?_, ih⟩
    rw [Option.mem_def.mp hc] at hhead
    rw [Option.some.inj hhead]
    exact mt beq_iff_eq.mpr htouch
  | case3 spans hshort =>
    rcases spans with - | ⟨a, - | ⟨b, rest⟩⟩
    · exact .nil
    · exact .singleton a
    · exact absurd rfl (hshort a b rest)

/-- Deleting spans that touch is deleting what they make up together. -/
theorem splices_joinTouching (h : Splices offset rest (erasing spans) out) :
    Splices offset rest (erasing (joinTouching spans)) out := by
  fun_induction joinTouching spans generalizing offset rest out with
  | case1 a b more htouch ih =>
    refine ih ?_
    have hab : a.stop = b.start := beq_iff_eq.mp htouch
    obtain ⟨start, stop⟩ := a
    obtain ⟨start', stop'⟩ := b
    cases h with
    | cons _ keep gone rest out _ _ htail =>
      generalize hmiddle : offset + byteLength keep + byteLength gone = middle at hab htail
      cases htail with
      | cons _ keep' gone' rest out _ _ htail =>
        -- nothing stands between the two that could stay
        have hnil : keep' = [] := byteLength_eq_zero_iff.mp (Nat.left_eq_add.mp hab)
        subst hnil hmiddle
        have hboth := Splices.cons offset keep (gone ++ gone') rest out "" (erasing more)
          (by simpa [erasing, byteLength_append, Nat.add_assoc] using htail)
        simpa [erasing, byteLength_append, Nat.add_assoc] using hboth
  | case2 a b more htouch ih =>
    cases h with
    | cons _ keep gone rest out _ _ htail => exact .cons _ keep gone _ _ "" _ (ih htail)
  | case3 spans hshort => exact h

/-- **Deletions that walk through a source, joined where they touch, are a batch** whose text has
the words that the walk leaves. -/
theorem exists_tokens_of_saysWithout {ws : List (TokenKind × String)}
    (h : SaysWithout true 0 source.toList spans ws) :
    Separated (erasing (joinTouching (sortStable (fun a b => compare a.start b.start) spans))) ∧
      ∃ text tokens, applyEdits source (erasing (joinTouching
        (sortStable (fun a b => compare a.start b.start) spans))) = .ok text ∧
        tokenize text = .ok tokens ∧ tokens.map Token.word = ws := by
  obtain ⟨rest, out, hsplices, hread, hwords⟩ := h
  -- a walk goes through the source in order, so there is nothing to sort
  have hsorted : sortStable (fun a b => compare a.start b.start) spans = spans := by
    refine sortStable_eq_self ?_
    have hstarts := hsplices.starts_le
    rw [erasing, List.pairwise_map] at hstarts
    exact hstarts.imp Nat.compare_ne_gt.mpr
  rw [hsorted]
  have hjoined := splices_joinTouching hsplices
  have hseparated : Separated (erasing (joinTouching spans)) := by
    refine hjoined.separated ?_
    rw [erasing, List.isChain_map]
    exact isChain_joinTouching spans
  have hsource : (String.ofList rest).toList = rest := String.toList_ofList
  rw [← hsource] at hread
  obtain ⟨tokens, htokens⟩ := exists_tokenize_of_reading hread
  refine ⟨hseparated, _, tokens, applyEdits_of_splices hjoined hseparated, htokens, ?_⟩
  obtain rfl := Option.some.inj (hread.symm.trans (reading_of_tokenize htokens))
  rw [← hwords, filterMap_word?_lexemes]
  rfl

end Joining

/-! ## The items that stay

An item goes with the comma behind it, except at the end of the list, where the comma in front has
to go.  So everything depends on the last item that stays. -/

/-- The items that stay. -/
def kept (l : SeparatedList) (remove : List Nat) : List NodeId :=
  ((List.range l.items.length).filter fun i => !remove.contains i).map fun i => l.items.getD i 0

/-- The token behind an item that goes with the comma behind it: the first one of the next item, or
the closing bracket. -/
def tokenBehind (l : SeparatedList) (t : Tree) (i : Nat) : Token :=
  t.token ((l.items[i + 1]?).elim l.close t.firstToken)

/-- No directive stands between items that go and what stands behind them. -/
def NoDirectiveBehind (l : SeparatedList) (t : Tree) (remove : List Nat) : Prop :=
  ∀ i ∈ remove, i + 1 ∉ remove → Undirected (l.tokenBehind t i).leading

instance : Decidable (l.NoDirectiveBehind t remove) :=
  inferInstanceAs (Decidable (∀ i ∈ remove, i + 1 ∉ remove →
    Undirected (l.tokenBehind t i).leading))

theorem mem_of_lastKept?_eq_none {bound : Nat} (h : lastKept? remove bound = none) :
    ∀ i < bound, i ∈ remove := by
  induction bound with
  | zero => simp
  | succ bound ih =>
    unfold lastKept? at h
    split at h
    next hmem =>
      intro i hi
      rcases Nat.lt_succ_iff_lt_or_eq.mp hi with hi | rfl
      · exact ih h i hi
      · exact List.contains_iff_mem.mp hmem
    next => cases h

/-- The last index that stays, and the indices behind it go. -/
theorem of_lastKept? {bound : Nat} (h : lastKept? remove bound = some last) :
    last ∉ remove ∧ ∀ i, last < i → i < bound → i ∈ remove := by
  induction bound with
  | zero => cases h
  | succ bound ih =>
    unfold lastKept? at h
    split at h
    next hmem =>
      obtain ⟨hlast, hbehind⟩ := ih h
      refine ⟨hlast, fun i hi hlt => ?_⟩
      rcases Nat.lt_succ_iff_lt_or_eq.mp hlt with hlt | rfl
      · exact hbehind i hi hlt
      · exact List.contains_iff_mem.mp hmem
    next hmem =>
      obtain rfl := Option.some.inj h
      refine ⟨fun hlast => hmem (List.contains_iff_mem.mpr hlast), fun i hi hlt => ?_⟩
      omega

theorem kept_of_none (h : lastKept? remove l.items.length = none) : l.kept remove = [] := by
  have hnone : ((List.range l.items.length).filter fun i => !remove.contains i) = [] := by
    refine List.filter_eq_nil_iff.mpr fun i hi => ?_
    simpa using mem_of_lastKept?_eq_none h i (List.mem_range.mp hi)
  rw [kept, hnone]
  rfl

theorem kept_of_some (h : lastKept? remove l.items.length = some last) :
    l.kept remove = (((List.range last).filter fun i => !remove.contains i).map fun i =>
      l.items.getD i 0) ++ [l.items.getD last 0] := by
  obtain ⟨hlast, hbehind⟩ := of_lastKept? h
  have hrange : List.range l.items.length =
      List.range last ++ last :: List.range' (last + 1) (l.items.length - (last + 1)) := by
    have hlt := lt_of_lastKept? h
    have hboth := Parser.range'_append_of_le (Nat.zero_le last) (Nat.le_of_lt hlt)
    rw [Parser.range'_eq_cons_of_lt hlt] at hboth
    simpa [List.range_eq_range'] using hboth.symm
  have hnone : ((List.range' (last + 1) (l.items.length - (last + 1))).filter
      fun i => !remove.contains i) = [] := by
    refine List.filter_eq_nil_iff.mpr fun i hi => ?_
    rw [List.mem_range'_1] at hi
    simpa using hbehind i hi.1 (by omega)
  rw [kept, hrange, List.filter_append, List.filter_cons_of_pos (by simpa using hlast), hnone,
    List.map_append]
  rfl

/-! ## Items with their commas

The tokens of a list are cut into entries, each an item with its comma.  An entry is kept or taken
out as a whole, and this is the form in which sources without some of their words are known. -/

/-- An item with the comma behind it. -/
def entry (t : Tree) (l : SeparatedList) (remove : List Nat) (i : Nat) : Entry where
  removed := remove.contains i
  first := t.token (t.firstToken (l.items.getD i 0))
  more := (t.tokensOf (l.items.getD i 0)).tail
  comma := t.token (l.separators.getD i 0)

theorem tokens_entry (h : InOrder t) (i : Nat) : (entry t l remove i).tokens =
    t.tokensOf (l.items.getD i 0) ++ [t.token (l.separators.getD i 0)] := by
  rw [tokensOf_eq_cons h]
  rfl

/-- The tokens of a list: the items in front of one of them with their commas, that item, and
what stands between it and the closing bracket. -/
theorem exists_tokens_at (h : InOrder t) (hg : Gapless t)
    (hk : t.kind n = .parameterList ∨ t.kind n = .argumentList)
    (hlength : (ofNode t n).separators.length + 1 = (ofNode t n).items.length)
    (hlast : last < (ofNode t n).items.length) (remove : List Nat) :
    ∃ rest, t.tokensOf n = t.token (ofNode t n).opening ::
        (((List.range last).map (entry t (ofNode t n) remove)).flatMap Entry.tokens ++
          (t.tokensOf ((ofNode t n).items.getD last 0) ++
            (rest ++ [t.token (ofNode t n).close]))) ∧
      (last + 1 = (ofNode t n).items.length ∧ rest = [] ∨
        last + 1 < (ofNode t n).items.length ∧
          ∃ p ts, rest = t.token ((ofNode t n).separators.getD last 0) :: p :: ts) := by
  obtain ⟨mid, halternates, htokens⟩ := exists_tokensOf h hg hk
  obtain ⟨cs, hrest, rfl⟩ := halternates.exists_drop (k := last) (by omega)
  have hitem : (ofNode t n).items[last]? = (List.drop last (ofNode t n).items).head? := by
    rw [List.head?_drop]
  have hseparator : (ofNode t n).separators[last]? =
      (List.drop last (ofNode t n).separators).head? := by
    rw [List.head?_drop]
  have hitems : (List.drop last (ofNode t n).items).length = _ := List.length_drop
  have hseparators : (List.drop last (ofNode t n).separators).length = _ := List.length_drop
  have hfront : ((List.range last).flatMap fun i => [Child.node ((ofNode t n).items.getD i 0),
      .token ((ofNode t n).separators.getD i 0)]).flatMap t.tokensUnder =
      ((List.range last).map (entry t (ofNode t n) remove)).flatMap Entry.tokens := by
    rw [List.flatMap_assoc, List.flatMap_map]
    refine List.flatMap_congr fun i _ => ?_
    rw [tokens_entry h]
    simp [tokensUnder]
  -- what is left of the list starts with the item, and goes on with its comma unless it is the last
  generalize List.drop last (ofNode t n).items = ns at hrest hitem hitems
  generalize List.drop last (ofNode t n).separators = is at hrest hseparator hseparators
  rw [List.flatMap_append, hfront] at htokens
  cases hrest with
  | nil =>
    simp only [List.length_nil] at hitems
    omega
  | last m =>
    simp only [List.length_cons, List.length_nil] at hitems
    refine ⟨[], ?_, .inl ⟨by omega, rfl⟩⟩
    rw [htokens, List.getD_eq_getElem?_getD, hitem]
    simp [tokensUnder]
  | @more m i ns is cs hmore =>
    simp only [List.length_cons] at hitems hseparators
    obtain ⟨next, cs', rfl⟩ : ∃ next cs', cs = .node next :: cs' := by
      cases hmore with
      | nil =>
        simp only [List.length_nil] at hitems hseparators
        omega
      | last next => exact ⟨next, [], rfl⟩
      | more next j _ => exact ⟨next, _, rfl⟩
    refine ⟨t.token i :: (t.tokensOf next ++ cs'.flatMap t.tokensUnder), ?_,
      .inr ⟨by omega, t.token (t.firstToken next),
        (t.tokensOf next).tail ++ cs'.flatMap t.tokensUnder, ?_⟩⟩
    · rw [htokens, List.getD_eq_getElem?_getD, hitem]
      simp [tokensUnder]
    · rw [List.getD_eq_getElem?_getD, hseparator, tokensOf_eq_cons h next]
      simp

/-- The spans of the items that go with the commas behind them. -/
theorem spans_entries (t : Tree) (l : SeparatedList) (remove is : List Nat) :
    (is.map (entry t l remove)).filterMap Entry.span? = (is.filter remove.contains).map fun i =>
      ⟨(t.token (t.firstToken (l.items.getD i 0))).fullStart,
        (t.token (l.separators.getD i 0)).fullStop⟩ := by
  rw [List.filterMap_map]
  conv_rhs => rw [← List.filterMap_eq_map, List.filterMap_filter]
  rfl

/-- The word that stands between two items. -/
theorem word_of_isMark {p : Token} {text : String} (h : p.isMark text = true) :
    p.word = (.punctuation, text) := by
  simp only [Token.isMark, Bool.and_eq_true, beq_iff_eq] at h
  rw [Token.word, h.1, h.2]

/-- The words of the items that stay, each with its comma. -/
theorem kept_entries (h : InOrder t) {is : List Nat}
    (hcommas : ∀ i ∈ is, (t.token (l.separators.getD i 0)).isMark "," = true) :
    ((is.map (entry t l remove)).flatMap Entry.kept).map Token.word =
      ((is.filter fun i => !remove.contains i).map fun i => l.items.getD i 0).flatMap fun m =>
        (t.tokensOf m).map Token.word ++ [(.punctuation, ",")] := by
  induction is with
  | nil => rfl
  | cons i is ih =>
    obtain ⟨hcomma, hrest⟩ := List.forall_mem_cons.mp hcommas
    rw [List.map_cons, List.flatMap_cons, List.map_append, ih hrest, Entry.kept, tokens_entry h]
    cases hremoved : (entry t l remove i).removed with
    | false =>
      have hkept : (!remove.contains i) = true := by
        rw [show remove.contains i = false from hremoved]
        rfl
      rw [if_neg Bool.false_ne_true, List.filter_cons, if_pos hkept, List.map_cons,
        List.flatMap_cons, ← word_of_isMark hcomma, List.map_append]
      rfl
    | true =>
      have hgone : ¬ (!remove.contains i) = true := by
        rw [show remove.contains i = true from hremoved]
        decide
      rw [if_pos rfl, List.filter_cons, if_neg hgone]
      rfl

/-- The first token of what comes after an item that goes has no directive in front of it, if it
stays. -/
theorem clear_entries (hclear : l.NoDirectiveBehind t remove)
    (hlast : last < l.items.length) (hkept : last ∉ remove) {i : Nat} {e : Entry}
    (he : ((List.range last).map (entry t l remove))[i]? = some e) (hremoved : e.removed = true) :
    Entry.Clear (t.token (t.firstToken (l.items.getD last 0)))
      (((List.range last).map (entry t l remove)).drop (i + 1)) := by
  obtain ⟨hi, rfl⟩ := List.getElem?_eq_some_iff.mp he
  rw [List.length_map, List.length_range] at hi
  rw [List.getElem_map, List.getElem_range] at hremoved
  have hmem : i ∈ remove := List.contains_iff_mem.mp hremoved
  have hnext : i + 1 ∉ remove →
      Undirected (t.token (t.firstToken (l.items.getD (i + 1) 0))).leading := by
    intro hnot
    have hthere : i + 1 < l.items.length := by omega
    have hbehind := hclear i hmem hnot
    rw [tokenBehind, List.getElem?_eq_getElem hthere] at hbehind
    rwa [List.getD_eq_getElem?_getD, List.getElem?_eq_getElem hthere]
  rcases Nat.lt_or_eq_of_le (Nat.succ_le_of_lt hi) with hlt | heq
  · rw [List.drop_eq_getElem_cons (by simpa using hlt), List.getElem_map, List.getElem_range]
    exact fun hfalse => hnext fun hcontained =>
      Bool.false_ne_true (hfalse.symm.trans (List.contains_iff_mem.mpr hcontained))
  · rw [List.drop_eq_nil_of_le (by simp [← heq])]
    have hclose := hnext (by rwa [show i + 1 = last from heq])
    rwa [show i + 1 = last from heq] at hclose

/-- The spans that go are some spans in order, of which those that touch are joined. -/
theorem removedSpans_of_none (h : lastKept? remove l.items.length = none) :
    removedSpans t l remove = joinTouching (sortStable (fun a b => compare a.start b.start)
      [⟨(t.token (t.firstToken (l.items.getD 0 0))).fullStart, (t.token l.close).fullStart⟩]) := by
  unfold removedSpans
  rw [h]
  simp [sortStable, insertSorted, joinTouching]

/-! ## What is left

The two cases, that some item stays and that none does, are put together.  The examples show what
becomes of comments, and what a directive in the way does. -/

section Source

variable {spans : List Span} {ws : List (TokenKind × String)} (ht : parse source = .ok t)
  (htokens : tokenize source = .ok tokens)
  (hk : t.kind n = .parameterList ∨ t.kind n = .argumentList)

include ht htokens

theorem tokens_of_tokenize : t.tokens = tokens.toArray := by
  obtain ⟨tokens', s, b, htokens', -, -, rfl, -⟩ := Grammar.exists_whole_of_parse ht
  obtain rfl := Except.ok.inj (htokens.symm.trans htokens')
  rfl

include hk

/-- The closing bracket and what stands behind the list. -/
theorem drop_close : tokens.drop (ofNode t n).close =
      t.token (ofNode t n).close :: tokens.drop ((ofNode t n).close + 1) ∧
    tokens.drop ((ofNode t n).close + 1) ≠ [] := by
  have htree := tokens_of_tokenize ht htokens
  have hsize := (isMark_brackets (inOrder_of_parse ht) hk).2.2
  rw [htree, List.size_toArray] at hsize
  refine ⟨?_, ?_⟩
  · rw [List.drop_eq_getElem_cons (Nat.lt_of_succ_lt hsize), token_eq_getElem htree]
  · rw [Ne, List.drop_eq_nil_iff, Nat.not_le]
    exact hsize

/-- Everything through the opening bracket of a list stays. -/
theorem saysWithout_behind_opening {inner : List Token}
    (hinner : t.tokensOf n = t.token (ofNode t n).opening ::
      (inner ++ [t.token (ofNode t n).close]))
    (hrest : ∀ pos F, (t.token (ofNode t n).opening :: (inner ++
        tokens.drop (ofNode t n).close)).IsChain Divided →
      Lexed pos false (t.token (ofNode t n).opening).trailing F (inner ++
        tokens.drop (ofNode t n).close) → SaysWithout false pos F spans ws) :
    SaysWithout true 0 source.toList spans
      ((tokens.take ((ofNode t n).opening + 1)).map Token.word ++ ws) := by
  have h := inOrder_of_parse ht
  have htree := tokens_of_tokenize ht htokens
  have hlt : (ofNode t n).opening < tokens.length := by
    have hsize := Nat.lt_of_le_of_lt (h.firstToken_le_lastToken n).1 (h.firstToken_le_lastToken n).2
    rwa [htree, List.size_toArray] at hsize
  have hsplit : tokens = tokens.take (ofNode t n).opening ++
      (t.tokensOf n ++ tokens.drop ((ofNode t n).close + 1)) := tokens_eq_append htree h n
  rw [hinner, List.cons_append, List.append_assoc, List.singleton_append,
    ← (drop_close ht htokens hk).1] at hsplit
  have hopening : (t.token (ofNode t n).opening).text = "(" :=
    Parser.text_of_isMark (isMark_brackets h hk).1
  have hlexed := lexed_of_tokenize htokens
  have hchain := isChain_divided_of_tokenize htokens
  have hfirst : tokens.take ((ofNode t n).opening + 1) =
      tokens.take (ofNode t n).opening ++ [t.token (ofNode t n).opening] := by
    rw [token_eq_getElem htree hlt, List.take_concat_get']
  -- The tokens up to the opening bracket stay, and nothing goes on with a bracket.
  rw [hsplit] at hlexed hchain
  rw [hfirst]
  refine hlexed.saysWithout_mark ?_ ?_ ?_ fun pos F => hrest pos F hchain.right_of_append
  · rw [(drop_close ht htokens hk).1]
    simp
  · rw [hopening]
    decide
  · rw [hopening]
    decide

variable (hlength : (ofNode t n).separators.length + 1 = (ofNode t n).items.length)

omit ht htokens hk in
include hlength in
/-- What stands behind an item is a comma. -/
theorem isMark_separator (hmore : last + 1 < (ofNode t n).items.length) :
    (t.token ((ofNode t n).separators.getD last 0)).isMark "," = true := by
  have hlt : last < (ofNode t n).separators.length := by omega
  rw [List.getD_eq_getElem?_getD, List.getElem?_eq_getElem hlt, Option.getD_some]
  exact (List.mem_filter.mp (List.getElem_mem hlt)).2

omit htokens in
/-- An item does not end in the mark of a division. -/
theorem isMark_item (hlast : last < (ofNode t n).items.length) :
    (t.token (t.lastToken ((ofNode t n).items.getD last 0))).isMark "/" = false := by
  have h := inOrder_of_parse ht
  have hmem : (ofNode t n).items.getD last 0 ∈ t.childNodes n := by
    rw [List.getD_eq_getElem?_getD, List.getElem?_eq_getElem hlast, Option.getD_some]
    exact List.getElem_mem hlast
  refine h.isMark_lastToken (h.parsed.wellFormed.lt_of_mem hmem).2.1 ?_
  rcases hk with hk | hk
  · rw [h.parsed.kind_of_mem_parameters hk _ hmem]
    decide
  · rw [h.parsed.kind_of_mem_arguments (by rw [hk]; decide) _ hmem]
    decide

include hlength

/-- **All items go.** -/
theorem saysWithout_all (hclear : Undirected (t.token (ofNode t n).close).leading) :
    SaysWithout true 0 source.toList
      [⟨(t.token (t.firstToken ((ofNode t n).items.getD 0 0))).fullStart,
        (t.token (ofNode t n).close).fullStart⟩]
      ((tokens.take ((ofNode t n).opening + 1)).map Token.word ++
        (tokens.drop (ofNode t n).close).map Token.word) := by
  have h := inOrder_of_parse ht
  have hfirst : 0 < (ofNode t n).items.length := by omega
  obtain ⟨rest, hinner, -⟩ :=
    exists_tokens_at h (gapless_of_parse ht) hk hlength hfirst []
  rw [List.range_zero, List.map_nil, List.flatMap_nil, List.nil_append,
    tokensOf_eq_cons h ((ofNode t n).items.getD 0 0), ← List.append_assoc] at hinner
  refine saysWithout_behind_opening ht htokens hk hinner fun pos F hchain hF => ?_
  rw [(drop_close ht htokens hk).1] at hchain hF ⊢
  refine hF.saysWithout_run (.inr ⟨rfl, (List.isChain_cons_cons.mp hchain).1⟩) fun b' S hS => ?_
  exact (hS.of_undirected hclear).saysWithout_nil

/-- What stands behind the last item that stays goes. -/
theorem saysWithout_tail (hlast : last < (ofNode t n).items.length)
    (hclear : last + 1 < (ofNode t n).items.length →
      Undirected (t.token (ofNode t n).close).leading) {rest : List Token} {pos : Nat}
    {behind : List Trivia} {cs : List Char}
    (hrest : last + 1 = (ofNode t n).items.length ∧ rest = [] ∨
        last + 1 < (ofNode t n).items.length ∧
          ∃ p ts, rest = t.token ((ofNode t n).separators.getD last 0) :: p :: ts)
    (hcs : Lexed pos false behind cs (t.tokensOf ((ofNode t n).items.getD last 0) ++
      (rest ++ tokens.drop (ofNode t n).close)))
    (hchain : (t.tokensOf ((ofNode t n).items.getD last 0) ++
      (rest ++ tokens.drop (ofNode t n).close)).IsChain Divided) :
    SaysWithout false pos cs
      (if last + 1 < (ofNode t n).items.length then
        tailSpans (t.token ((ofNode t n).separators.getD last 0)) (t.token (ofNode t n).close)
      else [])
      ((t.tokensOf ((ofNode t n).items.getD last 0)).map Token.word ++
        (tokens.drop (ofNode t n).close).map Token.word) := by
  have h := inOrder_of_parse ht
  rcases hrest with ⟨hend, rfl⟩ | ⟨hmore, p, ts, rfl⟩
  · rw [if_neg (Nat.not_lt.mpr hend.ge)]
    have hall := hcs.saysWithout_nil
    rwa [List.map_append] at hall
  · -- the item stays through its last word, and the cut comes in front of the comma behind it
    rw [if_pos hmore]
    obtain ⟨front, hfront⟩ := tokensOf_eq_concat h ((ofNode t n).items.getD last 0)
    obtain ⟨hdrop, hback⟩ := drop_close ht htokens hk
    have hclose := Parser.text_of_isMark (isMark_brackets h hk).2.1
    have hcomma := Parser.text_of_isMark (isMark_separator hlength hmore)
    rw [hfront, hdrop, List.append_assoc, List.singleton_append] at hcs hchain
    have hpair := hchain.right_of_append
    obtain ⟨hbefore, hpair⟩ := List.isChain_cons_cons.mp hpair
    have hbehind := (List.isChain_cons_cons.mp hpair).1
    rw [hfront, hdrop]
    refine hcs.saysWithout_word (by simp) (isMark_item ht hk hlast) fun F hF => ?_
    unfold tailSpans
    split
    · exact hF.exists_cropped hback hcomma hclose hbefore (hclear hmore)
    · exact hF.exists_cropped_comment hback hcomma hclose hbehind

variable (hin : ∀ i ∈ remove, i < (ofNode t n).items.length)
  (hclear : (ofNode t n).NoDirectiveBehind t remove)

include hin hclear

omit ht htokens hk hlength in
/-- When the last item goes, no directive stands in front of the closing bracket. -/
theorem undirected_close (hpos : 0 < (ofNode t n).items.length)
    (hmem : (ofNode t n).items.length - 1 ∈ remove) :
    Undirected (t.token (ofNode t n).close).leading := by
  have hnot : (ofNode t n).items.length - 1 + 1 ∉ remove := by
    intro hmem'
    have := hin _ hmem'
    omega
  have hend := hclear _ hmem hnot
  rwa [tokenBehind, List.getElem?_eq_none (by omega)] at hend

/-- **Some items stay.** -/
theorem saysWithout_some (hkept : lastKept? remove (ofNode t n).items.length = some last) :
    SaysWithout true 0 source.toList
      ((((List.range last).filter remove.contains).map fun i =>
          ⟨(t.token (t.firstToken ((ofNode t n).items.getD i 0))).fullStart,
            (t.token ((ofNode t n).separators.getD i 0)).fullStop⟩) ++
        if last + 1 < (ofNode t n).items.length then
          tailSpans (t.token ((ofNode t n).separators.getD last 0)) (t.token (ofNode t n).close)
        else [])
      ((tokens.take ((ofNode t n).opening + 1)).map Token.word ++
        ([(.punctuation, ",")].intercalate (((ofNode t n).kept remove).map fun m =>
          (t.tokensOf m).map Token.word) ++ (tokens.drop (ofNode t n).close).map Token.word)) := by
  have h := inOrder_of_parse ht
  have hlast := lt_of_lastKept? hkept
  obtain ⟨hstays, hgo⟩ := of_lastKept? hkept
  obtain ⟨rest, hinner, hrest⟩ :=
    exists_tokens_at h (gapless_of_parse ht) hk hlength hlast remove
  have hcommas : ∀ i ∈ List.range last,
      (t.token ((ofNode t n).separators.getD i 0)).isMark "," = true := by
    intro i hi
    have hlt := List.mem_range.mp hi
    exact isMark_separator hlength (by omega)
  have hback : last + 1 < (ofNode t n).items.length →
      Undirected (t.token (ofNode t n).close).leading := fun hmore =>
    undirected_close hin hclear (by omega) (hgo _ (by omega) (by omega))
  -- the items in front of the last one that stays are entries with their commas
  rw [kept_of_some hkept, ← flatMap_append_eq_intercalate, ← kept_entries h hcommas,
    ← spans_entries, List.append_assoc]
  rw [← List.append_assoc, ← List.append_assoc] at hinner
  refine saysWithout_behind_opening ht htokens hk hinner fun pos F hchain hF => ?_
  rw [List.append_assoc, List.append_assoc] at hchain hF
  obtain ⟨hfirst, hdivided⟩ := List.isChain_cons.mp hchain
  have hcons := tokensOf_eq_cons h ((ofNode t n).items.getD last 0)
  rw [hcons, List.cons_append] at hF hfirst
  refine hF.saysWithout_entries (fun hcs _ => ?_) ?_ (by rwa [← List.cons_append, ← hcons])
    (fun i e => ?_) (fun p hp => ?_) nofun
  · rw [← List.cons_append, ← hcons] at hcs
    exact saysWithout_tail ht htokens hk hlength hlast hback hrest hcs hdivided.right_of_append
  · intro e he
    obtain ⟨i, hi, rfl⟩ := List.mem_map.mp he
    exact Parser.text_of_isMark (hcommas i hi)
  · exact clear_entries hclear hlast hstays
  · exact .inr ⟨rfl, hfirst p hp⟩

/-- **What the deletions leave**, before the spans that touch are joined. -/
theorem exists_saysWithout :
    ∃ spans, removedSpans t (ofNode t n) remove =
        joinTouching (sortStable (fun a b => compare a.start b.start) spans) ∧
      SaysWithout true 0 source.toList spans
        ((tokens.take ((ofNode t n).opening + 1)).map Token.word ++
          ([(.punctuation, ",")].intercalate (((ofNode t n).kept remove).map fun m =>
            (t.tokensOf m).map Token.word) ++
            (tokens.drop (ofNode t n).close).map Token.word)) := by
  cases hkept : lastKept? remove (ofNode t n).items.length with
  | none =>
    have hlast := mem_of_lastKept?_eq_none hkept ((ofNode t n).items.length - 1) (by omega)
    have hclose := undirected_close hin hclear (by omega) hlast
    refine ⟨_, removedSpans_of_none hkept, ?_⟩
    rw [kept_of_none hkept]
    exact saysWithout_all ht htokens hk hlength hclose
  | some last =>
    refine ⟨_, ?_, saysWithout_some ht htokens hk hlength hin hclear hkept⟩
    unfold removedSpans
    rw [hkept]

end Source

end SeparatedList

/-- **Taking items out of a list leaves the other items**, with commas between them and in their
order, in the same brackets, and all other tokens. -/
theorem removal_keeps_the_other_items (ht : parse source = .ok t)
    (hk : t.kind n = .parameterList ∨ t.kind n = .argumentList) (remove : List Nat) :
    let l := SeparatedList.ofNode t n
    (l.removeItems? t remove = none ↔
      l.items = [] ∨ l.EndsInComma ∨ ∃ i ∈ remove, l.items.length ≤ i) ∧
    ∀ patches, l.removeItems? t remove = some patches → l.NoDirectiveBehind t remove →
      (∀ p ∈ patches, p.text = "") ∧
      (patches.Pairwise fun p q => p.span.stop < q.span.start) ∧
      ∃ text tokens, applyEdits source (patches.map fun p => ⟨p.span, p.text⟩) = .ok text ∧
        tokenize text = .ok tokens ∧
        tokens.map Token.word = (t.tokens.toList.take (l.opening + 1)).map Token.word ++
          ([(.punctuation, ",")].intercalate ((l.kept remove).map fun m =>
            (t.tokensOf m).map Token.word) ++ (t.tokens.toList.drop l.close).map Token.word) := by
  have h := inOrder_of_parse ht
  refine ⟨SeparatedList.removeItems?_eq_none_iff h (gapless_of_parse ht) hk, ?_⟩
  intro patches hpatches hclear
  simp only [SeparatedList.removeItems?, Option.ite_none_left_eq_some, Option.some.injEq,
    Bool.or_eq_true, bne_iff_ne, List.any_eq_true, decide_eq_true_eq, not_or, not_exists, not_and,
    Nat.not_le, Decidable.not_not] at hpatches
  obtain ⟨⟨⟨-, hlength⟩, hin⟩, rfl⟩ := hpatches
  obtain ⟨tokens, s, b, htokens, -, -, htree, -⟩ := Grammar.exists_whole_of_parse ht
  have htokens' : tokenize source = .ok t.tokens.toList := by
    rw [htokens, htree]
  obtain ⟨spans, hspans, hsays⟩ :=
    SeparatedList.exists_saysWithout ht htokens' hk hlength hin hclear
  obtain ⟨hseparated, text, left, happly, hleft, hwords⟩ :=
    SeparatedList.exists_tokens_of_saysWithout hsays
  rw [← hspans] at hseparated happly
  rw [erasing, Separated, List.pairwise_map] at hseparated
  refine ⟨?_, List.pairwise_map.mpr hseparated, text, left, ?_, hleft, hwords⟩
  · intro p hp
    obtain ⟨s, -, rfl⟩ := List.mem_map.mp hp
    rfl
  · rw [List.map_map]
    exact happly

/-- Three parameters with comments behind the commas. -/
def commented : String :=
  "class C \x7b void M(int a, // first\n    int b, /* second */ int c // third\n    ) \x7b \x7d \x7d"

/-- What is left of them without the last two. -/
def cropped : String := "class C \x7b void M(int a // first\n) \x7b \x7d \x7d"

/-- The last two parameters go with the comma in front of them, and the comment behind it stays. -/
theorem removal_keeps_the_other_items_commented : ∃ t patches tokens,
    parse commented = .ok t ∧ t.kind 4 = .parameterList ∧
      (SeparatedList.ofNode t 4).removeItems? t [1, 2] = some patches ∧
      (SeparatedList.ofNode t 4).NoDirectiveBehind t [1, 2] ∧
      applyEdits commented (patches.map fun p => ⟨p.span, p.text⟩) = .ok cropped ∧
      tokenize cropped = .ok tokens ∧
      tokens.map Token.word =
        (t.tokens.toList.take ((SeparatedList.ofNode t 4).opening + 1)).map Token.word ++
          ([(.punctuation, ",")].intercalate (((SeparatedList.ofNode t 4).kept [1, 2]).map fun m =>
            (t.tokensOf m).map Token.word) ++
            (t.tokens.toList.drop (SeparatedList.ofNode t 4).close).map Token.word) := by
  have hrun : ((parse commented).toOption.any fun t =>
      decide (t.kind 4 = .parameterList ∧ (SeparatedList.ofNode t 4).NoDirectiveBehind t [1, 2]) &&
        (((SeparatedList.ofNode t 4).removeItems? t [1, 2]).any fun patches =>
          (applyEdits commented (patches.map fun p => ⟨p.span, p.text⟩)).toOption ==
            some cropped)) = true := by
    decide +kernel
  cases ht : parse commented with
  | error e =>
    rw [ht] at hrun
    cases hrun
  | ok t =>
    rw [ht] at hrun
    obtain ⟨hlist, hdeletions⟩ := (Bool.and_eq_true _ _).mp hrun
    obtain ⟨hk, hclear⟩ := of_decide_eq_true hlist
    cases hpatches : (SeparatedList.ofNode t 4).removeItems? t [1, 2] with
    | none =>
      rw [hpatches] at hdeletions
      cases hdeletions
    | some patches =>
      rw [hpatches] at hdeletions
      obtain ⟨-, -, text, tokens, happly, htokens, hwords⟩ :=
        (removal_keeps_the_other_items ht (.inl hk) [1, 2]).2 patches hpatches hclear
      have htext : (applyEdits commented (patches.map fun p => ⟨p.span, p.text⟩)).toOption =
          some cropped := beq_iff_eq.mp hdeletions
      rw [happly] at htext
      obtain rfl := Option.some.inj htext
      exact ⟨t, patches, tokens, rfl, hk, hpatches, hclear, happly, htokens, hwords⟩

/-- Two arguments, the second of which has a directive in front of it. -/
def directed : String := "class C \x7b void M() \x7b F(1,\n#if A\n 2); \x7d \x7d"

/-- What is left of them without the first one. -/
def broken : String := "class C \x7b void M() \x7b F(#if A\n 2); \x7d \x7d"

/-- **A directive behind an item that goes comes to stand behind a bracket**, where there is no
directive: the source parses, and what the deletion leaves of it has no tokens. -/
theorem directive_comes_behind_bracket : ∃ t patches, parse directed = .ok t ∧
    t.kind 9 = .argumentList ∧
    (SeparatedList.ofNode t 9).removeItems? t [0] = some patches ∧
    patches.map Patch.span = [⟨23, 26⟩] ∧
    applyEdits directed (patches.map fun p => ⟨p.span, p.text⟩) = .ok broken ∧
    tokenize broken = .error ⟨.unexpected '#', 23⟩ := by
  have hrun : ((parse directed).toOption.any fun t =>
      decide (t.kind 9 = .argumentList) &&
        decide ((SeparatedList.ofNode t 9).removeItems? t [0] =
          some [.delete ⟨23, 26⟩])) = true := by
    decide +kernel
  have hedits : (applyEdits directed [⟨⟨23, 26⟩, ""⟩]).toOption = some broken := by
    decide +kernel
  have htokens : tokenize broken = .error ⟨.unexpected '#', 23⟩ := by
    decide +kernel
  cases ht : parse directed with
  | error e =>
    rw [ht] at hrun
    cases hrun
  | ok t =>
    rw [ht] at hrun
    obtain ⟨hk, hpatches⟩ := (Bool.and_eq_true _ _).mp hrun
    cases happly : applyEdits directed [⟨⟨23, 26⟩, ""⟩] with
    | error e =>
      rw [happly] at hedits
      cases hedits
    | ok text =>
      rw [happly] at hedits
      obtain rfl := Option.some.inj hedits
      exact ⟨t, _, rfl, of_decide_eq_true hk, of_decide_eq_true hpatches, rfl, happly, htokens⟩

end CodeMend
