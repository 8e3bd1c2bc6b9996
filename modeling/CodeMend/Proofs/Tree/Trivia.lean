import Mathlib.Data.List.Flatten
import CodeMend.Proofs.Token.Remarks
import CodeMend.Proofs.Token.Removal
import CodeMend.Proofs.Tree.Modifiers
import CodeMend.Proofs.Tree.Places

/-!
# CodeMend — the tokens and the trivia of a parsed tree

The tokens under a node follow one another in the source, and they are those of its children, from
left to right.  So the tokens of a list are its brackets, and between them the tokens of its items
with the commas.

A text that is taken from a parsed tree, that of a node or the trivia on one side of a token, is a
part of the source, and it carries the trivia that stands there.

* **`tokensOf`** — the tokens of a node; `tokens_eq_append` finds them among those of the source,
  as `map_token_range'` does for any stretch of tokens.
* **`tokensOf_eq_flatMap`** — the tokens of a node are those of its children.
* **`SeparatedList.exists_tokensOf`** — the tokens of a list.
* **`SeparatedList.endsInComma_iff`** — a list that ends in a comma has as many commas as items.
* **`Tree.extract?_span`**, **`extract?_leading`**, **`extract?_trailing`** — parts of the source.
* **`Tree.interiorTrivia`** — the trivia between the first and the last token of a node.
* **`carries_upTo`**, **`carries_through`** — what a part of the source carries that ends with a
  token or in front of one; **`carries_leading`**, **`carries_trailing`** for the trivia of a token.
* **`apart_of_mem_placedTrivia`** — no trivia lies across the text of a token.
-/

namespace CodeMend

open Tree

section Tokens

variable {t : Tree} {n : NodeId} {tokens : List Token}

namespace Tree

/-- The numbers of the tokens of a child. -/
def idsOf (t : Tree) : Child → List TokenId
  | .token i => [i]
  | .node n => t.tokenIds n

/-- All tokens of a node. -/
def tokensOf (t : Tree) (n : NodeId) : List Token := (t.tokenIds n).map t.token

/-- The tokens under a child. -/
def tokensUnder (t : Tree) : Child → List Token
  | .token i => [t.token i]
  | .node n => t.tokensOf n

/-! ## Among the tokens of the source

The tokens of a node have numbers that follow one another, and so have their texts in the source. -/

theorem tokensOf_eq_cons (h : InOrder t) (n : NodeId) :
    t.tokensOf n = t.token (t.firstToken n) :: (t.tokensOf n).tail := by
  have hle := (h.firstToken_le_lastToken n).1
  rw [tokensOf, tokenIds, Parser.range'_eq_cons_of_lt (Nat.lt_succ_of_le hle)]
  rfl

theorem tokensOf_eq_concat (h : InOrder t) (n : NodeId) :
    ∃ front, t.tokensOf n = front ++ [t.token (t.lastToken n)] := by
  have hle := (h.firstToken_le_lastToken n).1
  have hlength : t.lastToken n + 1 - t.firstToken n = (t.lastToken n - t.firstToken n) + 1 :=
    Nat.succ_sub hle
  rw [tokensOf, tokenIds, hlength, List.range'_1_concat, Nat.add_sub_cancel' hle, List.map_append]
  exact ⟨_, rfl⟩

/-- The tokens with numbers that follow one another follow one another in the source. -/
theorem map_token_range' (htree : t.tokens = tokens.toArray) {i k : Nat}
    (hle : i + k ≤ tokens.length) :
    (List.range' i k).map t.token = (tokens.drop i).take k := by
  refine List.ext_getElem ?_ fun j hj hj' => ?_
  · rw [List.length_map, List.length_range', List.length_take, List.length_drop]
    exact (Nat.min_eq_left (Nat.le_sub_of_add_le' hle)).symm
  · rw [List.length_take, List.length_drop] at hj'
    rw [List.getElem_map, List.getElem_range', List.getElem_take, List.getElem_drop, Nat.one_mul,
      token_eq_getElem htree (by omega)]

/-- The tokens of a node follow one another among those of the source. -/
theorem tokens_eq_append (htree : t.tokens = tokens.toArray) (h : InOrder t) (n : NodeId) :
    tokens = tokens.take (t.firstToken n) ++
      (t.tokensOf n ++ tokens.drop (t.lastToken n + 1)) := by
  obtain ⟨hle, hlt⟩ := h.firstToken_le_lastToken n
  have hsize : t.lastToken n < tokens.length := by simpa [htree] using hlt
  generalize hfirst : t.firstToken n = first at hle ⊢
  generalize hlast : t.lastToken n = last at hle hsize ⊢
  have hmid : t.tokensOf n = (tokens.drop first).take (last + 1 - first) := by
    rw [tokensOf, tokenIds, hfirst, hlast, map_token_range' htree]
    rwa [Nat.add_sub_cancel' (Nat.le_succ_of_le hle)]
  have hrest : tokens.drop (last + 1) = (tokens.drop first).drop (last + 1 - first) := by
    rw [List.drop_drop, Nat.add_sub_cancel' (Nat.le_succ_of_le hle)]
  rw [hmid, hrest, List.take_append_drop, List.take_append_drop]

/-! ## The tokens of the children

The stretch of a node is made up of those of its children. -/

/-- Numbers that follow one another are a stretch. -/
theorem eq_range'_of_isChain {a z : Nat} {l : List Nat} (hchain : l.IsChain fun i j => j = i + 1)
    (hfirst : l.head? = some a) (hlast : l.getLast? = some z) :
    a ≤ z ∧ l = List.range' a (z + 1 - a) := by
  induction l generalizing a with
  | nil => cases hfirst
  | cons b l ih =>
    obtain rfl := Option.some.inj hfirst
    cases l with
    | nil =>
      obtain rfl := Option.some.inj hlast
      simp
    | cons c l =>
      obtain ⟨rfl, hrest⟩ := List.isChain_cons_cons.mp hchain
      obtain ⟨hle, hrange⟩ := ih hrest rfl (by simpa using hlast)
      refine ⟨Nat.le_of_succ_le hle, ?_⟩
      rw [hrange, Parser.range'_eq_cons_of_lt (Nat.lt_succ_of_le (Nat.le_of_succ_le hle))]

theorem HasLeaves.eq_idsOf {c : Child} {l : List TokenId} (hl : t.HasLeaves c l) (h : InOrder t)
    (hg : Gapless t) (hc : ∀ n, c = .node n → n < t.nodeCount) : l = t.idsOf c := by
  have hends := hl.ends h.parsed.wellFormed hc
  cases c with
  | token i =>
    cases hl
    rfl
  | node n => exact (eq_range'_of_isChain (hg n (hc n rfl) l hl) hends.1 hends.2).2

theorem HaveLeaves.eq_flatMap {cs : List Child} {l : List TokenId} (hl : t.HaveLeaves cs l)
    (h : InOrder t) (hg : Gapless t) (hcs : ∀ n, .node n ∈ cs → n < t.nodeCount) :
    l = cs.flatMap t.idsOf := by
  induction cs generalizing l with
  | nil =>
    cases hl
    rfl
  | cons c cs ih =>
    cases hl with
    | cons _ _ lc m hc hrest =>
      rw [List.flatMap_cons, ← ih hrest fun n hn => hcs n (List.mem_cons_of_mem _ hn),
        hc.eq_idsOf h hg fun n hn => hcs n (hn ▸ List.mem_cons_self)]

/-- The numbers of the tokens of a node are those of the tokens of its children. -/
theorem tokenIds_eq_flatMap (h : InOrder t) (hg : Gapless t) (hn : n < t.nodeCount) :
    t.tokenIds n = (t.children n).flatMap t.idsOf := by
  obtain ⟨l, hl, hfirst, hlast, -⟩ := h.exists_leaves hn
  rw [← hl.eq_flatMap h hg (h.parsed.wellFormed.node_lt n hn)]
  exact (eq_range'_of_isChain (hg n hn l (.node n l hl)) hfirst hlast).2.symm

/-- **The tokens of a node are those of its children.** -/
theorem tokensOf_eq_flatMap (h : InOrder t) (hg : Gapless t) (hn : n < t.nodeCount) :
    t.tokensOf n = (t.children n).flatMap t.tokensUnder := by
  have hunder : ∀ c, (t.idsOf c).map t.token = t.tokensUnder c := by
    intro c
    cases c <;> rfl
  rw [tokensOf, tokenIds_eq_flatMap h hg hn, List.map_flatMap]
  simp only [hunder]

end Tree

/-! ## The tokens of a list

In a list, brackets, items and commas are told apart in its stretch. -/

namespace SeparatedList

/-- The list ends in a comma. -/
def EndsInComma (l : SeparatedList) : Prop := ∃ i ∈ l.separators, i + 1 = l.close

variable (h : InOrder t) (hg : Gapless t)
  (hk : t.kind n = .parameterList ∨ t.kind n = .argumentList)

include h hg hk

/-- What stands in a list: the brackets, and the items and commas between them. -/
theorem exists_tokensOf : ∃ mid, Alternates (ofNode t n).items (ofNode t n).separators mid ∧
    t.tokensOf n = t.token (ofNode t n).opening ::
      (mid.flatMap t.tokensUnder ++ [t.token (ofNode t n).close]) := by
  obtain ⟨mid, halternates, hchildren⟩ := h.exists_alternates hk
  have hn : n < t.nodeCount := by
    refine lt_nodeCount_of_mem_children (c := .token (ofNode t n).opening) ?_
    rw [hchildren]
    exact List.mem_cons_self
  refine ⟨mid, halternates, ?_⟩
  rw [tokensOf_eq_flatMap h hg hn, hchildren]
  simp [tokensUnder]

/-- A list with an item ends in a comma if it has as many commas as items. -/
theorem endsInComma_iff (hne : (ofNode t n).items ≠ []) : (ofNode t n).EndsInComma ↔
    (ofNode t n).separators.length = (ofNode t n).items.length := by
  obtain ⟨mid, halternates, hchildren⟩ := h.exists_alternates hk
  constructor
  · rintro ⟨i, hi, hclose⟩
    refine halternates.length_eq.resolve_right fun hlength => ?_
    -- otherwise an item stands between the last comma and the closing bracket
    obtain ⟨front, m, rfl, hall⟩ := halternates.exists_item_last hlength
    have hpairs := h.children_pairwise n
    rw [hchildren, List.append_assoc] at hpairs
    obtain ⟨-, hlast, hbetween⟩ := List.pairwise_append.mp (List.pairwise_cons.mp hpairs).2
    have hbefore : i < t.firstToken m := hbetween _ (hall i hi) _ List.mem_cons_self
    have hbehind : t.lastToken m < (ofNode t n).close :=
      (List.pairwise_cons.mp hlast).1 _ List.mem_cons_self
    have hle := (h.firstToken_le_lastToken m).1
    rw [← hclose] at hbehind
    exact absurd (Nat.lt_of_lt_of_le hbefore hle) (Nat.not_lt.mpr (Nat.le_of_lt_succ hbehind))
  · intro hlength
    obtain ⟨front, i, rfl, hi⟩ := halternates.exists_comma_last hlength hne
    have hsplit : t.children n = (.token (ofNode t n).opening :: front) ++
        .token i :: .token (ofNode t n).close :: [] := by
      rw [hchildren]
      simp
    exact ⟨i, hi, hg.lastOf_add_one h hsplit⟩

end SeparatedList

end Tokens

variable {source : String} {t : Tree} {n : NodeId} {i j : Nat} {rest : List Char}
  {p : Span × Trivia}

namespace Tree

/-! ## Parts of the source

Whatever an edit copies is the text between two tokens with or without the trivia around it, and is
found in the source. -/

/-- A stretch of numbers between two ends. -/
theorem range'_ends (h : i < j) :
    List.range' i (j + 1 - i) = i :: (List.range' (i + 1) (j - i - 1) ++ [j]) := by
  obtain ⟨k, rfl⟩ := Nat.exists_eq_add_of_lt h
  have hlength : i + k + 1 + 1 - i = k + 1 + 1 := by omega
  have hmid : i + k + 1 - i - 1 = k := by omega
  rw [hlength, hmid, List.range'_succ, List.range'_1_concat, Nat.add_right_comm]

/-- The source between two tokens is the text between them with the trivia around it. -/
theorem renderRange_eq (hij : i ≤ j) : t.renderRange i j =
    Trivia.render (t.token i).leading ++ t.textRange i j ++
      Trivia.render (t.token j).trailing := by
  rcases Nat.lt_or_eq_of_le hij with hlt | rfl
  · rw [renderRange, textRange, if_neg (Nat.not_le.mpr hlt), range'_ends hlt]
    simp [Token.renderAll, Token.render, String.join_cons, String.join_append, String.append_assoc]
  · rw [renderRange, textRange, if_pos (Nat.le_refl _), Nat.add_sub_cancel_left]
    simp [Token.renderAll, Token.render, String.join_cons, String.append_assoc]

/-- A stretch of tokens is a part of the source. -/
theorem exists_split_of_range (ht : parse source = .ok t) (hij : i ≤ j)
    (hj : j < t.tokens.size) :
    ∃ A B, source.toList = A ++ ((t.renderRange i j).toList ++ B) ∧
      byteLength A + Trivia.width (t.token i).leading = (t.token i).offset ∧
      byteLength A + byteLength (t.renderRange i j).toList = (t.token j).fullStop := by
  obtain ⟨tokens, htokens, htree⟩ := exists_tokens_of_parse ht
  have hsize : j < tokens.length := by simpa [htree] using hj
  have hspells := spells_of_tokenize htokens
  have hrange : (List.range' i (j + 1 - i)).map t.token = (tokens.drop i).take (j + 1 - i) := by
    refine map_token_range' htree ?_
    rwa [Nat.add_sub_cancel' (Nat.le_succ_of_le hij)]
  have hstretch : tokens.take i ++ (tokens.drop i).take (j + 1 - i) = tokens.take (j + 1) := by
    rw [← List.take_add, Nat.add_sub_cancel' (Nat.le_succ_of_le hij)]
  -- The tokens before, the stretch and the tokens behind make up the source.
  have hsplit : ∀ {k : Nat} (hk : k < tokens.length),
      tokens = tokens.take k ++ t.token k :: tokens.drop (k + 1) := by
    intro k hk
    rw [token_eq_getElem htree hk, ← List.drop_eq_getElem_cons, List.take_append_drop]
  have hrender : ∀ front back : List Token,
      Token.renderAll (front ++ back) = Token.renderAll front ++ Token.renderAll back := by
    intro front back
    simp [Token.renderAll, String.join_append]
  have hstart := hspells
  have hstop := hspells
  rw [hsplit (Nat.lt_of_le_of_lt hij hsize)] at hstart
  rw [hsplit hsize] at hstop
  refine ⟨(Token.renderAll (tokens.take i)).toList,
    (Token.renderAll (tokens.drop (j + 1))).toList, ?_, ?_, ?_⟩
  · rw [← String.toList_append, ← String.toList_append, renderRange, hrange, ← hrender, ← hrender,
      ← List.append_assoc, hstretch, List.take_append_drop, (lossless_of_tokenize htokens).render]
  · rw [hstart.offset_eq, byteLength_toList, Nat.zero_add]
  · rw [hstop.fullStop_eq, byteLength_toList, byteLength_toList, ← String.utf8ByteSize_append,
      renderRange, hrange, ← hrender, hstretch, Nat.zero_add, List.take_add_one,
      List.getElem?_eq_getElem hsize, token_eq_getElem htree hsize]
    rfl

/-- The trivia in front of a stretch of tokens, the text of the stretch and the trivia behind it. -/
theorem exists_parts_of_range (ht : parse source = .ok t) (hij : i ≤ j)
    (hj : j < t.tokens.size) :
    ∃ A B, source.toList = A ++ (Trivia.chars (t.token i).leading ++
        ((t.textRange i j).toList ++ (Trivia.chars (t.token j).trailing ++ B))) ∧
      byteLength A = (t.token i).fullStart ∧
      (t.token i).fullStart + Trivia.width (t.token i).leading = (t.token i).offset ∧
      (t.token i).offset + byteLength (t.textRange i j).toList = (t.token j).stop := by
  obtain ⟨A, B, hsource, hstart, hstop⟩ := exists_split_of_range ht hij hj
  rw [renderRange_eq hij] at hsource hstop
  simp only [String.toList_append, List.append_assoc, byteLength_append] at hsource hstop
  have hchars : ∀ ts, (Trivia.render ts).toList = Trivia.chars ts := fun _ => rfl
  simp only [hchars, Trivia.byteLength_chars] at hsource hstop
  have hfull : (t.token i).fullStart + Trivia.width (t.token i).leading = (t.token i).offset :=
    Nat.sub_add_cancel (by omega)
  refine ⟨A, B, hsource, by omega, hfull, ?_⟩
  rw [Token.fullStop] at hstop
  omega

/-- The trivia in front of a token is a part of the source. -/
theorem extract?_leading (ht : parse source = .ok t) (hi : i < t.tokens.size) :
    extract? source (t.token i).fullStart (t.token i).offset =
      some (Trivia.render (t.token i).leading) := by
  obtain ⟨A, B, hsource, hstart, hfull, -⟩ := exists_parts_of_range ht (Nat.le_refl i) hi
  refine extract?_eq_some_iff.mpr ⟨A, _, hsource, hstart, ?_⟩
  rw [hstart, byteLength_toList, Trivia.utf8ByteSize_render, hfull]

/-- The text between two tokens is a part of the source. -/
theorem extract?_textRange (ht : parse source = .ok t) (hij : i ≤ j) (hj : j < t.tokens.size) :
    extract? source (t.token i).offset (t.token j).stop = some (t.textRange i j) := by
  obtain ⟨A, B, hsource, hstart, hfull, htext⟩ := exists_parts_of_range ht hij hj
  rw [← List.append_assoc] at hsource
  have hoffset : byteLength (A ++ Trivia.chars (t.token i).leading) = (t.token i).offset := by
    rw [byteLength_append, Trivia.byteLength_chars, hstart, hfull]
  exact extract?_eq_some_iff.mpr ⟨_, _, hsource, hoffset, by rw [hoffset, htext]⟩

/-- **The text of a node is what the source holds at its span.** -/
theorem extract?_span (ht : parse source = .ok t) (n : NodeId) :
    extract? source (t.span n).start (t.span n).stop = some (t.text n) := by
  obtain ⟨hle, hlt⟩ := (inOrder_of_parse ht).firstToken_le_lastToken n
  exact extract?_textRange ht hle hlt

/-- The trivia behind a token is a part of the source. -/
theorem extract?_trailing (ht : parse source = .ok t) (hi : i < t.tokens.size) :
    extract? source (t.token i).stop (t.token i).fullStop =
      some (Trivia.render (t.token i).trailing) := by
  obtain ⟨A, B, hsource, hstart, hfull, htext⟩ := exists_parts_of_range ht (Nat.le_refl i) hi
  rw [← List.append_assoc, ← List.append_assoc] at hsource
  refine extract?_eq_some_iff.mpr ⟨_, _, hsource, ?_, ?_⟩ <;>
    simp only [byteLength_append, Trivia.byteLength_chars, hstart, hfull, htext]
  rw [byteLength_toList, Trivia.utf8ByteSize_render]
  rfl

/-! ## All trivia

Trivia comes with offsets, so that it can be said which piece lies in a span. -/

/-- The trivia of all tokens, with its spans. -/
def placedTrivia (t : Tree) : List (Span × Trivia) := t.tokens.toList.flatMap Token.placedTrivia

/-- The trivia between the first and the last token of a node, with its spans. -/
def interiorTrivia (t : Tree) (n : NodeId) : List (Span × Trivia) :=
  (t.tokenIds n).flatMap fun i =>
    (if i == t.firstToken n then []
      else Trivia.placed (t.token i).fullStart (t.token i).leading) ++
    (if i == t.lastToken n then []
      else Trivia.placed (t.token i).stop (t.token i).trailing)

theorem eq_toArray (t : Tree) : t.tokens = t.tokens.toList.toArray := Array.toArray_toList.symm

theorem mem_placedTrivia_iff : p ∈ t.placedTrivia ↔
    ∃ i < t.tokens.size, p ∈ (t.token i).placedTrivia := by
  rw [placedTrivia, List.mem_flatMap]
  constructor
  · rintro ⟨token, htoken, hp⟩
    obtain ⟨i, hi, rfl⟩ := List.getElem_of_mem htoken
    have hsize : i < t.tokens.size := by simpa using hi
    refine ⟨i, hsize, ?_⟩
    rw [token_eq_getElem (eq_toArray t) hi]
    exact hp
  · rintro ⟨i, hi, hp⟩
    have hlength : i < t.tokens.toList.length := by simpa using hi
    rw [token_eq_getElem (eq_toArray t) hlength] at hp
    exact ⟨_, List.getElem_mem hlength, hp⟩

/-- The trivia of a node is trivia of the source. -/
theorem flatMap_placedTrivia_sublist (h : InOrder t) (n : NodeId) :
    ((t.tokensOf n).flatMap Token.placedTrivia).Sublist t.placedTrivia := by
  have hsplit := tokens_eq_append (eq_toArray t) h n
  refine List.Sublist.flatMap ?_ _
  rw [hsplit]
  exact (List.sublist_append_left _ _).trans (List.sublist_append_right _ _)

/-- **The trivia of a node**: what stands in front of it, between its tokens and behind it. -/
theorem flatMap_placedTrivia_tokensOf (h : InOrder t) (n : NodeId) :
    (t.tokensOf n).flatMap Token.placedTrivia =
      Trivia.placed (t.token (t.firstToken n)).fullStart (t.token (t.firstToken n)).leading ++
        (t.interiorTrivia n ++
          Trivia.placed (t.token (t.lastToken n)).stop (t.token (t.lastToken n)).trailing) := by
  have hle := (h.firstToken_le_lastToken n).1
  rw [tokensOf, interiorTrivia, tokenIds, List.flatMap_map]
  generalize t.firstToken n = first at hle ⊢
  generalize t.lastToken n = last at hle ⊢
  rcases Nat.lt_or_eq_of_le hle with hlt | rfl
  · have hmid : ∀ i ∈ List.range' (first + 1) (last - first - 1),
        (t.token i).placedTrivia =
          (if i == first then []
            else Trivia.placed (t.token i).fullStart (t.token i).leading) ++
          (if i == last then []
            else Trivia.placed (t.token i).stop (t.token i).trailing) := by
      intro i hi
      obtain ⟨hlo, hhi⟩ := List.mem_range'_1.mp hi
      have hfirst : i ≠ first := by omega
      have hlast : i ≠ last := by omega
      simp [hfirst, hlast, Token.placedTrivia]
    rw [range'_ends hlt, List.flatMap_cons, List.flatMap_cons, List.flatMap_append,
      List.flatMap_append, List.flatMap_congr hmid]
    have hne : first ≠ last := Nat.ne_of_lt hlt
    simp [hne, hne.symm, Token.placedTrivia]
  · rw [Nat.add_sub_cancel_left]
    simp [Token.placedTrivia]

theorem interiorTrivia_sublist (h : InOrder t) (n : NodeId) :
    (t.interiorTrivia n).Sublist t.placedTrivia := by
  refine List.Sublist.trans ?_ (flatMap_placedTrivia_sublist h n)
  rw [flatMap_placedTrivia_tokensOf h]
  exact (List.sublist_append_left _ _).trans (List.sublist_append_right _ _)

/-- Where a piece of trivia of a token lies: in front of its text or behind it. -/
theorem bounds_of_mem_token (ht : parse source = .ok t) (hi : i < t.tokens.size)
    (hp : p ∈ (t.token i).placedTrivia) :
    (t.token i).fullStart ≤ p.1.start ∧ p.1.start ≤ p.1.stop ∧ p.1.stop ≤ (t.token i).fullStop ∧
      (p.1.stop ≤ (t.token i).offset ∨ (t.token i).stop ≤ p.1.start) := by
  obtain ⟨A, B, -, -, hfull, -⟩ := exists_parts_of_range ht (Nat.le_refl i) hi
  have hoffset := Token.offset_le_stop (t.token i)
  have hstop := Token.stop_le_fullStop (t.token i)
  have hfullStop : (t.token i).fullStop = (t.token i).stop + Trivia.width (t.token i).trailing :=
    rfl
  rcases List.mem_append.mp hp with hp | hp
  · have hbounds := Trivia.bounds_of_mem_placed hp
    omega
  · have hbounds := Trivia.bounds_of_mem_placed hp
    omega

/-- **No trivia lies across the text of a token.** -/
theorem apart_of_mem_placedTrivia (ht : parse source = .ok t) (hp : p ∈ t.placedTrivia)
    (hi : i < t.tokens.size) :
    p.1.stop ≤ (t.token i).offset ∨ (t.token i).stop ≤ p.1.start := by
  obtain ⟨j, hj, hp⟩ := mem_placedTrivia_iff.mp hp
  obtain ⟨hstart, hle, hstop, hapart⟩ := bounds_of_mem_token ht hj hp
  have h := inOrder_of_parse ht
  rcases Nat.lt_trichotomy i j with hij | rfl | hij
  · right
    calc (t.token i).stop
      _ ≤ (t.token i).fullStop := Token.stop_le_fullStop _
      _ ≤ (t.token j).fullStart := h.fullStop_le_fullStart hij hj
      _ ≤ p.1.start := hstart
  · exact hapart
  · left
    calc p.1.stop
      _ ≤ (t.token j).fullStop := hstop
      _ ≤ (t.token i).fullStart := h.fullStop_le_fullStart hij hi
      _ ≤ (t.token i).offset := Token.fullStart_le_offset _

/-- The pieces of trivia stand in the source one behind the other. -/
theorem pairwise_placedTrivia (ht : parse source = .ok t) : t.placedTrivia.Pairwise Before := by
  have h := inOrder_of_parse ht
  have htoken : ∀ {i : Nat}, i < t.tokens.toList.length →
      t.tokens.toList[i]? = some (t.token i) := by
    intro i hi
    rw [token_eq_getElem (eq_toArray t) hi, List.getElem?_eq_getElem hi]
  rw [placedTrivia, List.pairwise_flatMap]
  constructor
  · intro token hmem
    obtain ⟨i, hi, rfl⟩ := List.getElem_of_mem hmem
    have hsize : i < t.tokens.size := by simpa using hi
    obtain ⟨A, B, -, -, hfull, -⟩ := exists_parts_of_range ht (Nat.le_refl i) hsize
    rw [← token_eq_getElem (eq_toArray t) hi]
    refine List.pairwise_append.mpr
      ⟨Trivia.pairwise_placed _ _, Trivia.pairwise_placed _ _, fun p hp q hq => ?_⟩
    calc p.1.stop
      _ ≤ (t.token i).offset := hfull ▸ (Trivia.bounds_of_mem_placed hp).2.2
      _ ≤ (t.token i).stop := Token.offset_le_stop _
      _ ≤ q.1.start := (Trivia.bounds_of_mem_placed hq).1
  · rw [List.pairwise_iff_getElem]
    intro i j hi hj hij p hp q hq
    have hsize : j < t.tokens.size := by simpa using hj
    rw [← token_eq_getElem (eq_toArray t) hi] at hp
    rw [← token_eq_getElem (eq_toArray t) hj] at hq
    calc p.1.stop
      _ ≤ (t.token i).fullStop := (bounds_of_mem_token ht (Nat.lt_trans hij hsize) hp).2.2.1
      _ ≤ (t.token j).fullStart := h.fullStop_le_fullStart hij hsize
      _ ≤ q.1.start := (bounds_of_mem_token ht hsize hq).1

/-- All trivia is in place. -/
theorem inPlace_of_mem_placedTrivia (ht : parse source = .ok t) (hp : p ∈ t.placedTrivia) :
    InPlace source p := by
  obtain ⟨tokens, htokens, htree⟩ := exists_tokens_of_parse ht
  have hplace := inPlace_of_lexed (lexed_of_tokenize htokens) (List.nil_append _).symm rfl
  refine hplace p ?_
  rw [placedTrivia, htree] at hp
  simpa [Trivia.placed] using hp

/-! ## What parts of the source carry

What a copied part carries is told for each of these parts. -/

/-- **The source at a token**: the text of the token, as the lexer found it. -/
theorem exists_word_of_parse (ht : parse source = .ok t) (hi : i + 1 < t.tokens.size) :
    ∃ A b c w back, source.toList = A ++ (c :: (w ++ back)) ∧
      byteLength A = (t.token i).offset ∧ (t.token i).text.toList = c :: w ∧
      Word b c w (t.token i).kind back := by
  obtain ⟨tokens, htokens, htree⟩ := exists_tokens_of_parse ht
  have hsize : i + 1 < tokens.length := by simpa [htree] using hi
  have hlexed := lexed_of_tokenize htokens
  have hsplit : tokens = tokens.take i ++ t.token i :: tokens.drop (i + 1) := by
    rw [token_eq_getElem htree (Nat.lt_of_succ_lt hsize), ← List.drop_eq_getElem_cons,
      List.take_append_drop]
  rw [hsplit] at hlexed
  obtain ⟨A, F, hsource, hF, -⟩ := hlexed.split (List.cons_ne_nil _ _)
  have hne : tokens.drop (i + 1) ≠ [] := by simpa using hsize
  obtain ⟨c, w, back, rfl, htext, hoffset, -, hword, -⟩ := hF.uncons hne
  rw [← List.append_assoc] at hsource
  refine ⟨_, _, c, w, back, hsource, ?_, htext, hword⟩
  rw [byteLength_append, Trivia.byteLength_chars, hoffset, Nat.zero_add]

/-- No line ends where the text of a token starts. -/
theorem not_haltsAt_offset (ht : parse source = .ok t) (hi : i + 1 < t.tokens.size) :
    ¬ HaltsAt source (t.token i).offset := by
  obtain ⟨A, b, c, w, back, hsource, hoffset, -, hword⟩ := exists_word_of_parse ht hi
  intro hhalts
  have hline := hhalts.halts hsource hoffset c rfl
  rw [hword.lineBreak] at hline
  cases hline

section Carried

variable {ps : List (Span × Trivia)} {text : String} {start : Nat} (ht : parse source = .ok t)
  (hps : ps.Sublist t.placedTrivia) (hi : i + 1 < t.tokens.size)

include ht hps hi

/-- **A part of the source that ends where a token starts carries the trivia in it**, whatever comes
behind it. -/
theorem carries_upTo (htext : extract? source start (t.token i).offset = some text)
    (hstart : ∀ p ∈ ps, start ≤ p.1.start) (hstop : ∀ p ∈ ps, p.1.stop ≤ (t.token i).offset) :
    Carries rest (ps.map Prod.snd) text.toList :=
  carries_of_extract? htext ((pairwise_placedTrivia ht).sublist hps)
    (fun _ hp => inPlace_of_mem_placedTrivia ht (hps.subset hp)) hstart hstop
    fun _ hhalts => absurd hhalts (not_haltsAt_offset ht hi)

/-- **A part of the source that ends with a token carries the trivia in it**, whatever comes behind
it. -/
theorem carries_through (htext : extract? source start (t.token i).stop = some text)
    (hstart : ∀ p ∈ ps, start ≤ p.1.start) (hstop : ∀ p ∈ ps, p.1.stop ≤ (t.token i).stop) :
    Carries rest (ps.map Prod.snd) text.toList := by
  have hlt : ∀ p ∈ ps, p.1.stop < (t.token i).stop := by
    intro p hp
    have hpos := (inPlace_of_mem_placedTrivia ht (hps.subset hp)).nonempty
    have hle := hstop p hp
    have htoken : (t.token i).offset < (t.token i).stop :=
      offset_lt_stop (text_ne_empty_of_parse ht hi)
    have hapart := apart_of_mem_placedTrivia ht (hps.subset hp) (Nat.lt_of_succ_lt hi)
    omega
  exact carries_of_extract? htext ((pairwise_placedTrivia ht).sublist hps)
    (fun _ hp => inPlace_of_mem_placedTrivia ht (hps.subset hp)) hstart hstop
    fun ⟨p, hp, _, heq⟩ => absurd heq (Nat.ne_of_lt (hlt p hp))

end Carried

/-- The trivia of a token is trivia of the source. -/
theorem token_placedTrivia_sublist (hi : i < t.tokens.size) :
    (t.token i).placedTrivia.Sublist t.placedTrivia := by
  have hmem : [t.token i].Sublist t.tokens.toList := by
    have hlength : i < t.tokens.toList.length := by simpa using hi
    rw [List.singleton_sublist, token_eq_getElem (eq_toArray t) hlength]
    exact List.getElem_mem hlength
  simpa [placedTrivia] using hmem.flatMap Token.placedTrivia

/-- A token with its trivia ends where the next one with its trivia starts. -/
theorem fullStop_eq_fullStart (ht : parse source = .ok t) (hi : i + 1 < t.tokens.size) :
    (t.token i).fullStop = (t.token (i + 1)).fullStart := by
  obtain ⟨tokens, htokens, htree⟩ := exists_tokens_of_parse ht
  have hsize : i + 1 < tokens.length := by simpa [htree] using hi
  have hlexed := lexed_of_tokenize htokens
  have hsplit : tokens =
      tokens.take i ++ t.token i :: t.token (i + 1) :: tokens.drop (i + 1 + 1) := by
    rw [token_eq_getElem htree (Nat.lt_of_succ_lt hsize), token_eq_getElem htree hsize,
      ← List.drop_eq_getElem_cons, ← List.drop_eq_getElem_cons, List.take_append_drop]
  rw [hsplit] at hlexed
  exact hlexed.fullStop_eq

/-- **The trivia in front of a token** is carried in front of any text. -/
theorem carries_leading (ht : parse source = .ok t) (hi : i + 1 < t.tokens.size)
    (rest : List Char) :
    Carries rest (t.token i).leading (Trivia.chars (t.token i).leading) := by
  have hsize := Nat.lt_of_succ_lt hi
  obtain ⟨A, B, -, -, hfull, -⟩ := exists_parts_of_range ht (Nat.le_refl i) hsize
  have hcarries : Carries rest _ _ := carries_upTo ht
    ((List.sublist_append_left _ _).trans (token_placedTrivia_sublist hsize)) hi
    (extract?_leading ht hsize) (fun p hp => (Trivia.bounds_of_mem_placed hp).1)
    fun p hp => hfull ▸ (Trivia.bounds_of_mem_placed hp).2.2
  rwa [Trivia.map_snd_placed] at hcarries

/-- The trivia behind a token is carried in front of a text in which a line ends where one does in
the source. -/
theorem carries_trailing_of_halts (ht : parse source = .ok t) (hi : i < t.tokens.size)
    (hrest : (∃ p ∈ Trivia.placed (t.token i).stop (t.token i).trailing,
      p.2.fillsLine = true ∧ p.1.stop = (t.token i).fullStop) →
        HaltsAt source (t.token i).fullStop → Halts rest) :
    Carries rest (t.token i).trailing (Trivia.chars (t.token i).trailing) := by
  have hsub : (Trivia.placed (t.token i).stop (t.token i).trailing).Sublist t.placedTrivia :=
    (List.sublist_append_right _ _).trans (token_placedTrivia_sublist hi)
  have hcarries := carries_of_extract? (extract?_trailing ht hi)
    ((pairwise_placedTrivia ht).sublist hsub)
    (fun p hp => inPlace_of_mem_placedTrivia ht (hsub.subset hp))
    (fun p hp => (Trivia.bounds_of_mem_placed hp).1)
    (fun p hp => (Trivia.bounds_of_mem_placed hp).2.2) hrest
  rwa [Trivia.map_snd_placed] at hcarries

/-- **The trivia behind a token** that is not the last of the source is carried in front of any
text: a comment up to the end of its line has that end with it. -/
theorem carries_trailing (ht : parse source = .ok t) (hi : i + 2 < t.tokens.size)
    (rest : List Char) :
    Carries rest (t.token i).trailing (Trivia.chars (t.token i).trailing) := by
  have hsize : i < t.tokens.size := Nat.lt_trans (Nat.lt_add_of_pos_right (by decide)) hi
  refine carries_trailing_of_halts ht hsize fun ⟨p, hp, hline, heq⟩ hhalts => ?_
  exfalso
  obtain ⟨tokens, htokens, htree⟩ := exists_tokens_of_parse ht
  have hlength : i + 1 < tokens.length := by simpa [htree] using Nat.lt_of_succ_lt hi
  have hdivided : Divided (t.token i) (t.token (i + 1)) := by
    rw [token_eq_getElem htree (Nat.lt_of_succ_lt hlength), token_eq_getElem htree hlength]
    exact List.isChain_iff_getElem.mp (isChain_divided_of_tokenize htokens) i hlength
  rcases hdivided with hnone | ⟨front, e, hends, he⟩
  · -- the next token starts here, and it does not start with a line break
    have hnext : (t.token i).fullStop = (t.token (i + 1)).offset := by
      rw [fullStop_eq_fullStart ht (Nat.lt_of_succ_lt hi), Token.fullStart, hnone]
      rfl
    rw [hnext] at hhalts
    exact not_haltsAt_offset ht hi hhalts
  · -- the line break at the end stands behind the piece
    have hsub : (Trivia.placed (t.token i).stop (t.token i).trailing).Sublist t.placedTrivia :=
      (List.sublist_append_right _ _).trans (token_placedTrivia_sublist hsize)
    have hfullStop : (t.token i).fullStop =
        (t.token i).stop + Trivia.width front + e.text.utf8ByteSize := by
      rw [Token.fullStop, hends, Trivia.width_append, Nat.add_assoc]
      rfl
    rw [hends, Trivia.placed_append] at hp hsub
    have hbreak := inPlace_of_mem_placedTrivia ht (hsub.subset (List.mem_append_right _
      (List.mem_singleton.mpr rfl)))
    rcases List.mem_append.mp hp with hp | hp
    · have hbounds := (Trivia.bounds_of_mem_placed hp).2.2
      have hpos := hbreak.nonempty
      dsimp only at hpos
      omega
    · obtain rfl := List.mem_singleton.mp hp
      rw [Trivia.fillsLine, he] at hline
      cases hline

/-- What stands between the tokens of a node stands behind the first one and in front of the last
one. -/
theorem bounds_of_mem_interiorTrivia (ht : parse source = .ok t)
    (hp : p ∈ t.interiorTrivia n) :
    (t.token (t.firstToken n)).stop ≤ p.1.start ∧
      p.1.stop ≤ (t.token (t.lastToken n)).offset := by
  have h := inOrder_of_parse ht
  obtain ⟨hle, hlt⟩ := h.firstToken_le_lastToken n
  obtain ⟨i, hi, hp⟩ := List.mem_flatMap.mp hp
  obtain ⟨hfirst, hlast⟩ := List.mem_range'_1.mp hi
  rw [Nat.add_sub_cancel' (Nat.le_succ_of_le hle)] at hlast
  have hlast : i ≤ t.lastToken n := Nat.le_of_lt_succ hlast
  have hsize : i < t.tokens.size := Nat.lt_of_le_of_lt hlast hlt
  obtain ⟨A, B, -, -, hfull, -⟩ := exists_parts_of_range ht (Nat.le_refl i) hsize
  rcases List.mem_append.mp hp with hp | hp
  · split at hp
    · cases hp
    next hne =>
    have hbounds := Trivia.bounds_of_mem_placed hp
    have hne : i ≠ t.firstToken n := by simpa using hne
    constructor
    · calc (t.token (t.firstToken n)).stop
        _ ≤ (t.token (t.firstToken n)).fullStop := Token.stop_le_fullStop _
        _ ≤ (t.token i).fullStart :=
          h.fullStop_le_fullStart (Nat.lt_of_le_of_ne hfirst hne.symm) hsize
        _ ≤ p.1.start := hbounds.1
    · calc p.1.stop
        _ ≤ (t.token i).offset := hfull ▸ hbounds.2.2
        _ ≤ (t.token (t.lastToken n)).offset := h.offset_le_offset hlast hlt
  · split at hp
    · cases hp
    next hne =>
    have hbounds := Trivia.bounds_of_mem_placed hp
    have hne : i ≠ t.lastToken n := by simpa using hne
    constructor
    · exact Nat.le_trans (h.stop_le_stop hfirst hsize) hbounds.1
    · calc p.1.stop
        _ ≤ (t.token i).fullStop := hbounds.2.2
        _ ≤ (t.token (t.lastToken n)).fullStart :=
          h.fullStop_le_fullStart (Nat.lt_of_le_of_ne hlast hne) hlt
        _ ≤ (t.token (t.lastToken n)).offset := Token.fullStart_le_offset _

theorem contains_of_mem_interiorTrivia (ht : parse source = .ok t)
    (hp : p ∈ t.interiorTrivia n) : (t.span n).contains p.1 = true := by
  obtain ⟨hstart, hstop⟩ := bounds_of_mem_interiorTrivia ht hp
  rw [Span.contains, Bool.and_eq_true, decide_eq_true_eq, decide_eq_true_eq]
  exact ⟨Nat.le_trans (Token.offset_le_stop _) hstart,
    Nat.le_trans hstop (Token.offset_le_stop _)⟩

end Tree

end CodeMend
