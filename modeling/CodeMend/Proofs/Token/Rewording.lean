import CodeMend.Proofs.Token.Tidying

/-!
# CodeMend — words that go or are replaced

A word that stands behind a mark can be taken out of a source, or give way to another word, and the
source says the same but for that word.  What the word owned comes to stand between the mark and the
next token, where no comment can swallow anything and no two words can run together.

* **`reading_colon`** — a colon starts a mark, so what does not start with one leaves it alone.
* **`Lexed.behind_mark`** — tokens through a mark stay as they are when the text behind changes.
* **`Lexed.reading_without`** — a source without one of its words.
* **`Lexed.reading_reworded`** — a source with `out` in the place of `ref`.
-/

namespace CodeMend

open Lexer Literal

variable {b : Bool} {c : Char} {w x y cs : List Char} {pos : Nat} {kind : TokenKind}
  {behind : List Trivia} {t p r next : Token} {ts front back : List Token} {out : List Lexeme}

/-! ## Marks

Behind an opening mark, a word may be taken away or exchanged without the mark growing. -/

/-- A colon is a part of no mark but itself and the double colon. -/
theorem scanToken_colon (cs : List Char) :
    scanToken ':' cs = .ok (.punctuation, if cs.head? = some ':' then 1 else 0) := by
  have hname : name? ':' cs = none := by
    have hstart : isNameStart ':' = false := by decide
    simp [name?, hstart]
  -- Only one compound mark begins with a colon.
  have hmarks : ∀ m ∈ compoundMarks, m.head? = some ':' → m = [':', ':'] := by decide
  have hmark : mark? ':' cs = some (if cs.head? = some ':' then 1 else 0) := by
    rw [mark?_eq, if_neg (by simp)]
    cases hfind : compoundMarks.find? fun m => m.isPrefixOf (':' :: cs) with
    | none =>
      have hdouble := List.find?_eq_none.mp hfind [':', ':'] (by decide)
      have hhead : cs.head? ≠ some ':' := by
        intro hhead
        obtain ⟨rest, rfl⟩ := List.head?_eq_some_iff.mp hhead
        simp [List.isPrefixOf] at hdouble
      simp [hhead, singleMarks]
    | some m =>
      have hfound : m.isPrefixOf (':' :: cs) = true := by simpa using List.find?_some hfind
      have hprefix : m <+: ':' :: cs := List.isPrefixOf_iff_prefix.mp hfound
      have hm := List.mem_of_find?_eq_some hfind
      have hne : m ≠ [] := by
        rintro rfl
        exact absurd hm (by decide)
      obtain ⟨d, m, rfl⟩ := List.exists_cons_of_ne_nil hne
      obtain ⟨rest, hrest⟩ := hprefix
      obtain ⟨rfl, rfl⟩ := List.cons.inj hrest
      obtain ⟨-, rfl⟩ := List.cons.inj (hmarks _ hm rfl)
      rfl
  have hdigit : Char.isDigit ':' = false := by decide
  simp [scanToken, hname, hmark, hdigit]

theorem scanLeading_colon (b : Bool) (cs : List Char) : scanLeading b ':' cs = none := by
  unfold scanLeading scanTrivia
  simp [isSpace]

/-- What starts with a colon says a mark first. -/
theorem reading_colon (h : reading b (':' :: cs) = some out) :
    ∃ text, out.head? = some (.word .punctuation text) := by
  rw [reading, scanLeading_colon, if_neg (by simp), scanToken_colon] at h
  obtain ⟨rest, -, rfl⟩ := Option.map_eq_some_iff.mp h
  exact ⟨_, rfl⟩

/-- A colon that no other one follows is a word of its own. -/
theorem Word.of_colon (b : Bool) (h : cs.head? ≠ some ':') : Word b ':' [] .punctuation cs := by
  refine ⟨rfl, rfl, by simp, by simp, ?_⟩
  rw [List.nil_append, scanToken_colon, if_neg h]
  rfl

/-- The texts of the marks behind which a word may go. -/
def openMarks : List String := ["(", ",", "]", ":"]

/-- **Tokens through a mark stay as they are when the text behind changes**, if no other mark comes
to stand behind a colon. -/
theorem Lexed.behind_mark (h : Lexed pos b behind cs (front ++ p :: back)) (hback : back ≠ [])
    (hp : p.text ∈ openMarks) :
    ∃ A F, cs = A ++ F ∧ Lexed (pos + byteLength A) false p.trailing F back ∧
      ∀ F' out, reading false F' = some out →
        (p.text = ":" → ∀ text, out.head? ≠ some (.word .punctuation text)) →
        reading b (A ++ F') = some (lexemes behind (front ++ [p]) ++ out) := by
  obtain ⟨A, F, rfl, hF, hread⟩ := h.split (by simp)
  generalize hbehind : front.getLast?.elim behind Token.trailing = behind' at hF
  generalize (front.isEmpty && b) = b' at hF hread
  generalize hts : p :: back = ts at hF
  cases hF with
  | last => exact absurd (List.cons.inj hts).2 hback
  | more _ _ _ before after c w kind rest tokens hgap hword htail =>
    obtain ⟨rfl, rfl⟩ := List.cons.inj hts
    -- All of these marks are of one character, and only the colon may be the first of two.
    have hmarks : ∀ text ∈ openMarks,
        text.toList ∈ ['(', ')', ',', ']', ':'].map fun d => [d] := by decide
    obtain ⟨d, hd, htext⟩ := List.mem_map.mp (hmarks _ hp)
    rw [String.toList_ofList, eq_comm] at htext
    obtain ⟨rfl, rfl⟩ := List.cons.inj htext
    have hkind : kind = .punctuation := by
      have hscan := hword.scan
      by_cases hcolon : c = ':'
      · rw [hcolon, scanToken_colon] at hscan
        exact (Prod.mk.inj (Except.ok.inj hscan)).1.symm
      · rw [scanToken_loneMark (by simpa [hcolon] using hd)] at hscan
        exact (Prod.mk.inj (Except.ok.inj hscan)).1.symm
    subst hkind
    refine ⟨A ++ (Trivia.chars (behind' ++ before) ++ [c]), rest, by simp, ?_, ?_⟩
    · have hpos : pos + byteLength (A ++ (Trivia.chars (behind' ++ before) ++ [c])) =
          pos + byteLength A + Trivia.width (behind' ++ before) + byteLength [c] := by
        rw [byteLength_append, byteLength_append, Trivia.byteLength_chars]
        omega
      rw [hpos]
      exact htail
    · intro F' out hF' hcolon
      have hword' : Word (lineStart b' (behind' ++ before)) c [] .punctuation F' := by
        by_cases hc : c = ':'
        · subst hc
          refine .of_colon _ fun hhead => ?_
          obtain ⟨rest', rfl⟩ := List.head?_eq_some_iff.mp hhead
          obtain ⟨text, htext⟩ := reading_colon hF'
          exact hcolon rfl text htext
        · exact .of_loneMark (by simpa [hc] using hd) _ _
      -- In front of the mark the text changes behind a seam, which is the mark itself.
      have hseam : ∀ z, Seam (c :: z) := by
        intro z e he
        obtain rfl : c = e := Option.some.inj he
        have hall : ∀ d ∈ ['(', ')', ',', ']', ':'], d ∈ seamChars := forall_mem_of_all (by decide)
        exact hall c hd
      have hcut : Cut (c :: rest) (c :: F') := ⟨hseam rest, hseam F', Iff.rfl⟩
      have hagree : Agree (Trivia.chars (behind' ++ before) ++ (c :: ([] ++ rest)))
          (Trivia.chars (behind' ++ before) ++ (c :: ([] ++ F'))) :=
        (Agree.of_cut hcut Iff.rfl).append _
      have hlexemes : lexemes behind (front ++ [⟨.punctuation, String.ofList [c],
          pos + byteLength A + Trivia.width (behind' ++ before), before, after⟩]) =
          lexemes behind front ++ (remarks (behind' ++ before) ++
            [.word .punctuation (String.ofList [c])]) := by
        rw [lexemes_append, hbehind]
        rfl
      have htext : A ++ (Trivia.chars (behind' ++ before) ++ [c]) ++ F' =
          A ++ (Trivia.chars (behind' ++ before) ++ (c :: ([] ++ F'))) := by simp
      have hhalts : Halts (c :: ([] ++ rest)) → Halts (c :: ([] ++ F')) := id
      rw [htext, hread _ hagree, reading_gap hgap hhalts, reading_word hword', hF', hlexemes]
      simp

/-! ## A word less

The word goes with one blank behind it. -/

/-- The text of some tokens starts with the gap in front of the first one. -/
theorem Lexed.exists_gap (h : Lexed pos b behind cs (t :: ts)) :
    ∃ G, cs = Trivia.chars (behind ++ t.leading) ++ G ∧
      t.offset = pos + Trivia.width (behind ++ t.leading) := by
  generalize hts : t :: ts = all at h
  cases h with
  | last =>
    obtain ⟨rfl, rfl⟩ := List.cons.inj hts
    exact ⟨[], by simp, rfl⟩
  | more _ _ _ before after c w kind rest tokens hgap hword htail =>
    obtain ⟨rfl, rfl⟩ := List.cons.inj hts
    exact ⟨c :: (w ++ rest), rfl, rfl⟩

/-- When some remarks and a word start with a word, it is that word. -/
theorem kind_eq_of_head?_remarks {us : List Trivia} {kind' : TokenKind} {text text' : String}
    (h : (remarks us ++ .word kind text :: out).head? = some (.word kind' text')) :
    kind' = kind := by
  cases hus : remarks us with
  | nil =>
    rw [hus] at h
    cases h
    rfl
  | cons first rest =>
    have hfirst : first ∈ remarks us := hus ▸ List.mem_cons_self
    obtain ⟨piece, -, rfl⟩ := List.mem_map.mp hfirst
    rw [hus] at h
    cases h

/-- The single blank that goes with a word said nothing, and no directive comes to the start of a
line. -/
theorem reading_without_blank {after before : List Trivia} (b' : Bool)
    (h : reading false (Trivia.chars (after ++ before) ++ x) = some out) :
    reading b' (Trivia.chars (Trivia.afterRemoval [] after before) ++ x) = some out := by
  have hdropped : reading false (Trivia.chars (Trivia.afterRemoval [] after before) ++ x) =
      some out := by
    unfold Trivia.afterRemoval
    split
    next hblank =>
      have hafter : after = [⟨.whitespace, " "⟩] := beq_iff_eq.mp hblank
      rw [hafter, Trivia.chars_append, List.append_assoc] at h
      rwa [List.nil_append, List.nil_append, ← reading_blank (c := ' ') rfl]
    next => exact h
  cases b' with
  | false => exact hdropped
  | true => exact reading_true_of_false hdropped

/-- **A source without one of its words says the same but for that word.**  The word stands behind a
mark, and behind a colon a name follows it. -/
theorem Lexed.reading_without (h : Lexed pos b behind cs (front ++ p :: r :: next :: back))
    (hp : p.text ∈ openMarks) (hnext : p.text = ":" → next.isIdentifier = true) :
    ∃ A B G, cs = A ++ (B ++ G) ∧ pos + byteLength A = r.fullStart ∧
      r.fullStart + byteLength B = next.offset ∧
      reading b (A ++ (Trivia.chars (Trivia.afterRemoval r.leading r.trailing next.leading) ++ G)) =
        some (lexemes behind (front ++ [p]) ++ (remarks (p.trailing ++ r.leading) ++
          lexemes r.trailing (next :: back))) := by
  obtain ⟨A, F, rfl, hF, hread⟩ := h.behind_mark (by simp) hp
  generalize hts : r :: next :: back = ts at hF
  cases hF with
  | last => cases hts
  | more _ _ _ before after c w kind rest tokens hgap hword htail =>
    obtain ⟨rfl, rfl⟩ := List.cons.inj hts
    obtain ⟨G, rfl, hoffset⟩ := htail.exists_gap
    refine ⟨A ++ Trivia.chars p.trailing,
      Trivia.chars before ++ (c :: w) ++ Trivia.chars (after ++ next.leading), G, ?_, ?_, ?_, ?_⟩
    · simp [Trivia.chars_append]
    · show _ = pos + byteLength A + Trivia.width (p.trailing ++ before) - Trivia.width before
      rw [byteLength_append, Trivia.byteLength_chars, Trivia.width_append]
      omega
    · rw [hoffset, byteLength_append, byteLength_append, Trivia.byteLength_chars,
        Trivia.byteLength_chars]
      show pos + byteLength A + Trivia.width (p.trailing ++ before) - Trivia.width before + _ = _
      rw [Trivia.width_append p.trailing]
      omega
    · have hline : ∀ {z}, ¬ Halts (c :: z) := by
        intro z hline
        have hc := hline c rfl
        rw [hword.lineBreak] at hc
        cases hc
      have hrest := reading_without_blank (lineStart false (p.trailing ++ before)) htail.reading_eq
      have hread' := reading_gap hgap
        (y := Trivia.chars (Trivia.afterRemoval [] after next.leading) ++ G) fun h => absurd h hline
      rw [hrest] at hread'
      have htext : A ++ Trivia.chars p.trailing ++
          (Trivia.chars (Trivia.afterRemoval before after next.leading) ++ G) =
          A ++ (Trivia.chars (p.trailing ++ before) ++
            (Trivia.chars (Trivia.afterRemoval [] after next.leading) ++ G)) := by
        simp [Trivia.afterRemoval, Trivia.chars_append]
      show reading b (A ++ Trivia.chars p.trailing ++
        (Trivia.chars (Trivia.afterRemoval before after next.leading) ++ G)) = _
      rw [htext]
      refine hread _ _ hread' fun hcolon text hhead => ?_
      -- what stands behind a colon is a remark or a name
      have hidentifier : next.kind = .identifier := beq_iff_eq.mp (hnext hcolon)
      rw [lexemes, ← List.append_assoc, ← remarks_append] at hhead
      have hkind := kind_eq_of_head?_remarks hhead
      rw [hidentifier] at hkind
      cases hkind

/-! ## Another word

Both words are of three letters and no name goes on behind them, so the text around them is cut as
before. -/

/-- A name that starts with a letter is scanned to its end. -/
theorem scanToken_of_isNameStart (hstart : isNameStart c = true)
    (hc : c ∉ ['"', '$', '@', '\'', '.'] ∧ c.isDigit = false) (cs : List Char) :
    scanToken c cs = .ok (if reservedWords.contains (textOf c cs (countWhile isNamePart cs))
      then .keyword else .identifier, countWhile isNamePart cs) := by
  obtain ⟨hmarks, hdigit⟩ := hc
  simp only [List.mem_cons, List.not_mem_nil, or_false, not_or] at hmarks
  have hname : name? c cs = some (countWhile isNamePart cs) := by simp [name?, hmarks, hstart]
  simp [scanToken, hmarks, hdigit, hname]

/-- Where `ref` is read as a word, `out` is. -/
theorem Word.out_of_ref (h : Word b 'r' ['e', 'f'] kind x) :
    kind = .keyword ∧ Word b 'o' ['u', 't'] .keyword x := by
  have hparts : isNameStart 'r' = true ∧ isNameStart 'o' = true ∧ isNamePart 'e' = true ∧
      isNamePart 'f' = true ∧ isNamePart 'u' = true ∧ isNamePart 't' = true := by decide
  obtain ⟨hr, ho, he, hf, hu, ht⟩ := hparts
  have href : countWhile isNamePart ('e' :: 'f' :: x) = countWhile isNamePart x + 2 := by
    simp [countWhile, he, hf]
  have hscan := h.scan
  rw [List.cons_append, List.cons_append, List.nil_append,
    scanToken_of_isNameStart hr (by decide), href] at hscan
  obtain ⟨hkind, hlength⟩ := Prod.mk.inj (Except.ok.inj hscan)
  -- the word ends where its letters end
  have hend : countWhile isNamePart x = 0 := by simpa using hlength
  have hout : countWhile isNamePart ('u' :: 't' :: x) = 2 := by
    simp [countWhile, hu, ht, hend]
  have htext : ∀ c d e, textOf c (d :: e :: x) 2 = String.ofList [c, d, e] := fun _ _ _ => rfl
  have hreserved : reservedWords.contains (String.ofList ['r', 'e', 'f']) = true ∧
      reservedWords.contains (String.ofList ['o', 'u', 't']) = true := by decide
  refine ⟨?_, rfl, rfl, by simp, by simp, ?_⟩
  · rw [← hkind, hend, Nat.zero_add, htext, hreserved.1]
    rfl
  · rw [List.cons_append, List.cons_append, List.nil_append,
      scanToken_of_isNameStart ho (by decide), hout, htext, hreserved.2]
    rfl

/-- The word `ref` is a keyword. -/
theorem Lexed.kind_of_ref (h : Lexed pos b behind cs ts) (ht : t ∈ ts) (htext : t.text = "ref") :
    t.kind = .keyword := by
  induction h with
  | last =>
    obtain rfl := List.mem_singleton.mp ht
    exact absurd htext (by simp)
  | more _ _ _ before after c w kind rest tokens hgap hword htail ih =>
    rcases List.mem_cons.mp ht with rfl | ht
    · have hletters : c :: w = ['r', 'e', 'f'] := by
        rw [← String.toList_ofList (l := c :: w)]
        exact congrArg String.toList htext
      obtain ⟨rfl, rfl⟩ := List.cons.inj hletters
      exact hword.out_of_ref.1
    · exact ih ht

/-- **A source with `out` in the place of a `ref` says the same but for that word.**  The word
stands behind a mark. -/
theorem Lexed.reading_reworded (h : Lexed pos b behind cs (front ++ p :: r :: back))
    (hp : p.text ∈ openMarks) (hr : r.text = "ref") :
    ∃ A G, cs = A ++ (['r', 'e', 'f'] ++ G) ∧ pos + byteLength A = r.offset ∧
      reading b (A ++ (['o', 'u', 't'] ++ G)) =
        some (lexemes behind (front ++ [p]) ++ (remarks (p.trailing ++ r.leading) ++
          .word .keyword "out" :: lexemes r.trailing back)) := by
  obtain ⟨A, F, rfl, hF, hread⟩ := h.behind_mark (by simp) hp
  generalize hts : r :: back = ts at hF
  cases hF with
  | last =>
    obtain ⟨rfl, -⟩ := List.cons.inj hts
    exact absurd hr (by simp)
  | more _ _ _ before after c w kind rest tokens hgap hword htail =>
    obtain ⟨rfl, rfl⟩ := List.cons.inj hts
    have hletters : c :: w = ['r', 'e', 'f'] := by
      rw [← String.toList_ofList (l := c :: w)]
      exact congrArg String.toList hr
    obtain ⟨rfl, rfl⟩ := List.cons.inj hletters
    refine ⟨A ++ Trivia.chars (p.trailing ++ before), rest, by simp, ?_, ?_⟩
    · show _ = pos + byteLength A + Trivia.width (p.trailing ++ before)
      rw [byteLength_append, Trivia.byteLength_chars]
      omega
    · have hline : ∀ {z}, ¬ Halts ('r' :: z) := fun hline => nomatch hline 'r' rfl
      have hread' := reading_gap (y := 'o' :: (['u', 't'] ++ rest)) hgap fun h => absurd h hline
      rw [reading_word hword.out_of_ref.2, htail.reading_eq] at hread'
      have htext : A ++ Trivia.chars (p.trailing ++ before) ++ (['o', 'u', 't'] ++ rest) =
          A ++ (Trivia.chars (p.trailing ++ before) ++ 'o' :: (['u', 't'] ++ rest)) := by simp
      rw [htext]
      refine hread _ _ hread' fun _ text hhead => ?_
      have hkind := kind_eq_of_head?_remarks hhead
      cases hkind

end CodeMend
