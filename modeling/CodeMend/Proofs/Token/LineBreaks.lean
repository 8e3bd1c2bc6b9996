import CodeMend.Proofs.Token.Reading

/-!
# CodeMend — the line breaks of a source

Besides what it says, a source has line breaks.  They are read off it in the same way, character by
character along its words and trivia.  Whatever is read off a text in that way comes out the same
when the text behind a piece or a word gives way to one of which the same is read off.

* **`lineBreaks`** — the characters of the line breaks of a text.
* **`Account`** — what is read off a text along its words and trivia; **`account_reading`** and
  **`account_lineBreaks`** are two of them.
* **`lineBreaks_of_tokenize`** — the tokens of a source have its line breaks.
-/

namespace CodeMend

open Lexer Literal

/-- The characters of the line breaks of a text that starts at the start of a line or not, up to a
lexical fault. -/
def lineBreaks (atLineStart : Bool) : List Char → List Char
  | [] => []
  | c :: cs =>
    match scanLeading atLineStart c cs with
    | some (kind, n) =>
      (if kind = .endOfLine then c :: cs.take n else []) ++
        lineBreaks (startsLine atLineStart kind) (cs.drop n)
    | none =>
      match scanToken c cs with
      | .ok (_, n) => lineBreaks false (cs.drop n)
      | .error _ => []
termination_by cs => cs.length
decreasing_by all_goals (simp only [List.length_drop, List.length_cons]; omega)

/-- What is read off a text along its words and trivia, from a place at the start of a line or not:
blanks add nothing, and in front of two texts off which the same is read, the same is read off a
piece or a word. -/
structure Account {α : Type} (f : Bool → List Char → α) : Prop where
  blank : ∀ {b c cs}, isSpace c = true → f b (c :: cs) = f b cs
  piece : ∀ {b c w k x y}, scanLeading b c (w ++ x) = some (k, w.length) → (Halts x → Halts y) →
    f (startsLine b k) y = f (startsLine b k) x → f b (c :: (w ++ y)) = f b (c :: (w ++ x))
  word : ∀ {b c w kind x y}, Word b c w kind x → Word b c w kind y → f false y = f false x →
    f b (c :: (w ++ y)) = f b (c :: (w ++ x))

variable {b : Bool} {c : Char} {w x y cs : List Char} {n : Nat} {kind : TokenKind}

/-- Where a blank adds nothing, a run of blanks adds nothing. -/
theorem blanks_of_blank {α : Type} {f : List Char → α}
    (hf : ∀ {c cs}, isSpace c = true → f (c :: cs) = f cs) (hw : ∀ d ∈ w, isSpace d = true) :
    f (w ++ cs) = f cs := by
  induction w with
  | nil => rfl
  | cons d w ih =>
    rw [List.cons_append, hf (hw d List.mem_cons_self)]
    exact ih fun e he => hw e (List.mem_cons_of_mem _ he)

theorem Account.blanks {α : Type} {f : Bool → List Char → α} (hf : Account f)
    (hw : ∀ d ∈ w, isSpace d = true) : f b (w ++ cs) = f b cs :=
  blanks_of_blank hf.blank hw

/-- Two accounts may be kept at once. -/
theorem Account.prod {α β : Type} {f : Bool → List Char → α} {g : Bool → List Char → β}
    (hf : Account f) (hg : Account g) : Account fun b cs => (f b cs, g b cs) where
  blank hc := Prod.ext (hf.blank hc) (hg.blank hc)
  piece hscan hxy hrest :=
    Prod.ext (hf.piece hscan hxy (congrArg Prod.fst hrest))
      (hg.piece hscan hxy (congrArg Prod.snd hrest))
  word hx hy hrest :=
    Prod.ext (hf.word hx hy (congrArg Prod.fst hrest)) (hg.word hx hy (congrArg Prod.snd hrest))

/-- **What a text says is an account of it.** -/
theorem account_reading : Account reading where
  blank := reading_blank
  piece := by
    intro b c w k x y hscan hxy hrest
    have htext : (⟨k, String.ofList (c :: w)⟩ : Trivia).text.toList = c :: w := by simp
    rw [reading_piece htext hscan hxy, reading_piece htext hscan id, hrest]
  word := by
    intro b c w kind x y hx hy hrest
    rw [reading_word hx, reading_word hy, hrest]

/-! ## Line breaks along a text

Line breaks are an account of a text: a list that is read off it piece by piece, as words are. -/

@[simp] theorem lineBreaks_nil : lineBreaks b [] = [] := by
  unfold lineBreaks
  rfl

theorem lineBreaks_of_scanLeading {k : TriviaKind} (h : scanLeading b c cs = some (k, n)) :
    lineBreaks b (c :: cs) =
      (if k = .endOfLine then c :: cs.take n else []) ++
        lineBreaks (startsLine b k) (cs.drop n) := by
  rw [lineBreaks, h]

theorem lineBreaks_blank (hc : isSpace c = true) : lineBreaks b (c :: cs) = lineBreaks b cs := by
  have hdrop : lineBreaks b (cs.drop (countWhile isSpace cs)) = lineBreaks b cs := by
    cases cs with
    | nil => rfl
    | cons d cs =>
      cases hd : isSpace d with
      | false => simp [countWhile, hd]
      | true =>
        simp only [countWhile, hd, if_true, List.drop_succ_cons]
        rw [lineBreaks_of_scanLeading (scanLeading_of_isSpace b hd cs)]
        simp [startsLine]
  rw [lineBreaks_of_scanLeading (scanLeading_of_isSpace b hc cs)]
  simpa [startsLine] using hdrop

/-- **A line break is read off character by character**: it does not matter whether a line feed is
taken along with the carriage return in front of it. -/
theorem lineBreaks_lineBreak (hc : isLineBreak c = true) :
    lineBreaks b (c :: cs) = c :: lineBreaks true cs := by
  have hdrop : ∀ {n}, n = (if c = '\r' ∧ cs.head? = some '\n' then 1 else 0) →
      cs.take n ++ lineBreaks true (cs.drop n) = lineBreaks true cs := by
    rintro n rfl
    split
    next h =>
      obtain ⟨rest, rfl⟩ := List.head?_eq_some_iff.mp h.2
      rw [lineBreaks_of_scanLeading (scanLeading_of_isLineBreak true (c := '\n') rfl rest)]
      simp [startsLine]
    next => rfl
  rw [lineBreaks_of_scanLeading (scanLeading_of_isLineBreak b hc cs), if_pos rfl,
    List.cons_append]
  exact congrArg (c :: ·) (hdrop rfl)

theorem lineBreaks_lineBreaks (hw : ∀ d ∈ c :: w, isLineBreak d = true) :
    lineBreaks b (c :: (w ++ cs)) = c :: (w ++ lineBreaks true cs) := by
  induction w generalizing b c with
  | nil => exact lineBreaks_lineBreak (hw c List.mem_cons_self)
  | cons d w ih =>
    rw [List.cons_append, lineBreaks_lineBreak (hw c List.mem_cons_self),
      ih fun e he => hw e (List.mem_cons_of_mem _ he), List.cons_append]

/-- The line breaks of a piece in front of another text. -/
theorem lineBreaks_piece {k : TriviaKind} (h : scanLeading b c (w ++ x) = some (k, w.length))
    (hxy : Halts x → Halts y) :
    lineBreaks b (c :: (w ++ y)) =
      (if k = .endOfLine then c :: w else []) ++ lineBreaks (startsLine b k) y := by
  obtain ⟨hblanks, hlines⟩ := forall_of_scanLeading h
  by_cases hblank : k = .whitespace
  · subst hblank
    have hrun : lineBreaks b (c :: w ++ y) = lineBreaks b y :=
      blanks_of_blank lineBreaks_blank (hblanks rfl)
    simpa [startsLine] using hrun
  by_cases hline : k = .endOfLine
  · subst hline
    rw [lineBreaks_lineBreaks (hlines rfl)]
    simp [startsLine]
  · rw [lineBreaks_of_scanLeading (scanLeading_append h hblank hline hxy), if_neg hline,
      if_neg hline, List.drop_left]

theorem lineBreaks_word (h : Word b c w kind x) :
    lineBreaks b (c :: (w ++ x)) = lineBreaks false x := by
  rw [lineBreaks, h.scanLeading_eq]
  dsimp only
  rw [h.scan]
  dsimp only
  rw [List.drop_left]

/-- **The line breaks of a text are an account of it.** -/
theorem account_lineBreaks : Account lineBreaks where
  blank := lineBreaks_blank
  piece := by
    intro b c w k x y hscan hxy hrest
    rw [lineBreaks_piece hscan hxy, lineBreaks_piece hscan id, hrest]
  word := by
    intro b c w kind x y hx hy hrest
    rw [lineBreaks_word hx, lineBreaks_word hy, hrest]

/-! ## Line breaks of tokens

The same account is taken of tokens with their trivia. -/

theorem lineBreaks_gap {pieces : List Trivia} (h : Gap b pieces x) :
    lineBreaks b (Trivia.chars pieces ++ x) =
      Trivia.chars (pieces.filter Trivia.isEndOfLine) ++ lineBreaks (lineStart b pieces) x := by
  induction pieces generalizing b with
  | nil => rfl
  | cons t ts ih =>
    obtain ⟨⟨c, w, htext, hscan⟩, hts⟩ := h
    rw [Trivia.chars_cons, htext, List.append_assoc, List.cons_append, lineBreaks_piece hscan id,
      ih hts, List.filter_cons]
    show _ = _ ++ lineBreaks (lineStart (startsLine b t.kind) ts) x
    by_cases hline : t.kind = .endOfLine
    · simp [Trivia.isEndOfLine, hline, htext]
    · simp [Trivia.isEndOfLine, hline]

/-- The trivia of some tokens, in the order of the text. -/
def triviaOf (ts : List Token) : List Trivia := ts.flatMap fun t => t.leading ++ t.trailing

/-- The line breaks of a text are those in the trivia of its tokens. -/
theorem Lexed.lineBreaks_eq {pos : Nat} {behind : List Trivia} {ts : List Token}
    (h : Lexed pos b behind cs ts) :
    lineBreaks b cs = Trivia.chars ((behind ++ triviaOf ts).filter Trivia.isEndOfLine) := by
  induction h with
  | last pos b behind before hgap =>
    have hbreaks := lineBreaks_gap hgap
    rw [List.append_nil, lineBreaks_nil, List.append_nil] at hbreaks
    simpa [triviaOf] using hbreaks
  | more pos b behind before after c w kind rest tokens hgap hword htail ih =>
    rw [lineBreaks_gap hgap, lineBreaks_word hword, ih, ← Trivia.chars_append]
    simp [triviaOf]

/-- **The tokens of a source have its line breaks.** -/
theorem lineBreaks_of_tokenize {source : String} {tokens : List Token}
    (h : tokenize source = .ok tokens) :
    lineBreaks true source.toList =
      Trivia.chars ((triviaOf tokens).filter Trivia.isEndOfLine) :=
  (lexed_of_tokenize h).lineBreaks_eq

end CodeMend
