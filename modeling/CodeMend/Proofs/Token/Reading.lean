import CodeMend.Proofs.Lists
import CodeMend.Proofs.Token.Lossless
import CodeMend.Proofs.Token.Seams

/-!
# CodeMend — what a source says

Two sources say the same when they hold the same words, comments and directives in the same order,
however they are laid out.  What a text says is read here character by character, with blanks and
line breaks passed over, and the tokens of a source are shown to say the same.  To compare two
sources it is then enough to read one along the other.

* **`Lexeme`**, **`reading`** — what a text says, from a place at the start of a line or not.
* **`Gap`**, **`Word`** — trivia and a token in front of a text, each with the scan that found it.
* **`reading_gap`**, **`reading_word`** — they say the same in front of other texts.
* **`Lexed`** — tokens as the lexer finds them; **`reading_of_lexed`** is what they say.
-/

namespace CodeMend

open Lexer Literal

/-- A comment or a directive. -/
def Trivia.isRemark (t : Trivia) : Bool := t.isComment || t.kind == .directive

/-- What is left of a source without its layout. -/
inductive Lexeme where
  | word (kind : TokenKind) (text : String)
  | remark (piece : Trivia)
deriving DecidableEq, Repr

namespace Lexeme

def word? : Lexeme → Option (TokenKind × String)
  | word kind text => some (kind, text)
  | remark _ => none

def remark? : Lexeme → Option Trivia
  | word _ _ => none
  | remark piece => some piece

end Lexeme

/-- The remarks among some pieces of trivia. -/
def remarks (pieces : List Trivia) : List Lexeme := (pieces.filter Trivia.isRemark).map .remark

/-- What a text says that starts at the start of a line or not; none when it has a lexical fault.
The end of the text counts as a word. -/
def reading (atLineStart : Bool) : List Char → Option (List Lexeme)
  | [] => some [.word .endOfFile ""]
  | c :: cs =>
    match scanLeading atLineStart c cs with
    | some (kind, n) =>
      (reading (startsLine atLineStart kind) (cs.drop n)).map (remarks [⟨kind, textOf c cs n⟩] ++ ·)
    | none =>
      if c = '/' && cs.head? = some '*' then none
      else
        match scanToken c cs with
        | .ok (kind, n) => (reading false (cs.drop n)).map (.word kind (textOf c cs n) :: ·)
        | .error _ => none
termination_by cs => cs.length
decreasing_by all_goals (simp only [List.length_drop, List.length_cons]; omega)

variable {b : Bool} {c d : Char} {w x y cs : List Char} {n : Nat} {kind : TokenKind}
  {out : List Lexeme}

@[simp] theorem remarks_nil : remarks [] = [] := rfl

theorem remarks_append (ts us : List Trivia) : remarks (ts ++ us) = remarks ts ++ remarks us := by
  simp [remarks]

theorem remarks_cons (t : Trivia) (ts : List Trivia) :
    remarks (t :: ts) = remarks [t] ++ remarks ts :=
  remarks_append [t] ts

@[simp] theorem reading_nil : reading b [] = some [.word .endOfFile ""] := by
  unfold reading
  rfl

theorem reading_of_scanLeading {k : TriviaKind} (h : scanLeading b c cs = some (k, n)) :
    reading b (c :: cs) =
      (reading (startsLine b k) (cs.drop n)).map (remarks [⟨k, textOf c cs n⟩] ++ ·) := by
  rw [reading, h]

/-! ## Layout

What a text says is the list of its tokens without offsets and trivia.  Blanks and line breaks say
nothing, though a line break makes room for a directive. -/

/-- What a scan of trivia tells about the characters it went through. -/
theorem cases_of_scanLeading {k : TriviaKind} (h : scanLeading b c cs = some (k, n)) :
    (k = .directive ∧ (b && c = '#') = true ∧ n = countWhile (fun d => !isLineBreak d) cs) ∨
    (k = .whitespace ∧ isSpace c = true ∧ n = countWhile isSpace cs) ∨
    (k = .endOfLine ∧ isLineBreak c = true ∧
      n = if c = '\r' ∧ cs.head? = some '\n' then 1 else 0) ∨
    (k = .singleLineComment ∧ c = '/' ∧
      ∃ rest, cs = '/' :: rest ∧ n = 1 + countWhile (fun d => !isLineBreak d) rest) ∨
    (k = .multiLineComment ∧ c = '/' ∧
      ∃ rest m, cs = '*' :: rest ∧ commentBody rest = some m ∧ n = 1 + m) := by
  unfold scanLeading at h
  split at h
  next hdirective =>
    cases h
    exact .inl ⟨rfl, hdirective, rfl⟩
  unfold scanTrivia at h
  split at h
  next hspace =>
    cases h
    exact .inr (.inl ⟨rfl, hspace, rfl⟩)
  split at h
  next hc =>
    cases h
    exact .inr (.inr (.inl ⟨rfl, by rw [hc]; rfl, by simp [hc]⟩))
  split at h
  next hc =>
    cases h
    exact .inr (.inr (.inl ⟨rfl, by rw [hc]; rfl, by simp [hc]⟩))
  split at h
  next hc =>
    split at h
    next rest =>
      cases h
      exact .inr (.inr (.inr (.inl ⟨rfl, hc, rest, rfl, rfl⟩)))
    next rest =>
      obtain ⟨m, hm, heq⟩ := Option.map_eq_some_iff.mp h
      cases heq
      exact .inr (.inr (.inr (.inr ⟨rfl, hc, rest, m, rfl, hm, rfl⟩)))
    next => cases h
  · cases h

theorem length_le_of_scanLeading {k : TriviaKind} (h : scanLeading b c cs = some (k, n)) :
    n ≤ cs.length := by
  rcases cases_of_scanLeading h with ⟨-, -, rfl⟩ | ⟨-, -, rfl⟩ | ⟨-, -, rfl⟩ |
    ⟨-, -, rest, rfl, rfl⟩ | ⟨-, -, rest, m, rfl, hm, rfl⟩
  · exact countWhile_le _ _
  · exact countWhile_le _ _
  · split
    next hpair =>
      obtain ⟨rest, rfl⟩ := List.head?_eq_some_iff.mp hpair.2
      exact Nat.le_add_left 1 _
    next => exact Nat.zero_le _
  · rw [List.length_cons, Nat.add_comm]
    exact Nat.succ_le_succ (countWhile_le _ _)
  · rw [List.length_cons, Nat.add_comm]
    exact Nat.succ_le_succ (commentBody_le hm)

theorem scanLeading_of_isSpace (b : Bool) (hc : isSpace c = true) (cs : List Char) :
    scanLeading b c cs = some (.whitespace, countWhile isSpace cs) := by
  have hne : c ≠ '#' := by
    rintro rfl
    cases hc
  unfold scanLeading scanTrivia
  simp [hne, hc]

/-- **Blanks say nothing.** -/
theorem reading_blank (hc : isSpace c = true) : reading b (c :: cs) = reading b cs := by
  have hdrop : reading b (cs.drop (countWhile isSpace cs)) = reading b cs := by
    cases cs with
    | nil => rfl
    | cons d cs =>
      cases hd : isSpace d with
      | false => simp [countWhile, hd]
      | true =>
        have hpiece := reading_of_scanLeading (scanLeading_of_isSpace b hd cs)
        simp only [countWhile, hd, if_true, List.drop_succ_cons]
        rw [hpiece]
        simp [remarks, Trivia.isRemark, Trivia.isComment, startsLine]
  rw [reading_of_scanLeading (scanLeading_of_isSpace b hc cs)]
  simpa [remarks, Trivia.isRemark, Trivia.isComment, startsLine] using hdrop

theorem scanLeading_of_isLineBreak (b : Bool) (hc : isLineBreak c = true) (cs : List Char) :
    scanLeading b c cs = some (.endOfLine, if c = '\r' ∧ cs.head? = some '\n' then 1 else 0) := by
  simp only [isLineBreak, Bool.or_eq_true, decide_eq_true_eq] at hc
  unfold scanLeading scanTrivia
  rcases hc with rfl | rfl
  · simp [isSpace]
  · simp [isSpace]

/-- **A line break says nothing, but a line starts behind it.** -/
theorem reading_lineBreak (hc : isLineBreak c = true) : reading b (c :: cs) = reading true cs := by
  have hdrop : reading true (cs.drop (if c = '\r' ∧ cs.head? = some '\n' then 1 else 0)) =
      reading true cs := by
    split
    next h =>
      obtain ⟨rest, rfl⟩ := List.head?_eq_some_iff.mp h.2
      have hpiece := reading_of_scanLeading (scanLeading_of_isLineBreak true (c := '\n') rfl rest)
      rw [hpiece]
      simp [remarks, Trivia.isRemark, Trivia.isComment, startsLine]
    next => rfl
  rw [reading_of_scanLeading (scanLeading_of_isLineBreak b hc cs)]
  simpa [remarks, Trivia.isRemark, Trivia.isComment, startsLine] using hdrop

/-- A run of blanks in front of a text. -/
theorem reading_blanks (hw : ∀ d ∈ w, isSpace d = true) : reading b (w ++ cs) = reading b cs := by
  induction w with
  | nil => rfl
  | cons d w ih =>
    rw [List.cons_append, reading_blank (hw d List.mem_cons_self)]
    exact ih fun e he => hw e (List.mem_cons_of_mem _ he)

theorem countWhile_append_eq_length_iff {p : Char → Bool} :
    countWhile p (w ++ x) = w.length ↔ (∀ d ∈ w, p d = true) ∧ countWhile p x = 0 := by
  induction w with
  | nil => simp
  | cons d w ih =>
    rw [List.cons_append, countWhile]
    cases hd : p d with
    | false => simp [hd]
    | true => simp [hd, ih]

/-! ## Comments and directives

Comments and directives say what they are.  Those that go on to the end of the line are cut short if
the text behind them is put on the same line. -/

/-- The text is at its end or starts with a line break. -/
def Halts (cs : List Char) : Prop := ∀ d ∈ cs.head?, isLineBreak d = true

theorem countWhile_eq_zero_iff_halts : countWhile (fun d => !isLineBreak d) cs = 0 ↔ Halts cs := by
  cases cs with
  | nil => simp [countWhile, Halts]
  | cons d cs => simp [countWhile, Halts]

/-- A line that is read up to its end is read so also in front of another end of a line. -/
theorem countWhile_line_append (h : countWhile (fun d => !isLineBreak d) (w ++ x) = w.length)
    (hxy : Halts x → Halts y) : countWhile (fun d => !isLineBreak d) (w ++ y) = w.length := by
  rw [countWhile_append_eq_length_iff, countWhile_eq_zero_iff_halts] at h ⊢
  exact ⟨h.1, hxy h.2⟩

theorem scanLeading_slash (b : Bool) (cs : List Char) :
    scanLeading b '/' ('/' :: cs) =
      some (.singleLineComment, 1 + countWhile (fun d => !isLineBreak d) cs) := by
  unfold scanLeading scanTrivia
  simp [isSpace]

theorem scanLeading_star (b : Bool) (cs : List Char) :
    scanLeading b '/' ('*' :: cs) =
      (commentBody cs).map fun n => (.multiLineComment, 1 + n) := by
  unfold scanLeading scanTrivia
  simp [isSpace]

/-- **A comment or directive stays as it is when the text behind it changes**, if a line that ends
behind it still does. -/
theorem scanLeading_append {k : TriviaKind} (h : scanLeading b c (w ++ x) = some (k, w.length))
    (hblank : k ≠ .whitespace) (hline : k ≠ .endOfLine) (hxy : Halts x → Halts y) :
    scanLeading b c (w ++ y) = some (k, w.length) := by
  -- a comment takes more than its slash
  have hw : ∀ {e rest m}, w ++ x = e :: rest → w.length = 1 + m →
      ∃ v, w = e :: v ∧ rest = v ++ x ∧ v.length = m := by
    intro e rest m heq hlength
    cases w with
    | nil =>
      rw [List.length_nil] at hlength
      omega
    | cons d v =>
      obtain ⟨rfl, rfl⟩ := List.cons.inj heq
      exact ⟨v, rfl, rfl, by rw [List.length_cons] at hlength; omega⟩
  rcases cases_of_scanLeading h with ⟨rfl, hdirective, hn⟩ | ⟨rfl, -⟩ | ⟨rfl, -⟩ |
    ⟨rfl, rfl, rest, heq, hn⟩ | ⟨rfl, rfl, rest, m, heq, hm, hn⟩
  · unfold scanLeading
    rw [if_pos hdirective, countWhile_line_append hn.symm hxy]
  · exact absurd rfl hblank
  · exact absurd rfl hline
  · obtain ⟨v, rfl, rfl, hlength⟩ := hw heq hn
    rw [List.cons_append, scanLeading_slash, countWhile_line_append hlength.symm hxy,
      List.length_cons, Nat.add_comm]
  · obtain ⟨v, rfl, rfl, rfl⟩ := hw heq hn
    rw [List.cons_append, scanLeading_star, commentBody_append hm (Nat.le_refl _) y,
      List.length_cons, Nat.add_comm]
    rfl

/-! ## Trivia in front of a text

What trivia says does not depend on the text behind it, if that one can stand there. -/

/-- In front of a text, the pieces are read one after the other. -/
def Gap : Bool → List Trivia → List Char → Prop
  | _, [], _ => True
  | b, t :: ts, rest =>
    (∃ c w, t.text.toList = c :: w ∧
      scanLeading b c (w ++ (Trivia.chars ts ++ rest)) = some (t.kind, w.length)) ∧
    Gap (startsLine b t.kind) ts rest

/-- Whether a line starts behind some pieces. -/
def lineStart (b : Bool) (pieces : List Trivia) : Bool :=
  pieces.foldl (fun b t => startsLine b t.kind) b

theorem Gap.append {ts us : List Trivia} {rest : List Char}
    (h : Gap b ts (Trivia.chars us ++ rest)) (hus : Gap (lineStart b ts) us rest) :
    Gap b (ts ++ us) rest := by
  induction ts generalizing b with
  | nil => exact hus
  | cons t ts ih =>
    obtain ⟨⟨c, w, htext, hscan⟩, hts⟩ := h
    refine ⟨⟨c, w, htext, ?_⟩, ih hts hus⟩
    have hchars : Trivia.chars (ts ++ us) = Trivia.chars ts ++ Trivia.chars us := by
      simp [Trivia.chars, Trivia.render, String.join_append]
    show scanLeading b c (w ++ (Trivia.chars (ts ++ us) ++ rest)) = _
    rwa [hchars, List.append_assoc]

/-- The text of a piece of blanks is made of blanks, that of a line break of line breaks. -/
theorem forall_of_scanLeading {k : TriviaKind} (h : scanLeading b c (w ++ x) = some (k, w.length)) :
    (k = .whitespace → ∀ d ∈ c :: w, isSpace d = true) ∧
      (k = .endOfLine → ∀ d ∈ c :: w, isLineBreak d = true) := by
  rcases cases_of_scanLeading h with ⟨rfl, -⟩ | ⟨rfl, hc, hn⟩ | ⟨rfl, hc, hn⟩ | ⟨rfl, -⟩ | ⟨rfl, -⟩
  · exact ⟨nofun, nofun⟩
  · refine ⟨fun _ => ?_, nofun⟩
    intro d hd
    rcases List.mem_cons.mp hd with rfl | hd
    · exact hc
    · exact (countWhile_append_eq_length_iff.mp hn.symm).1 d hd
  · refine ⟨nofun, fun _ => ?_⟩
    intro d hd
    rcases List.mem_cons.mp hd with rfl | hd
    · exact hc
    · split at hn
      next hpair =>
        -- the second character is the line feed behind a carriage return
        cases w with
        | nil => cases hd
        | cons e v =>
          have hv : v = [] := List.eq_nil_of_length_eq_zero (Nat.succ.inj hn)
          obtain rfl : e = '\n' := by simpa using hpair.2
          rw [hv] at hd
          obtain rfl := List.mem_singleton.mp hd
          rfl
      next =>
        rw [List.eq_nil_of_length_eq_zero hn] at hd
        cases hd
  · exact ⟨nofun, nofun⟩
  · exact ⟨nofun, nofun⟩

/-- A run of line breaks in front of a text. -/
theorem reading_lineBreaks (hw : ∀ d ∈ c :: w, isLineBreak d = true) :
    reading b (c :: (w ++ cs)) = reading true cs := by
  induction w generalizing b c with
  | nil => exact reading_lineBreak (hw c List.mem_cons_self)
  | cons d w ih =>
    rw [List.cons_append, reading_lineBreak (hw c List.mem_cons_self)]
    exact ih fun e he => hw e (List.mem_cons_of_mem _ he)

/-- What a piece says in front of another text. -/
theorem reading_piece {t : Trivia} (htext : t.text.toList = c :: w)
    (h : scanLeading b c (w ++ x) = some (t.kind, w.length)) (hxy : Halts x → Halts y) :
    reading b (c :: (w ++ y)) = (reading (startsLine b t.kind) y).map (remarks [t] ++ ·) := by
  obtain ⟨hblanks, hlines⟩ := forall_of_scanLeading h
  by_cases hblank : t.kind = .whitespace
  · rw [← List.cons_append, reading_blanks (hblanks hblank), hblank]
    simp [remarks, Trivia.isRemark, Trivia.isComment, hblank, startsLine]
  by_cases hline : t.kind = .endOfLine
  · rw [reading_lineBreaks (hlines hline), hline]
    simp [remarks, Trivia.isRemark, Trivia.isComment, hline, startsLine]
  have hpiece : (⟨t.kind, textOf c (w ++ y) w.length⟩ : Trivia) = t := by
    have htextOf : textOf c (w ++ y) w.length = t.text := by
      rw [textOf, List.take_left, ← htext, String.ofList_toList]
    rw [htextOf]
  rw [reading_of_scanLeading (scanLeading_append h hblank hline hxy), List.drop_left, hpiece]

/-- **Trivia says the same in front of another text.** -/
theorem reading_gap {pieces : List Trivia} (h : Gap b pieces x) (hxy : Halts x → Halts y) :
    reading b (Trivia.chars pieces ++ y) =
      (reading (lineStart b pieces) y).map (remarks pieces ++ ·) := by
  induction pieces generalizing b with
  | nil => simp [Trivia.chars_nil, lineStart]
  | cons t ts ih =>
    obtain ⟨⟨c, w, htext, hscan⟩, hts⟩ := h
    have hpiece : Halts (Trivia.chars ts ++ x) → Halts (Trivia.chars ts ++ y) := by
      cases hchars : Trivia.chars ts with
      | nil => exact hxy
      | cons d cs => exact id
    have hrest := ih hts
    rw [Trivia.chars_cons, htext, List.append_assoc, List.cons_append,
      reading_piece htext hscan hpiece, hrest, Option.map_map]
    have hcons : ∀ out, remarks [t] ++ (remarks ts ++ out) = remarks (t :: ts) ++ out := by
      intro out
      rw [remarks_cons t ts, List.append_assoc]
    exact congrArg (Option.map · _) (funext hcons)

/-! ## A token in front of a text

A token is read as far as it goes, and a different text behind it must not let it go further. -/

/-- In front of `rest`, a token of a kind is read whose first character is `c` and whose others are
`w`.  No trivia starts there, and no comment that does not end. -/
structure Word (b : Bool) (c : Char) (w : List Char) (kind : TokenKind) (rest : List Char) :
    Prop where
  space : isSpace c = false
  lineBreak : isLineBreak c = false
  directive : (b && c = '#') = false
  comment : c = '/' → (w ++ rest).head? ≠ some '/' ∧ (w ++ rest).head? ≠ some '*'
  scan : scanToken c (w ++ rest) = .ok (kind, w.length)

namespace Word

theorem of_scan (h : scanLeading b c (w ++ x) = none)
    (hclosed : ¬ (c = '/' && (w ++ x).head? = some '*') = true)
    (hscan : scanToken c (w ++ x) = .ok (kind, w.length)) : Word b c w kind x := by
  refine ⟨?_, ?_, ?_, ?_, hscan⟩
  · by_contra hc
    rw [scanLeading_of_isSpace b (by simpa using hc)] at h
    cases h
  · by_contra hc
    rw [scanLeading_of_isLineBreak b (by simpa using hc)] at h
    cases h
  · by_contra hc
    rw [scanLeading, if_pos (by simpa using hc)] at h
    cases h
  · rintro rfl
    refine ⟨fun hhead => ?_, fun hhead => hclosed (by simp [hhead])⟩
    obtain ⟨rest, hrest⟩ := List.head?_eq_some_iff.mp hhead
    rw [hrest, scanLeading_slash] at h
    cases h

theorem scanLeading_eq (h : Word b c w kind x) : scanLeading b c (w ++ x) = none := by
  have hn : c ≠ '\n' := by
    rintro rfl
    cases h.lineBreak
  have hr : c ≠ '\r' := by
    rintro rfl
    cases h.lineBreak
  unfold scanLeading scanTrivia
  rw [if_neg (by simp [h.directive]), if_neg (by simp [h.space]), if_neg hn, if_neg hr]
  split
  next hc =>
    obtain ⟨hslash, hstar⟩ := h.comment hc
    split
    next heq => simp [heq] at hslash
    next heq => simp [heq] at hstar
    next => rfl
  next => rfl

/-- **A token is read also in front of a text that agrees with the one behind it.** -/
theorem agree (h : Word b c w kind x) (hxy : Agree x y) : Word b c w kind y := by
  refine ⟨h.space, h.lineBreak, h.directive, fun hc => ?_, hxy.scanToken_append h.scan⟩
  obtain ⟨hslash, hstar⟩ := h.comment hc
  rw [ne_eq, hxy.head?_append_iff (.inr rfl)] at hslash
  rw [ne_eq, hxy.head?_append_iff (.inl (by decide))] at hstar
  exact ⟨hslash, hstar⟩

/-- A token other than a lone slash is read also in front of another text that begins at a seam. -/
theorem cut (h : Word b c w kind x) (hxy : Cut x y) (hslash : c :: w ≠ ['/']) :
    Word b c w kind y := by
  refine ⟨h.space, h.lineBreak, h.directive, fun hc => ?_,
    hxy.scanToken_append h.scan (Nat.le_refl _)⟩
  cases w with
  | nil => exact absurd (by rw [hc]) hslash
  | cons d w => exact h.comment hc

/-- Only a directive asks whether a line starts. -/
theorem of_lineStart {b' : Bool} (h : Word b c w kind x) (hb' : b' = true → c ≠ '#') :
    Word b' c w kind x := by
  refine ⟨h.space, h.lineBreak, ?_, h.comment, h.scan⟩
  cases b' with
  | false => rfl
  | true => simpa using hb' rfl

end Word

/-- What a token says in front of a text. -/
theorem reading_word (h : Word b c w kind x) :
    reading b (c :: (w ++ x)) =
      (reading false x).map (.word kind (String.ofList (c :: w)) :: ·) := by
  have hclosed : ¬ (c = '/' && (w ++ x).head? = some '*') = true := by
    intro hc
    simp only [Bool.and_eq_true, decide_eq_true_eq] at hc
    exact (h.comment hc.1).2 hc.2
  have htext : textOf c (w ++ x) w.length = String.ofList (c :: w) := by
    rw [textOf, List.take_left]
  rw [reading, h.scanLeading_eq]
  dsimp only
  rw [if_neg hclosed, h.scan]
  dsimp only
  rw [List.drop_left, htext]

/-- A character with which no compound mark starts is no part of one. -/
theorem find?_compoundMarks_eq_none (hc : ∀ m ∈ compoundMarks, m.head? ≠ some c) (cs : List Char) :
    (compoundMarks.find? fun m => m.isPrefixOf (c :: cs)) = none := by
  rw [List.find?_eq_none]
  intro m hm
  have hhead := hc m hm
  cases m with
  | nil =>
    have hnil : [] ∉ compoundMarks := by decide
    exact absurd hm hnil
  | cons d m =>
    have hd : d ≠ c := by simpa using hhead
    simp [List.isPrefixOf, hd]

/-- A hash starts no token. -/
theorem scanToken_hash (cs : List Char) : scanToken '#' cs = .error (.unexpected '#') := by
  have hname : name? '#' cs = none := by
    have hstart : isNameStart '#' = false := by decide
    simp [name?, hstart]
  have hmark : mark? '#' cs = none := by
    rw [mark?_eq, find?_compoundMarks_eq_none (by decide)]
    simp [singleMarks]
  simp [scanToken, hname, hmark]

/-- Some marks are tokens whatever follows them. -/
theorem scanToken_loneMark (hc : c ∈ ['(', ')', ',', ']']) (cs : List Char) :
    scanToken c cs = .ok (.punctuation, 0) := by
  have hname : name? c cs = none := by
    have hstart : ∀ d ∈ ['(', ')', ',', ']'], isNameStart d = false ∧ d ≠ '@' :=
      forall_mem_of_all (by decide)
    simp [name?, hstart c hc]
  have hmark : mark? c cs = some 0 := by
    have hmarks : ∀ d ∈ ['(', ')', ',', ']'], (∀ m ∈ compoundMarks, m.head? ≠ some d) ∧
        singleMarks.contains d = true ∧ d ≠ '?' := forall_mem_of_all (by decide)
    obtain ⟨hcompound, hsingle, hquestion⟩ := hmarks c hc
    rw [mark?_eq, find?_compoundMarks_eq_none hcompound, if_neg (fun h => hquestion h.1)]
    dsimp only
    rw [if_pos hsingle]
  have hother : ∀ d ∈ ['(', ')', ',', ']'], d ≠ '"' ∧ d ≠ '$' ∧ d ≠ '@' ∧ d ≠ '\'' ∧
      d.isDigit = false ∧ d ≠ '.' := forall_mem_of_all (by decide)
  simp [scanToken, hname, hmark, hother c hc]

theorem Word.of_loneMark (hc : c ∈ ['(', ')', ',', ']']) (b : Bool) (rest : List Char) :
    Word b c [] .punctuation rest := by
  have hother : ∀ d ∈ ['(', ')', ',', ']'], isSpace d = false ∧ isLineBreak d = false ∧ d ≠ '#' ∧
      d ≠ '/' := forall_mem_of_all (by decide)
  obtain ⟨hspace, hline, hhash, hslash⟩ := hother c hc
  exact ⟨hspace, hline, by simp [hhash], fun h => absurd h hslash, scanToken_loneMark hc rest⟩

/-- **What a text says in the middle of a line it says at the start of one**: no directive is there
that would only be seen at the start of a line. -/
theorem reading_true_of_false (h : reading false cs = some out) : reading true cs = some out := by
  induction cs with
  | nil => simpa using h
  | cons c cs ih =>
    by_cases hspace : isSpace c = true
    · rw [reading_blank hspace] at h ⊢
      exact ih h
    by_cases hline : isLineBreak c = true
    · rw [reading_lineBreak hline] at h ⊢
      exact h
    by_cases hc : c = '#'
    · -- in the middle of a line a hash is a fault
      subst hc
      rw [reading] at h
      unfold scanLeading scanTrivia at h
      simp [isSpace, scanToken_hash] at h
    have hscan : scanLeading true c cs = scanLeading false c cs := by
      simp [scanLeading, hc]
    rw [reading] at h ⊢
    rw [hscan]
    cases hpiece : scanLeading false c cs with
    | none => rwa [hpiece] at h
    | some piece =>
      obtain ⟨k, n⟩ := piece
      have hstart : startsLine true k = startsLine false k := by
        rcases cases_of_scanLeading hpiece with
          ⟨rfl, -⟩ | ⟨-, hs, -⟩ | ⟨rfl, -⟩ | ⟨rfl, -⟩ | ⟨rfl, -⟩
        · rfl
        · exact absurd hs hspace
        · rfl
        · rfl
        · rfl
      rw [hpiece] at h
      dsimp only at h ⊢
      rwa [hstart]

/-! ## Tokens

Tokens of a text are described by what is in front of them and behind them, which is what is needed
to cut the text anywhere and put another one there. -/

/-- Tokens as the lexer finds them.  `behind` is the trivia behind the token before them, with which
the text starts. -/
inductive Lexed : Nat → Bool → List Trivia → List Char → List Token → Prop where
  | last (pos : Nat) (b : Bool) (behind before : List Trivia)
      (hgap : Gap b (behind ++ before) []) :
      Lexed pos b behind (Trivia.chars (behind ++ before))
        [⟨.endOfFile, "", pos + Trivia.width (behind ++ before), before, []⟩]
  | more (pos : Nat) (b : Bool) (behind before after : List Trivia) (c : Char) (w : List Char)
      (kind : TokenKind) (rest : List Char) (tokens : List Token)
      (hgap : Gap b (behind ++ before) (c :: (w ++ rest)))
      (hword : Word (lineStart b (behind ++ before)) c w kind rest)
      (htail : Lexed (pos + Trivia.width (behind ++ before) + byteLength (c :: w)) false after rest
        tokens) :
      Lexed pos b behind (Trivia.chars (behind ++ before) ++ (c :: (w ++ rest)))
        (⟨kind, String.ofList (c :: w), pos + Trivia.width (behind ++ before), before, after⟩ ::
          tokens)

/-- What tokens say.  `behind` is the trivia behind the token before them. -/
def lexemes : List Trivia → List Token → List Lexeme
  | _, [] => []
  | behind, t :: ts =>
    remarks (behind ++ t.leading) ++ .word t.kind t.text :: lexemes t.trailing ts

theorem Trivia.chars_append (ts us : List Trivia) :
    Trivia.chars (ts ++ us) = Trivia.chars ts ++ Trivia.chars us := by
  simp [Trivia.chars, Trivia.render, String.join_append]

theorem Trivia.width_append (ts us : List Trivia) :
    Trivia.width (ts ++ us) = Trivia.width ts + Trivia.width us := by
  rw [← Trivia.byteLength_chars, ← Trivia.byteLength_chars, ← Trivia.byteLength_chars,
    Trivia.chars_append, byteLength_append]

namespace Lexer

/-- The trivia before a token is a gap, and none follows it. -/
theorem gap_leading (b : Bool) (cs : List Char) :
    Gap b (leading b cs).1 (leading b cs).2 ∧
      ∀ c rest, (leading b cs).2 = c :: rest →
        scanLeading (lineStart b (leading b cs).1) c rest = none := by
  fun_induction leading b cs with
  | case1 =>
    refine ⟨trivial, fun c rest heq => ?_⟩
    cases heq
  | case2 b c cs kind n hscan pieces rest heq ih =>
    have hspells := leading_spells (startsLine b kind) (cs.drop n)
    rw [heq] at ih hspells
    refine ⟨⟨⟨c, cs.take n, toList_textOf c cs n, ?_⟩, ih.1⟩, ih.2⟩
    have hn : (cs.take n).length = n := by
      have := length_le_of_scanLeading hscan
      rw [List.length_take]
      omega
    rw [hspells, List.take_append_drop, hn]
    exact hscan
  | case3 b c cs hscan =>
    refine ⟨trivial, fun d rest heq => ?_⟩
    obtain ⟨rfl, rfl⟩ := List.cons.inj heq
    exact hscan

/-- The trivia after a token is a gap, and a line starts behind it if it breaks the line. -/
theorem gap_trailing (cs : List Char) :
    Gap false (trailing cs).1 (trailing cs).2 ∧
      lineStart false (trailing cs).1 = Trivia.hasEndOfLine (trailing cs).1 := by
  have hlength : ∀ {c cs k n}, scanTrivia c cs = some (k, n) → (cs.take n).length = n := by
    intro c cs k n hscan
    have := length_le_of_scanLeading (b := false) (by simpa [scanLeading] using hscan)
    rw [List.length_take]
    omega
  fun_induction trailing cs with
  | case1 => exact ⟨trivial, rfl⟩
  | case2 c cs n hscan piece =>
    refine ⟨⟨⟨c, cs.take n, toList_textOf c cs n, ?_⟩, trivial⟩, rfl⟩
    rw [Trivia.chars_nil, List.nil_append, List.take_append_drop, hlength hscan]
    simpa [scanLeading] using hscan
  | case3 c cs kind n hscan piece hkind pieces rest heq ih =>
    have hspells := trailing_spells (cs.drop n)
    rw [heq] at ih hspells
    -- only the break of a line starts a new one, and that is the last piece of a trailing gap
    have hstart : startsLine false kind = false := by
      cases kind with
      | endOfLine => exact absurd rfl hkind
      | whitespace | singleLineComment | multiLineComment | directive => rfl
    refine ⟨⟨⟨c, cs.take n, toList_textOf c cs n, ?_⟩, ?_⟩, ?_⟩
    · rw [hspells, List.take_append_drop, hlength hscan]
      simpa [scanLeading] using hscan
    · rw [hstart]
      exact ih.1
    · show lineStart (startsLine false kind) pieces = _
      rw [hstart, ih.2]
      simp [Trivia.hasEndOfLine, Trivia.isEndOfLine, piece, hkind]
  | case4 => exact ⟨trivial, rfl⟩

/-- What is scanned as a name is one. -/
theorem name?_of_scanToken {c : Char} {cs : List Char} {k : Nat}
    (h : scanToken c cs = .ok (.identifier, k)) : name? c cs = some k := by
  unfold scanToken at h
  split at h
  · split at h <;> cases h
  split at h
  · split at h <;> cases h
  split at h
  · dsimp only at h
    split at h
    · cases h
    · split at h <;> cases h
  split at h
  · cases h
  split at h
  next hname =>
    obtain ⟨-, rfl⟩ := Prod.mk.inj (Except.ok.inj h)
    exact hname
  next => split at h <;> cases h

end Lexer

namespace Lexed

variable {pos : Nat} {behind before : List Trivia} {t : Token} {ts front back : List Token}

/-- The trivia in front of the first token may be divided in another way. -/
theorem of_gap (hgap : Gap b behind cs)
    (h : Lexed (pos + Trivia.width behind) (lineStart b behind) [] cs ts) :
    Lexed pos b behind (Trivia.chars behind ++ cs) ts := by
  have hwidth : ∀ before, pos + Trivia.width behind + Trivia.width before =
      pos + Trivia.width (behind ++ before) := by
    intro before
    rw [Trivia.width_append, Nat.add_assoc]
  have hstart : ∀ before, lineStart (lineStart b behind) before =
      lineStart b (behind ++ before) := by
    intro before
    simp [lineStart]
  cases h with
  | last _ _ _ before hgap' =>
    rw [List.nil_append] at hgap' ⊢
    rw [hwidth, ← Trivia.chars_append]
    rw [List.nil_append, ← List.append_nil (Trivia.chars before)] at hgap
    exact .last pos b behind before (hgap.append hgap')
  | more _ _ _ before after c w kind rest tokens hgap' hword htail =>
    rw [List.nil_append] at hgap' hword htail ⊢
    rw [hwidth] at htail ⊢
    rw [hstart] at hword
    rw [← List.append_assoc, ← Trivia.chars_append]
    exact .more pos b behind before after c w kind rest tokens (hgap.append hgap') hword htail

/-- Tokens say what their text says. -/
theorem reading_eq (h : Lexed pos b behind cs ts) : reading b cs = some (lexemes behind ts) := by
  induction h with
  | last pos b behind before hgap =>
    have hread := reading_gap hgap (y := []) id
    rw [List.append_nil] at hread
    rw [hread, reading_nil]
    rfl
  | more pos b behind before after c w kind rest tokens hgap hword htail ih =>
    rw [reading_gap hgap id, reading_word hword, ih]
    rfl

theorem lexemes_append (behind : List Trivia) (front back : List Token) :
    lexemes behind (front ++ back) =
      lexemes behind front ++ lexemes (front.getLast?.elim behind Token.trailing) back := by
  induction front generalizing behind with
  | nil => rfl
  | cons t ts ih =>
    rw [List.cons_append, lexemes, ih, lexemes, List.append_assoc, List.cons_append,
      List.getLast?_cons]
    cases ts.getLast? <;> rfl

/-- **Tokens in front stay as they are when the text behind them changes.**  The text may be cut in
front of any token. -/
theorem split (h : Lexed pos b behind cs (front ++ back)) (hback : back ≠ []) :
    ∃ A F, cs = A ++ F ∧
      Lexed (pos + byteLength A) (front.isEmpty && b) (front.getLast?.elim behind Token.trailing) F
        back ∧
      ∀ F', Agree F F' →
        reading b (A ++ F') =
          (reading (front.isEmpty && b) F').map (lexemes behind front ++ ·) := by
  induction front generalizing pos b behind cs with
  | nil => exact ⟨[], cs, rfl, by simpa using h, fun F' _ => by simp [lexemes]⟩
  | cons t front ih =>
    generalize hall : t :: front ++ back = ts at h
    cases h with
    | last _ _ _ before hgap =>
      rw [List.cons_append] at hall
      have hnil := (List.append_eq_nil_iff.mp (List.cons.inj hall).2).2
      exact absurd hnil hback
    | more _ _ _ before after c w kind rest tokens hgap hword htail =>
      obtain ⟨rfl, rfl⟩ := List.cons.inj hall
      obtain ⟨A, F, rfl, hF, hread⟩ := ih htail
      have hlast : ∀ t : Token, t.trailing = after →
          (t :: front).getLast?.elim behind Token.trailing =
            front.getLast?.elim after Token.trailing := by
        rintro t rfl
        rw [List.getLast?_cons]
        cases front.getLast? <;> rfl
      refine ⟨Trivia.chars (behind ++ before) ++ (c :: (w ++ A)), F, by simp, ?_, ?_⟩
      · have hpos : pos + byteLength (Trivia.chars (behind ++ before) ++ (c :: (w ++ A))) =
            pos + Trivia.width (behind ++ before) + byteLength (c :: w) + byteLength A := by
          rw [byteLength_append, Trivia.byteLength_chars, ← List.cons_append, byteLength_append]
          omega
        rw [hpos, hlast _ rfl]
        simpa using hF
      · intro F' hF'
        -- the token is the same one in front of a text that agrees with what was there
        have hword' : Word (lineStart b (behind ++ before)) c w kind (A ++ F') :=
          hword.agree (hF'.append A)
        have hhalts : Halts (c :: (w ++ (A ++ F))) → Halts (c :: (w ++ (A ++ F'))) := id
        have hcs : Trivia.chars (behind ++ before) ++ (c :: (w ++ A)) ++ F' =
            Trivia.chars (behind ++ before) ++ (c :: (w ++ (A ++ F'))) := by simp
        rw [hcs, reading_gap hgap hhalts, reading_word hword', hread F' hF', Bool.and_false,
          List.isEmpty_cons, Bool.false_and, Option.map_map, Option.map_map]
        congr 1
        funext out
        simp [lexemes]

/-- A token of a source is what its scan found. -/
theorem exists_scan_of_mem {t : Token} (h : Lexed pos b behind cs ts) (ht : t ∈ ts)
    (hkind : t.kind ≠ .endOfFile) :
    ∃ c w rest, t.text = String.ofList (c :: w) ∧
      scanToken c (w ++ rest) = .ok (t.kind, w.length) := by
  induction h with
  | last => exact absurd (List.mem_singleton.mp ht ▸ rfl) hkind
  | more pos b behind before after c w kind rest tokens hgap hword htail ih =>
    rcases List.mem_cons.mp ht with rfl | ht
    · exact ⟨c, w, rest, rfl, hword.scan⟩
    · exact ih ht

end Lexed

/-- **The lexer finds tokens one behind the other.** -/
theorem lexed_of_tokensFrom {pos : Nat} {tokens : List Token}
    (h : tokensFrom pos b cs = .ok tokens) : Lexed pos b [] cs tokens := by
  fun_induction tokensFrom pos b cs generalizing tokens with
  | case1 pos b cs before hlead =>
    obtain rfl := Except.ok.inj h
    have hcs := leading_spells b cs
    have hgap := (gap_leading b cs).1
    rw [hlead] at hcs hgap
    rw [← hcs, List.append_nil]
    exact .last pos b [] before hgap
  | case2 => cases h
  | case3 => cases h
  | case4 => cases h
  | case5 pos b cs before c rest hlead offset hclosed kind n hscan text after remaining htrail tail
      htail =>
    rename_i ih
    obtain rfl := Except.ok.inj h
    have hcs := leading_spells b cs
    have hgap := gap_leading b cs
    have hbehind := gap_trailing (rest.drop n)
    have hrest := trailing_spells (rest.drop n)
    rw [hlead] at hcs hgap
    rw [htrail] at hrest hbehind
    have hn : (rest.take n).length = n := by
      have := length_le_of_scanToken hscan
      rw [List.length_take]
      omega
    have hsplit : rest = rest.take n ++ rest.drop n := (List.take_append_drop n rest).symm
    have hword : Word (lineStart b before) c (rest.take n) kind (rest.drop n) := by
      refine Word.of_scan ?_ ?_ ?_
      · rw [← hsplit]
        exact hgap.2 c rest rfl
      · rwa [← hsplit]
      · rwa [← hsplit, hn]
    -- the lexer goes on behind the trivia that belong to the token
    have htokens := ih htail
    rw [← hbehind.2] at htokens
    have hbytes : text.utf8ByteSize = byteLength (c :: rest.take n) := utf8ByteSize_ofList _
    have hbehind' : Lexed (offset + byteLength (c :: rest.take n)) false after
        (Trivia.chars after ++ remaining) tail := by
      rw [hbytes] at htokens
      exact Lexed.of_gap hbehind.1 htokens
    rw [hrest] at hbehind'
    rw [← hcs, hsplit]
    refine .more pos b [] before after c (rest.take n) kind (rest.drop n) tail ?_ hword ?_
    · rw [List.nil_append, ← hsplit]
      exact hgap.1
    · exact hbehind'

theorem lexed_of_tokenize {source : String} {tokens : List Token}
    (h : tokenize source = .ok tokens) : Lexed 0 true [] source.toList tokens :=
  lexed_of_tokensFrom h

/-- What a source says, its tokens say. -/
theorem reading_of_tokenize {source : String} {tokens : List Token}
    (h : tokenize source = .ok tokens) : reading true source.toList = some (lexemes [] tokens) :=
  (lexed_of_tokenize h).reading_eq

/-- **A text with a lexical fault says nothing.** -/
theorem reading_eq_none_of_tokensFrom {pos : Nat} {e : LexError}
    (h : tokensFrom pos b cs = .error e) : reading b cs = none := by
  -- nothing is said of a text when nothing is said behind its trivia
  have hgap : ∀ {b cs pieces rest}, leading b cs = (pieces, rest) →
      reading (lineStart b pieces) rest = none → reading b cs = none := by
    intro b cs pieces rest hlead hrest
    have hcs := leading_spells b cs
    have hpieces := (gap_leading b cs).1
    rw [hlead] at hcs hpieces
    rw [← hcs, reading_gap hpieces id, hrest]
    rfl
  have hnone : ∀ {b cs pieces c rest}, leading b cs = (pieces, c :: rest) →
      scanLeading (lineStart b pieces) c rest = none := by
    intro b cs pieces c rest hlead
    have hpieces := (gap_leading b cs).2 c rest
    rw [hlead] at hpieces
    exact hpieces rfl
  fun_induction tokensFrom pos b cs generalizing e with
  | case1 => cases h
  | case2 pos b cs before c rest hlead offset =>
    rename_i hopen
    refine hgap hlead ?_
    rw [reading, hnone hlead]
    dsimp only
    rw [if_pos (by simpa using hopen)]
  | case3 pos b cs before c rest hlead offset =>
    rename_i hclosed fault hscan
    refine hgap hlead ?_
    rw [reading, hnone hlead]
    dsimp only
    rw [if_neg (by simpa using hclosed), hscan]
  | case4 pos b cs before c rest hlead offset hclosed kind n hscan text after remaining htrail e'
      htail =>
    rename_i ih
    have hbehind := gap_trailing (rest.drop n)
    have hspells := trailing_spells (rest.drop n)
    rw [htrail] at hbehind hspells
    have hrest : reading false (rest.drop n) = none := by
      rw [← hspells, reading_gap hbehind.1 id, hbehind.2, ih htail]
      rfl
    refine hgap hlead ?_
    rw [reading, hnone hlead]
    dsimp only
    rw [if_neg (by simpa using hclosed), hscan]
    dsimp only
    rw [hrest]
    rfl
  | case5 => cases h

/-- A text that says something has tokens. -/
theorem exists_tokenize_of_reading {source : String} {ls : List Lexeme}
    (h : reading true source.toList = some ls) : ∃ tokens, tokenize source = .ok tokens := by
  cases htokens : tokenize source with
  | ok tokens => exact ⟨tokens, rfl⟩
  | error e =>
    rw [reading_eq_none_of_tokensFrom htokens] at h
    cases h

theorem filterMap_word?_remarks (us : List Trivia) : (remarks us).filterMap Lexeme.word? = [] := by
  simp [remarks, List.filterMap_map, Function.comp_def, Lexeme.word?]

/-- The words that tokens say are the tokens. -/
theorem filterMap_word?_lexemes (behind : List Trivia) (ts : List Token) :
    (lexemes behind ts).filterMap Lexeme.word? = ts.map fun t => (t.kind, t.text) := by
  induction ts generalizing behind with
  | nil => rfl
  | cons t ts ih =>
    rw [lexemes, List.filterMap_append, filterMap_word?_remarks, List.nil_append]
    simp [Lexeme.word?, ih]

theorem filterMap_remark?_remarks (us : List Trivia) :
    (remarks us).filterMap Lexeme.remark? = us.filter Trivia.isRemark := by
  simp [remarks, List.filterMap_map, Function.comp_def, Lexeme.remark?]

/-- The remarks that tokens say are those in their trivia. -/
theorem Lexed.filterMap_remark?_lexemes {pos : Nat} {behind : List Trivia} {ts : List Token}
    (h : Lexed pos b behind cs ts) :
    (lexemes behind ts).filterMap Lexeme.remark? =
      (behind ++ ts.flatMap fun t => t.leading ++ t.trailing).filter Trivia.isRemark := by
  induction h with
  | last pos b behind before hgap =>
    simp [lexemes, Lexeme.remark?, filterMap_remark?_remarks]
  | more pos b behind before after c w kind rest tokens hgap hword htail ih =>
    rw [lexemes, List.filterMap_append, List.filterMap_cons_none rfl, ih,
      filterMap_remark?_remarks]
    simp

end CodeMend
