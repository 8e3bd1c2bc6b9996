import Mathlib.Data.List.Chain
import CodeMend.Proofs.Token.Rewording
import CodeMend.Proofs.Text.Splices

/-!
# CodeMend — runs of tokens that go

A run of tokens that stands behind a mark can be taken out of a source with all its trivia, and so
can one that stands in front of a mark.  What is left says what it said before, but for two things
that come to stand next to each other: a directive must not come into the middle of a line, and
behind a lone slash there must not be another one.

* **`Divided`** — where the lexer divides the trivia between two tokens: behind a line break, or in
  front of the next token.
* **`reading_behind`** — the trivia behind a token says the same in front of any text.
* **`Lexed.exists_run`** — a run of tokens in the text that it stands in.
* **`Lexed.behind_word`** — tokens stay as they are when the text behind them changes at a seam.
* **`Lexed.saysWithout_entries`** — items behind a mark, of which some go with their commas.
* **`Lexed.exists_cropped`**, **`Lexed.exists_cropped_comment`** — the items behind the last one
  that stays, with the comma in front of them.
-/

namespace CodeMend

open Lexer Literal

variable {b : Bool} {c : Char} {w x y cs : List Char} {pos : Nat} {kind : TokenKind}
  {behind us vs : List Trivia} {t p q : Token} {ts front back : List Token} {out : List Lexeme}

/-! ## Where trivia is divided

Whose trivia a comment is decides with which token it goes.  Between two tokens the division is at
the end of the first line. -/

/-- The trivia ends with a line break. -/
def EndsLine (us : List Trivia) : Prop := ∃ front e, us = front ++ [e] ∧ e.kind = .endOfLine

/-- A token has all the trivia behind it through the end of its line, and the next one has the
rest. -/
def Divided (p q : Token) : Prop := q.leading = [] ∨ EndsLine p.trailing

namespace Lexer

/-- The trivia after a token ends with its line, or nothing is left in front of the next token. -/
theorem endsLine_trailing (cs : List Char) :
    (leading (Trivia.hasEndOfLine (trailing cs).1) (trailing cs).2).1 = [] ∨
      EndsLine (trailing cs).1 := by
  fun_induction trailing cs with
  | case1 => exact .inl (by simp [leading])
  | case2 c cs n hscan piece => exact .inr ⟨[], piece, rfl, rfl⟩
  | case3 c cs kind n hscan piece hkind pieces rest heq ih =>
    rw [heq] at ih
    rcases ih with hnone | ⟨front, e, rfl, he⟩
    · have hline : piece.isEndOfLine = false := beq_eq_false_iff_ne.mpr hkind
      left
      rwa [Trivia.hasEndOfLine, List.any_cons, hline, Bool.false_or]
    · exact .inr ⟨piece :: front, e, rfl, he⟩
  | case4 c cs hscan =>
    left
    have hlead : scanLeading false c cs = none := by simpa [scanLeading] using hscan
    rw [leading]
    simp [Trivia.hasEndOfLine, hlead]

theorem exists_of_tokensFrom {tokens : List Token} (h : tokensFrom pos b cs = .ok tokens) :
    ∃ t ts, tokens = t :: ts ∧ t.leading = (leading b cs).1 := by
  unfold tokensFrom at h
  grind

/-- **The lexer divides all trivia so.** -/
theorem isChain_divided {tokens : List Token} (h : tokensFrom pos b cs = .ok tokens) :
    tokens.IsChain Divided := by
  fun_induction tokensFrom pos b cs generalizing tokens with
  | case1 pos b cs before hlead =>
    obtain rfl := Except.ok.inj h
    exact .singleton _
  | case2 => cases h
  | case3 => cases h
  | case4 => cases h
  | case5 pos b cs before c rest hlead offset hclosed kind n hscan text after remaining htrail tail
      htail =>
    rename_i ih
    obtain rfl := Except.ok.inj h
    obtain ⟨q, qs, rfl, hq⟩ := exists_of_tokensFrom htail
    refine .cons_cons ?_ (ih htail)
    have hends := endsLine_trailing (rest.drop n)
    rw [htrail] at hends
    exact hends.imp_left fun hnone => hq.trans hnone

end Lexer

theorem isChain_divided_of_tokenize {source : String} {tokens : List Token}
    (h : tokenize source = .ok tokens) : tokens.IsChain Divided :=
  isChain_divided h

/-! ## Trivia in front of another text

When the tokens in front go, their neighbours come to stand behind other text. -/

/-- Pieces in front of a text are two gaps, one in front of the other. -/
theorem Gap.split (h : Gap b (us ++ vs) x) :
    Gap b us (Trivia.chars vs ++ x) ∧ Gap (lineStart b us) vs x := by
  induction us generalizing b with
  | nil => exact ⟨trivial, h⟩
  | cons u us ih =>
    obtain ⟨⟨c, w, htext, hscan⟩, hrest⟩ := h
    obtain ⟨hus, hvs⟩ := ih hrest
    refine ⟨⟨⟨c, w, htext, ?_⟩, hus⟩, hvs⟩
    have hchars : Trivia.chars (us ++ vs) ++ x = Trivia.chars us ++ (Trivia.chars vs ++ x) := by
      rw [Trivia.chars_append, List.append_assoc]
    rw [← hchars]
    exact hscan

/-- The trivia in front of a token holds no directive. -/
def Undirected (us : List Trivia) : Prop := ∀ u ∈ us, u.kind ≠ .directive

instance : DecidablePred Undirected := fun us =>
  inferInstanceAs (Decidable (∀ u ∈ us, u.kind ≠ .directive))

/-- Only a directive asks whether a line starts. -/
theorem scanLeading_of_ne_directive {b' : Bool} {k : TriviaKind} {n : Nat}
    (h : scanLeading b c cs = some (k, n)) (hk : k ≠ .directive) :
    scanLeading b' c cs = some (k, n) := by
  have hc : c ≠ '#' := by
    rintro rfl
    cases b with
    | false => simp [scanLeading, scanTrivia, isSpace] at h
    | true =>
      simp only [scanLeading, Bool.true_and, decide_true, if_true, Option.some.injEq] at h
      exact hk (Prod.mk.inj h).1.symm
  simpa [scanLeading, hc] using h

/-- Without directives it does not matter whether a line starts. -/
theorem Gap.of_undirected {b' : Bool} (h : Gap b us x) (hus : Undirected us) : Gap b' us x := by
  induction us generalizing b b' with
  | nil => trivial
  | cons u us ih =>
    obtain ⟨⟨c, w, htext, hscan⟩, hrest⟩ := h
    refine ⟨⟨c, w, htext, ?_⟩, ih hrest fun v hv => hus v (List.mem_cons_of_mem _ hv)⟩
    exact scanLeading_of_ne_directive hscan (hus u List.mem_cons_self)

/-- A gap that does not start with a directive starts at a seam. -/
theorem Gap.seam (h : Gap false us x) (hy : Seam y) (hcolon : y.head? ≠ some ':') :
    Seam (Trivia.chars us ++ y) ∧ (Trivia.chars us ++ y).head? ≠ some ':' := by
  cases us with
  | nil => exact ⟨hy, hcolon⟩
  | cons u us =>
    obtain ⟨⟨c, w, htext, hscan⟩, -⟩ := h
    have hc : c ∈ seamChars ∧ c ≠ ':' := by
      rcases cases_of_scanLeading hscan with ⟨-, hdirective, -⟩ | ⟨-, hspace, -⟩ | ⟨-, hline, -⟩ |
        ⟨-, rfl, -⟩ | ⟨-, rfl, -⟩
      · cases hdirective
      · exact ⟨mem_seamChars_of_isSpace hspace, by rintro rfl; cases hspace⟩
      · exact ⟨mem_seamChars_of_isLineBreak hline, by rintro rfl; cases hline⟩
      · decide
      · decide
    rw [Trivia.chars_cons, htext]
    refine ⟨fun d hd => ?_, fun hd => hc.2 (Option.some.inj hd)⟩
    obtain rfl : c = d := Option.some.inj hd
    exact hc.1

/-- **The trivia behind a token says the same in front of any text** that says something in the
middle of a line: a comment that goes on to the end of its line has that end with it. -/
theorem reading_behind (h : Gap b us x) (hends : EndsLine us ∨ ¬ Halts x)
    (hy : reading false y = some out) :
    reading b (Trivia.chars us ++ y) = some (remarks us ++ out) := by
  have hany : ∀ b', reading b' y = some out := by
    intro b'
    cases b' with
    | false => exact hy
    | true => exact reading_true_of_false hy
  rcases hends with ⟨front, e, rfl, he⟩ | hx
  · obtain ⟨hfront, ⟨c, w, htext, hscan⟩, -⟩ := h.split
    have hbreaks : ∀ d ∈ c :: w, isLineBreak d = true := (forall_of_scanLeading hscan).2 he
    have hlast : ∀ z, Trivia.chars [e] ++ z = c :: (w ++ z) := by
      intro z
      simp [htext]
    have hline : Halts (Trivia.chars [e] ++ x) → Halts (Trivia.chars [e] ++ y) := by
      rw [hlast, hlast]
      exact id
    have hread : ∀ b', reading b' (Trivia.chars [e] ++ y) = some out := by
      intro b'
      rw [hlast, reading_lineBreaks hbreaks]
      exact hany true
    have hremarks : remarks [e] = [] := by simp [remarks, Trivia.isRemark, Trivia.isComment, he]
    rw [Trivia.chars_append, List.append_assoc, reading_gap hfront hline, hread, remarks_append,
      hremarks, List.append_nil]
    rfl
  · rw [reading_gap h fun hhalts => absurd hhalts hx, hany]
    rfl

/-! ## Runs of tokens

What is removed is a run of tokens, which is a part of the text with a gap at both ends. -/

/-- A lone slash is a mark. -/
theorem Word.kind_of_slash (h : Word b '/' [] kind x) : kind = .punctuation := by
  have hname : name? '/' x = none := by
    have hstart : isNameStart '/' = false := by decide
    simp [name?, hstart]
  have hscan := h.scan
  cases hmark : mark? '/' x <;> simp [scanToken, hname, hmark] at hscan
  exact hscan.1.symm

namespace Lexed

/-- What the lexer found at a token that is not the last one. -/
theorem uncons (h : Lexed pos b behind cs (t :: ts)) (hts : ts ≠ []) :
    ∃ c w rest, cs = Trivia.chars (behind ++ t.leading) ++ (c :: (w ++ rest)) ∧
      t.text.toList = c :: w ∧ t.offset = pos + Trivia.width (behind ++ t.leading) ∧
      Gap b (behind ++ t.leading) (c :: (w ++ rest)) ∧
      Word (lineStart b (behind ++ t.leading)) c w t.kind rest ∧
      Lexed t.stop false t.trailing rest ts := by
  generalize hall : t :: ts = all at h
  cases h with
  | last => exact absurd (List.cons.inj hall).2 hts
  | more _ _ _ before after c w kind rest tokens hgap hword htail =>
    obtain ⟨rfl, rfl⟩ := List.cons.inj hall
    refine ⟨c, w, rest, rfl, String.toList_ofList, rfl, hgap, hword, ?_⟩
    rwa [Token.stop, utf8ByteSize_ofList]

/-- A token without directives in front of it may stand in the middle of a line. -/
theorem of_undirected (h : Lexed pos b [] cs (t :: ts)) (ht : Undirected t.leading) :
    Lexed pos false [] cs (t :: ts) := by
  generalize hall : t :: ts = all at h
  cases h with
  | last _ _ _ before hgap =>
    obtain ⟨rfl, rfl⟩ := List.cons.inj hall
    rw [List.nil_append] at hgap ⊢
    exact .last pos false [] before (hgap.of_undirected ht)
  | more _ _ _ before after c w kind rest tokens hgap hword htail =>
    obtain ⟨rfl, rfl⟩ := List.cons.inj hall
    rw [List.nil_append] at hgap hword htail ⊢
    have hhash : c ≠ '#' := by
      rintro rfl
      have hscan := hword.scan
      rw [scanToken_hash] at hscan
      cases hscan
    exact .more pos false [] before after c w kind rest _ (hgap.of_undirected ht)
      (hword.of_lineStart fun _ => hhash) htail

/-- The text from where the trivia in front of the first token starts. -/
theorem rebase (h : Lexed pos b behind cs (t :: ts)) :
    ∃ S, cs = Trivia.chars behind ++ S ∧ Gap b behind S ∧
      pos + Trivia.width behind = t.fullStart ∧
      Lexed t.fullStart (lineStart b behind) [] S (t :: ts) := by
  have hstart : ∀ before, pos + Trivia.width (behind ++ before) - Trivia.width before =
      pos + Trivia.width behind := by
    intro before
    rw [Trivia.width_append]
    omega
  have hpos : ∀ before, pos + Trivia.width (behind ++ before) =
      pos + Trivia.width behind + Trivia.width ([] ++ before) := by
    intro before
    rw [Trivia.width_append, Nat.add_assoc, List.nil_append]
  have hline : ∀ before, lineStart b (behind ++ before) =
      lineStart (lineStart b behind) ([] ++ before) := by
    intro before
    simp [lineStart]
  -- The trivia behind the token before goes out of the gap; what is left is as it was.
  generalize hall : t :: ts = all at h
  cases h with
  | last _ _ _ before hgap =>
    obtain ⟨rfl, rfl⟩ := List.cons.inj hall
    obtain ⟨hbehind, hbefore⟩ := hgap.split
    rw [List.append_nil] at hbehind
    refine ⟨Trivia.chars before, Trivia.chars_append _ _, hbehind, (hstart before).symm, ?_⟩
    rw [Token.fullStart, hstart, hpos]
    exact .last (pos + Trivia.width behind) (lineStart b behind) [] before hbefore
  | more _ _ _ before after c w kind rest tokens hgap hword htail =>
    obtain ⟨rfl, rfl⟩ := List.cons.inj hall
    obtain ⟨hbehind, hbefore⟩ := hgap.split
    refine ⟨Trivia.chars before ++ (c :: (w ++ rest)), ?_, hbehind, (hstart before).symm, ?_⟩
    · rw [Trivia.chars_append, List.append_assoc]
    · rw [Token.fullStart, hstart]
      rw [hpos] at htail ⊢
      rw [hline] at hword
      exact .more (pos + Trivia.width behind) (lineStart b behind) [] before after c w kind rest _
        hbefore hword htail

/-- A token with its trivia ends where the next one with its trivia starts. -/
theorem fullStop_eq (h : Lexed pos b behind cs (front ++ p :: q :: back)) :
    p.fullStop = q.fullStart := by
  obtain ⟨A, F, -, hF, -⟩ := h.split (by simp)
  obtain ⟨c, w, rest, -, -, -, -, -, hrest⟩ := hF.uncons (by simp)
  obtain ⟨S, -, -, hstart, -⟩ := hrest.rebase
  exact hstart

/-- **A run of tokens is a part of the text**, from the trivia in front of the first of them to the
trivia in front of the token behind them. -/
theorem exists_run (h : Lexed pos b behind cs (t :: ts ++ q :: back)) :
    ∃ run S, cs = Trivia.chars behind ++ (run ++ S) ∧ Gap b behind (run ++ S) ∧
      pos + byteLength (Trivia.chars behind) = t.fullStart ∧
      t.fullStart + byteLength run = q.fullStart ∧
      ∃ b', Lexed q.fullStart b' [] S (q :: back) := by
  obtain ⟨_, rfl, hgap, hstart, hbase⟩ := h.rebase
  have hrun : Lexed _ _ _ _ ((t :: ts) ++ q :: back) := hbase
  obtain ⟨A, F, rfl, hF, -⟩ := split hrun (by simp)
  generalize (t :: ts).getLast?.elim [] Token.trailing = after at hF
  obtain ⟨S, rfl, -, hstop, hS⟩ := hF.rebase
  refine ⟨A ++ Trivia.chars after, S, ?_, ?_, ?_, ?_, _, hS⟩
  · rw [List.append_assoc]
  · rwa [List.append_assoc]
  · rwa [Trivia.byteLength_chars]
  · rwa [byteLength_append, Trivia.byteLength_chars, ← Nat.add_assoc]

/-- **Tokens stay as they are when the text behind them changes at a seam**, if they do not end in a
lone slash. -/
theorem behind_word (h : Lexed pos b behind cs (front ++ p :: back)) (hback : back ≠ [])
    (hp : p.isMark "/" = false) :
    ∃ A F, cs = A ++ F ∧ pos + byteLength A = p.stop ∧ Lexed p.stop false p.trailing F back ∧
      ∀ F' out, Cut F F' → reading false F' = some out →
        reading b (A ++ F') = some (lexemes behind (front ++ [p]) ++ out) := by
  obtain ⟨A, P, rfl, hP, hread⟩ := h.split (by simp)
  obtain ⟨c, w, F, rfl, htext, hoffset, hgap, hword, hF⟩ := hP.uncons hback
  generalize hbehind : front.getLast?.elim behind Token.trailing = behind'
    at hoffset hgap hword hread
  generalize (front.isEmpty && b) = b' at hgap hword hread
  refine ⟨A ++ (Trivia.chars (behind' ++ p.leading) ++ (c :: w)), F, by simp, ?_, hF, ?_⟩
  · rw [byteLength_append, byteLength_append, Trivia.byteLength_chars, Token.stop, hoffset,
      ← byteLength_toList, htext, Nat.add_assoc, Nat.add_assoc]
  · intro F' out hcut hF'
    -- only a lone slash could run on into the other text
    have hslash : c :: w ≠ ['/'] := by
      intro heq
      obtain ⟨rfl, rfl⟩ := List.cons.inj heq
      have hslash : p.text = "/" := String.toList_inj.mp htext
      rw [Token.isMark, hword.kind_of_slash, hslash] at hp
      exact absurd hp (by decide)
    have hword' := hword.cut hcut hslash
    have hagree : Agree (Trivia.chars (behind' ++ p.leading) ++ (c :: (w ++ F)))
        (Trivia.chars (behind' ++ p.leading) ++ (c :: (w ++ F'))) :=
      (Agree.of_cut_cons hcut c w).append _
    have hlexemes : lexemes behind (front ++ [p]) =
        lexemes behind front ++ (remarks (behind' ++ p.leading) ++ [.word p.kind p.text]) := by
      rw [lexemes_append, hbehind]
      rfl
    have htext' : String.ofList (c :: w) = p.text := by rw [← htext, String.ofList_toList]
    have hcs : A ++ (Trivia.chars (behind' ++ p.leading) ++ (c :: w)) ++ F' =
        A ++ (Trivia.chars (behind' ++ p.leading) ++ (c :: (w ++ F'))) := by simp
    have hhalts : Halts (c :: (w ++ F)) → Halts (c :: (w ++ F')) := id
    rw [hcs, hread _ hagree, reading_gap hgap hhalts, reading_word hword', hF', hlexemes, htext']
    simp

end Lexed

/-! ## Texts without some spans

Several parts are removed at once.  What the text says then is found from the front to the back, by
the parts that stay and go. -/

/-- The word that a token is. -/
def Token.word (t : Token) : TokenKind × String := (t.kind, t.text)

/-- The edits that delete some spans. -/
def erasing (spans : List Span) : List TextEdit := spans.map fun s => ⟨s, ""⟩

/-- Two deletions with something between them that stays. -/
theorem splices_two {start start' stop stop' : Nat} {keep gone keep' gone' : List Char}
    (rest : List Char) (hstart : pos + byteLength keep = start)
    (hstop : start + byteLength gone = stop) (hstart' : stop + byteLength keep' = start')
    (hstop' : start' + byteLength gone' = stop') :
    Splices pos (keep ++ (gone ++ (keep' ++ (gone' ++ rest))))
      (erasing [⟨start, stop⟩, ⟨start', stop'⟩]) (keep ++ (keep' ++ rest)) := by
  subst hstart hstop hstart' hstop'
  exact .cons pos keep gone _ _ "" _ (.cons _ keep' gone' rest rest "" [] (.nil _ _))

/-- A text that starts at an offset says some words when some spans of it are deleted. -/
def SaysWithout (b : Bool) (pos : Nat) (cs : List Char) (spans : List Span)
    (ws : List (TokenKind × String)) : Prop :=
  ∃ rest out, Splices pos cs (erasing spans) rest ∧ reading b rest = some out ∧
    out.filterMap Lexeme.word? = ws

/-- The trivia in front of which a token stands was cut off, or it is that behind another token. -/
def Opens (b : Bool) (behind : List Trivia) (t : Token) : Prop :=
  behind = [] ∨ b = false ∧ (t.leading = [] ∨ EndsLine behind)

namespace Lexed

variable {spans : List Span} {ws : List (TokenKind × String)}

/-- Tokens from which nothing goes. -/
theorem saysWithout_nil (h : Lexed pos b behind cs ts) :
    SaysWithout b pos cs [] (ts.map Token.word) :=
  ⟨cs, _, .nil pos cs, h.reading_eq, filterMap_word?_lexemes behind ts⟩

/-- No line ends in front of a token that has no trivia in front of it. -/
theorem not_halts (h : Lexed pos b behind (Trivia.chars behind ++ x) (t :: ts)) (hts : ts ≠ [])
    (ht : t.leading = []) : ¬ Halts x := by
  obtain ⟨c, w, rest, hcs, -, -, -, hword, -⟩ := h.uncons hts
  rw [ht, List.append_nil] at hcs
  obtain rfl := List.append_cancel_left hcs
  intro hhalts
  have hline := hhalts c rfl
  rw [hword.lineBreak] at hline
  cases hline

/-- A token that nothing in front of it keeps at the start of a line may stand in the middle of
one. -/
theorem of_opens (h : Lexed pos b behind cs (t :: ts)) (hopens : Opens b behind t)
    (ht : b = true → Undirected t.leading) : Lexed pos false behind cs (t :: ts) := by
  cases b with
  | false => exact h
  | true =>
    rcases hopens with rfl | ⟨hb, -⟩
    · exact h.of_undirected (ht rfl)
    · cases hb

/-- A run of tokens goes, and what stands behind it comes behind what stood in front. -/
theorem exists_without_run (h : Lexed pos b behind cs (t :: ts ++ q :: back))
    (hopens : Opens b behind t) :
    ∃ b' S, Lexed q.fullStart b' [] S (q :: back) ∧
      (∀ edits rest, Splices q.fullStart S edits rest →
        Splices pos cs (⟨⟨t.fullStart, q.fullStart⟩, ""⟩ :: edits) (Trivia.chars behind ++ rest)) ∧
      ∀ rest out, reading false rest = some out →
        reading false (Trivia.chars behind ++ rest) = some (remarks behind ++ out) := by
  obtain ⟨run, S, rfl, hgap, hstart, hstop, b', hS⟩ := h.exists_run
  refine ⟨b', S, hS, fun edits rest hsplices => ?_, fun rest out hread => ?_⟩
  · generalize t.fullStart = start at hstart hstop ⊢
    generalize q.fullStart = stop at hstop hsplices ⊢
    subst hstart hstop
    exact (hsplices.replace "").keep
  · rcases hopens with rfl | ⟨rfl, ht | hends⟩
    · exact hread
    · exact reading_behind hgap (.inr (not_halts h (by simp) ht)) hread
    · exact reading_behind hgap (.inl hends) hread

/-- **A run of tokens goes.** -/
theorem saysWithout_run (h : Lexed pos b behind cs (t :: ts ++ q :: back))
    (hopens : Opens b behind t)
    (hrest : ∀ b' S, Lexed q.fullStart b' [] S (q :: back) →
      SaysWithout false q.fullStart S spans ws) :
    SaysWithout false pos cs (⟨t.fullStart, q.fullStart⟩ :: spans) ws := by
  obtain ⟨b', S, hS, hedits, hsaid⟩ := h.exists_without_run hopens
  obtain ⟨rest, out, hsplices, hread, hwords⟩ := hrest b' S hS
  refine ⟨Trivia.chars behind ++ rest, _, hedits _ _ hsplices, hsaid _ _ hread, ?_⟩
  rw [List.filterMap_append, filterMap_word?_remarks, hwords, List.nil_append]

/-- **Tokens through a mark that nothing carries on stay**, whatever goes behind it. -/
theorem saysWithout_mark (h : Lexed pos b behind cs (front ++ p :: back)) (hback : back ≠ [])
    (hp : p.text ∈ openMarks) (hcolon : p.text ≠ ":")
    (hrest : ∀ pos' F, Lexed pos' false p.trailing F back → SaysWithout false pos' F spans ws) :
    SaysWithout b pos cs spans ((front ++ [p]).map Token.word ++ ws) := by
  obtain ⟨A, F, rfl, hF, hread⟩ := h.behind_mark hback hp
  obtain ⟨rest, out, hsplices, hrest, hwords⟩ := hrest _ F hF
  refine ⟨A ++ rest, _, hsplices.keep, hread rest out hrest fun hp => absurd hp hcolon, ?_⟩
  rw [List.filterMap_append, filterMap_word?_lexemes, hwords]
  rfl

end Lexed

/-! ## Items and commas

In a list an item goes with its comma, so the text goes on as it would have behind the comma in
front. -/

/-- An item of a list with the comma behind it. -/
structure Entry where
  /-- The item goes. -/
  removed : Bool
  first : Token
  more : List Token
  comma : Token

namespace Entry

def tokens (e : Entry) : List Token := e.first :: e.more ++ [e.comma]

/-- What goes with the item. -/
def span? (e : Entry) : Option Span :=
  if e.removed then some ⟨e.first.fullStart, e.comma.fullStop⟩ else none

/-- What stays of the item. -/
def kept (e : Entry) : List Token := if e.removed then [] else e.tokens

/-- What comes first of some items and what stands behind them has no directive in front of it, if
it stays. -/
def Clear (last : Token) : List Entry → Prop
  | [] => Undirected last.leading
  | e :: _ => e.removed = false → Undirected e.first.leading

end Entry

namespace Lexed

variable {spans : List Span} {ws : List (TokenKind × String)}

/-- **Items go with their commas from the front of a list.**  By recursion along the items: an item
that stays leaves everything behind its comma as it is, and one that goes brings what stands behind
its comma next to what stands in front of it. -/
theorem saysWithout_entries {last : Token} {entries : List Entry}
    (hrest : ∀ {pos behind cs}, Lexed pos false behind cs (last :: back) → Opens false behind last →
      SaysWithout false pos cs spans ws)
    (hcommas : ∀ e ∈ entries, e.comma.text = ",")
    (hdivided : (entries.flatMap Entry.tokens ++ last :: back).IsChain Divided)
    (hclear : ∀ i e, entries[i]? = some e → e.removed = true →
      Entry.Clear last (entries.drop (i + 1)))
    (h : Lexed pos b behind cs (entries.flatMap Entry.tokens ++ last :: back))
    (hopens : ∀ t ∈ (entries.flatMap Entry.tokens ++ last :: back).head?, Opens b behind t)
    (hnow : b = true → Entry.Clear last entries) :
    SaysWithout false pos cs (entries.filterMap Entry.span? ++ spans)
      ((entries.flatMap Entry.kept).map Token.word ++ ws) := by
  induction entries generalizing pos b behind cs with
  | nil =>
    have hlast := hopens last rfl
    exact hrest (of_opens h hlast hnow) (hlast.imp_right fun hb => ⟨rfl, hb.2⟩)
  | cons e rest ih =>
    obtain ⟨hcomma, hcommas⟩ := List.forall_mem_cons.mp hcommas
    have hclear' : ∀ i e', rest[i]? = some e' → e'.removed = true →
        Entry.Clear last (rest.drop (i + 1)) := fun i e' => hclear (i + 1) e'
    obtain ⟨q, qs, hq⟩ : ∃ q qs, rest.flatMap Entry.tokens ++ last :: back = q :: qs :=
      List.exists_cons_of_ne_nil (by simp)
    have htokens : (e :: rest).flatMap Entry.tokens ++ last :: back =
        (e.first :: e.more) ++ e.comma :: q :: qs := by
      simp [Entry.tokens, hq]
    rw [htokens] at h hopens hdivided
    obtain ⟨hnext, htail⟩ := List.isChain_cons_cons.mp hdivided.right_of_append
    rw [hq] at ih
    cases hremoved : e.removed with
    -- An item that stays, and its comma: behind that one the next item is read as before.
    | false =>
      have hspan : (e :: rest).filterMap Entry.span? = rest.filterMap Entry.span? := by
        simp [Entry.span?, hremoved]
      have hkept : ((e :: rest).flatMap Entry.kept).map Token.word ++ ws =
          (e.first :: e.more ++ [e.comma]).map Token.word ++
            ((rest.flatMap Entry.kept).map Token.word ++ ws) := by
        simp [Entry.kept, Entry.tokens, hremoved]
      have hmiddle := of_opens h (hopens e.first rfl) fun hb => hnow hb hremoved
      rw [hspan, hkept]
      have hopen : e.comma.text ∈ openMarks ∧ e.comma.text ≠ ":" := by
        rw [hcomma]
        decide
      refine saysWithout_mark hmiddle (by simp) hopen.1 hopen.2 fun pos' F hF => ?_
      refine ih hcommas htail hclear' hF (fun t ht => ?_) nofun
      obtain rfl : q = t := Option.some.inj ht
      exact .inr ⟨rfl, hnext⟩
    -- An item that goes with its comma: the next one comes to stand where it stood.
    | true =>
      have hspan : (e :: rest).filterMap Entry.span? ++ spans =
          ⟨e.first.fullStart, q.fullStart⟩ :: (rest.filterMap Entry.span? ++ spans) := by
        rw [← fullStop_eq h]
        simp [Entry.span?, hremoved]
      have hkept : (e :: rest).flatMap Entry.kept = rest.flatMap Entry.kept := by
        simp [Entry.kept, hremoved]
      have hrun : Lexed pos b behind cs (e.first :: (e.more ++ [e.comma]) ++ q :: qs) := by
        simpa using h
      rw [hspan, hkept]
      refine saysWithout_run hrun (hopens e.first rfl) fun b' S hS => ?_
      exact ih hcommas htail hclear' hS (fun _ _ => .inl rfl) fun _ => hclear 0 e rfl hremoved

/-! ## The end of a list

The last item has no comma of its own and goes with the one in front of it. -/

/-- Tokens up to a comma or a closing parenthesis start at a seam. -/
theorem seam (h : Lexed pos false behind cs (t :: ts)) (hts : ts ≠ [])
    (ht : t.text = "," ∨ t.text = ")") : Seam cs ∧ cs.head? ≠ some ':' := by
  obtain ⟨c, w, rest, rfl, htext, -, hgap, -, -⟩ := h.uncons hts
  have hc : c ∈ seamChars ∧ c ≠ ':' := by
    rcases ht with ht | ht
    all_goals
      rw [ht] at htext
      obtain ⟨rfl, -⟩ := List.cons.inj htext
      decide
  refine hgap.seam (fun d hd => ?_) fun hd => hc.2 (Option.some.inj hd)
  obtain rfl : c = d := Option.some.inj hd
  exact hc.1

/-- **Tokens through a word stay**, when behind it the text changes at a seam. -/
theorem saysWithout_word (h : Lexed pos b behind cs (front ++ p :: back)) (hback : back ≠ [])
    (hp : p.isMark "/" = false)
    (hrest : ∀ F, Lexed p.stop false p.trailing F back → ∃ rest out,
      Splices p.stop F (erasing spans) rest ∧ Cut F rest ∧ reading false rest = some out ∧
        out.filterMap Lexeme.word? = ws) :
    SaysWithout b pos cs spans ((front ++ [p]).map Token.word ++ ws) := by
  obtain ⟨A, F, rfl, hstop, hF, hread⟩ := h.behind_word hback hp
  obtain ⟨rest, out, hsplices, hcut, hrest, hwords⟩ := hrest F hF
  rw [← hstop] at hsplices
  refine ⟨A ++ rest, _, hsplices.keep, hread rest out hcut hrest, ?_⟩
  rw [List.filterMap_append, filterMap_word?_lexemes, hwords]
  rfl

/-- **The items at the end of a list go with the comma in front of them** and all trivia between
that comma and the closing bracket. -/
theorem exists_cropped (h : Lexed pos false behind cs (t :: ts ++ q :: back)) (hback : back ≠ [])
    (ht : t.text = ",") (hq : q.text = ")") (hdivided : t.leading = [] ∨ EndsLine behind)
    (hclear : Undirected q.leading) :
    ∃ rest out, Splices pos cs (erasing [⟨t.fullStart, q.fullStart⟩]) rest ∧ Cut cs rest ∧
      reading false rest = some out ∧ out.filterMap Lexeme.word? = (q :: back).map Token.word := by
  obtain ⟨b', S, hS, hedits, hsaid⟩ := h.exists_without_run (.inr ⟨rfl, hdivided⟩)
  have hclose := hS.of_undirected hclear
  obtain ⟨hold, hcolon⟩ := h.seam (by simp) (.inl ht)
  obtain ⟨_, -, hbehind, -⟩ := h.rebase
  have hseam := hclose.seam hback (.inr hq)
  obtain ⟨hnew, hcolon'⟩ := hbehind.seam hseam.1 hseam.2
  refine ⟨Trivia.chars behind ++ S, _, hedits _ _ (.nil _ S),
    ⟨hold, hnew, iff_of_false hcolon hcolon'⟩, hsaid S _ hclose.reading_eq, ?_⟩
  · rw [List.filterMap_append, filterMap_word?_remarks, filterMap_word?_lexemes, List.nil_append]
    rfl

/-- **The items at the end of a list go with the comma in front of them**, and what stands behind
that comma on its line stays. -/
theorem exists_cropped_comment (h : Lexed pos false behind cs (t :: p :: ts ++ q :: back))
    (hback : back ≠ []) (ht : t.text = ",") (hq : q.text = ")") (hdivided : Divided t p) :
    ∃ rest out, Splices pos cs (erasing [t.span, ⟨t.fullStop, q.offset⟩]) rest ∧ Cut cs rest ∧
      reading false rest = some out ∧ out.filterMap Lexeme.word? = (q :: back).map Token.word := by
  have hchars : ∀ {m : Char} {d : Char} {v : List Char}, (String.singleton m).toList = d :: v →
      d = m ∧ v = [] := by
    intro m d v heq
    rw [String.toList_singleton] at heq
    exact ⟨(List.cons.inj heq).1.symm, (List.cons.inj heq).2.symm⟩
  obtain ⟨hold, hcolon⟩ := h.seam (by simp) (.inl ht)
  obtain ⟨c, w, F, rfl, htext, hoffset, hgap, -, hF⟩ := h.uncons (by simp)
  obtain ⟨rfl, rfl⟩ := hchars (m := ',') (ht ▸ htext)
  obtain ⟨run, S, rfl, hbehind, hstart, hstop, b', hS⟩ := exists_run hF
  obtain ⟨d, v, G, hclosing, htext', hoffset', -, hword, hG⟩ := hS.uncons hback
  obtain ⟨rfl, rfl⟩ := hchars (m := ')') (hq ▸ htext')
  have hmiddle : Word false ')' [] q.kind G := hword.of_lineStart nofun
  have hclose : reading false (')' :: G) =
      some (.word q.kind q.text :: lexemes q.trailing back) := by
    have hread := reading_word hmiddle
    rw [hG.reading_eq, ← htext', String.ofList_toList] at hread
    exact hread
  -- the trivia behind the comma, and what stands in front of the comma
  have hopen : EndsLine t.trailing ∨ ¬ Halts (run ++ S) := by
    rcases hdivided with hp | hends
    · exact .inr (not_halts hF (by simp) hp)
    · exact .inl hends
  have hcomma : ∀ z, ¬ Halts (',' :: z) := by
    intro z hhalts
    have hline := hhalts ',' rfl
    cases hline
  have hrest := reading_behind hbehind hopen hclose
  have hsaid := reading_behind hgap (.inr (hcomma _)) hrest
  have hseam := hbehind.seam (y := ')' :: G) (fun d hd => Option.some.inj hd ▸ by decide) nofun
  have hnew := hgap.seam hseam.1 hseam.2
  refine ⟨_, _, ?_, ⟨hold, hnew.1, iff_of_false hcolon hnew.2⟩, hsaid, ?_⟩
  · have hstopComma : t.offset + byteLength [','] = t.stop := by
      rw [Token.stop, ht]
      rfl
    have hfullStop : t.stop + byteLength (Trivia.chars t.trailing) = t.fullStop := by
      rw [Trivia.byteLength_chars]
      rfl
    have hgone : t.fullStop + byteLength (run ++ Trivia.chars q.leading) = q.offset := by
      rw [← hfullStop, hstart, byteLength_append, Trivia.byteLength_chars, hoffset', ← hstop,
        Nat.add_assoc]
      rfl
    rw [← Trivia.byteLength_chars] at hoffset
    have htwo := splices_two (')' :: G) hoffset.symm hstopComma hfullStop hgone
    rw [List.append_assoc] at htwo
    rw [hclosing]
    exact htwo
  · rw [List.filterMap_append, List.filterMap_append, filterMap_word?_remarks,
      filterMap_word?_remarks]
    exact congrArg (_ :: ·) (filterMap_word?_lexemes _ _)

end Lexed

end CodeMend
