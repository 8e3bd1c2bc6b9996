import CodeMend.Proofs.Token.Remarks

/-!
# CodeMend — how trivia is split between tokens

What stands between two tokens belongs to the first one up to the end of its line, and to the second
one from there on.  Both parts together are read by one rule, which a flag for the start of a line
goes through: blanks leave it as it is, a line break sets it, and anything else takes it away.

* **`gapBefore`** — all trivia in front of a token.
* **`OrderedGap`** — the order in which its pieces stand.
* **`exists_of_lineStart`** — a line starts behind a line break and blanks, and nowhere else.
* **`Gap.ordered`** — what is scanned piece by piece stands in order.
* **`trivia_is_split_at_lines`** — the trivia of every source.
-/

namespace CodeMend

open Lexer

variable {b : Bool} {x : List Char} {gap : List Trivia}

/-- The trivia between a token and the one before it. -/
def gapBefore (front : List Token) (t : Token) : List Trivia :=
  front.getLast?.elim [] Token.trailing ++ t.leading

/-- How the pieces of a gap follow each other.  `first` says that nothing stands in front of the
gap, `last` that nothing stands behind it. -/
structure OrderedGap (first last : Prop) (gap : List Trivia) : Prop where
  /-- Blanks that touch are one piece. -/
  blanks : gap.IsChain fun p q => p.isWhitespace = true → q.isWhitespace = false
  /-- What goes on to the end of its line has the line break behind it, or nothing. -/
  lines : ∀ ⦃front p back⦄, gap = front ++ p :: back → p.fillsLine = true →
    (∃ q ∈ back.head?, q.isEndOfLine = true) ∨ back = [] ∧ last
  /-- In front of a directive its line has only blanks. -/
  directives : ∀ ⦃front p back⦄, gap = front ++ p :: back → p.kind = .directive →
    ∃ head blanks, front = head ++ blanks ∧ (∀ q ∈ blanks, q.isWhitespace = true) ∧
      (head = [] ∧ first ∨ ∃ q ∈ head.getLast?, q.isEndOfLine = true)

theorem OrderedGap.mono {first last first' last' : Prop} (h : OrderedGap first last gap)
    (hfirst : first → first') (hlast : last → last') : OrderedGap first' last' gap where
  blanks := h.blanks
  lines _ _ _ heq hp := (h.lines heq hp).imp_right (.imp_right hlast)
  directives _ _ _ heq hp := by
    obtain ⟨head, blanks, hfront, hblanks, hhead⟩ := h.directives heq hp
    exact ⟨head, blanks, hfront, hblanks, hhead.imp_left (.imp_right hfirst)⟩

/-! ## The pieces of a gap

Which piece comes next is decided by its first character and by whether a line starts. -/

/-- A line starts behind blanks that follow a line break, or with which the text starts. -/
theorem exists_of_lineStart (h : lineStart b gap = true) :
    ∃ head blanks, gap = head ++ blanks ∧ (∀ q ∈ blanks, q.isWhitespace = true) ∧
      (head = [] ∧ b = true ∨ ∃ q ∈ head.getLast?, q.isEndOfLine = true) := by
  induction gap using List.reverseRecOn with
  | nil => exact ⟨[], [], rfl, by simp, .inl ⟨rfl, h⟩⟩
  | append_singleton ps p ih =>
    rw [lineStart, List.foldl_append] at h
    change startsLine (lineStart b ps) p.kind = true at h
    cases hp : p.kind with
    | endOfLine =>
      exact ⟨ps ++ [p], [], by simp, by simp, .inr ⟨p, by simp, by simp [Trivia.isEndOfLine, hp]⟩⟩
    | whitespace =>
      rw [hp] at h
      obtain ⟨head, blanks, rfl, hblanks, hhead⟩ := ih h
      refine ⟨head, blanks ++ [p], by simp, fun q hq => ?_, hhead⟩
      rcases List.mem_append.mp hq with hq | hq
      · exact hblanks q hq
      · rw [List.mem_singleton.mp hq]
        simp [Trivia.isWhitespace, hp]
    | singleLineComment | multiLineComment | directive =>
      rw [hp] at h
      cases h

namespace Gap

variable {front back : List Trivia} {p : Trivia}

/-- A piece of a gap is scanned behind the pieces in front of it. -/
theorem exists_scan (h : Gap b (front ++ p :: back) x) :
    ∃ c w, p.text.toList = c :: w ∧
      scanLeading (lineStart b front) c (w ++ (Trivia.chars back ++ x)) =
        some (p.kind, w.length) ∧
      Gap (startsLine (lineStart b front) p.kind) back x := by
  induction front generalizing b with
  | nil =>
    obtain ⟨⟨c, w, htext, hscan⟩, hback⟩ := h
    exact ⟨c, w, htext, hscan, hback⟩
  | cons q front ih => exact ih h.2

/-- A piece that starts with a line break is one. -/
theorem isEndOfLine_of_halts (h : Gap b (p :: back) x)
    (hhalts : Halts (Trivia.chars (p :: back) ++ x)) : p.isEndOfLine = true := by
  obtain ⟨⟨c, w, htext, hscan⟩, -⟩ := h
  rw [Trivia.chars_cons, htext] at hhalts
  rw [scanLeading_of_isLineBreak b (hhalts c rfl)] at hscan
  have hkind := (Prod.mk.inj (Option.some.inj hscan)).1
  simp [Trivia.isEndOfLine, ← hkind]

/-- Blanks are scanned as far as they go. -/
theorem not_isWhitespace_of_isWhitespace {q : Trivia} (h : Gap b (p :: q :: back) x)
    (hp : p.isWhitespace = true) : q.isWhitespace = false := by
  obtain ⟨⟨c, w, -, hscan⟩, ⟨d, v, htext, hscan'⟩, -⟩ := h
  rw [Trivia.isWhitespace, beq_iff_eq] at hp
  rw [hp] at hscan
  by_contra hq
  have hq : q.kind = .whitespace := by simpa [Trivia.isWhitespace] using hq
  have hd : isSpace d = true := (forall_of_scanLeading hscan').1 hq d List.mem_cons_self
  rcases cases_of_scanLeading hscan with ⟨hk, -⟩ | ⟨-, -, hn⟩ | ⟨hk, -⟩ | ⟨hk, -⟩ | ⟨hk, -⟩
  · cases hk
  · have hzero := (countWhile_append_eq_length_iff.mp hn.symm).2
    rw [Trivia.chars_cons, htext, List.cons_append, List.cons_append, Literal.countWhile,
      if_pos hd] at hzero
    cases hzero
  · cases hk
  · cases hk
  · cases hk

/-- **What is scanned piece by piece stands in order.** -/
theorem ordered (h : Gap b gap x) : OrderedGap (b = true) (Halts x) gap where
  blanks := by
    induction gap generalizing b with
    | nil => exact .nil
    | cons p ps ih =>
      cases ps with
      | nil => exact .singleton p
      | cons q ps =>
        exact .cons_cons (fun hp => not_isWhitespace_of_isWhitespace h hp) (ih h.2)
  lines := by
    rintro front p back rfl hp
    obtain ⟨c, w, -, hscan, hback⟩ := h.exists_scan
    have hhalts := halts_of_scanLeading hscan hp
    cases back with
    | nil => exact .inr ⟨rfl, hhalts⟩
    | cons q back => exact .inl ⟨q, rfl, hback.isEndOfLine_of_halts hhalts⟩
  directives := by
    rintro front p back rfl hp
    obtain ⟨c, w, -, hscan, -⟩ := h.exists_scan
    rw [hp] at hscan
    refine exists_of_lineStart ?_
    rcases cases_of_scanLeading hscan with ⟨-, hstart, -⟩ | ⟨hk, -⟩ | ⟨hk, -⟩ | ⟨hk, -⟩ | ⟨hk, -⟩
    · exact (Bool.and_eq_true_iff.mp hstart).1
    all_goals cases hk

end Gap

/-! ## The trivia behind a token

The scan behind a token stops at the first line break, so no directive is found there. -/

namespace Lexer

/-- Behind a token no directive is found, and no piece behind a line break. -/
theorem of_mem_trailing {cs : List Char} {front back : List Trivia} {p : Trivia}
    (h : (trailing cs).1 = front ++ p :: back) :
    p.kind ≠ .directive ∧ (p.isEndOfLine = true → back = []) := by
  have hkind : ∀ {c cs k n}, scanTrivia c cs = some (k, n) → k ≠ .directive := by
    rintro c cs k n hscan rfl
    rcases cases_of_scanLeading (b := false) (by simpa [scanLeading] using hscan) with
      ⟨-, hstart, -⟩ | ⟨hk, -⟩ | ⟨hk, -⟩ | ⟨hk, -⟩ | ⟨hk, -⟩
    · cases hstart
    all_goals cases hk
  fun_induction trailing cs generalizing front with
  | case1 => simp at h
  | case2 c cs n hscan =>
    obtain ⟨rfl, hrest⟩ | ⟨_, rfl, hrest⟩ := List.cons_eq_append_iff.mp h
    · obtain ⟨rfl, rfl⟩ := List.cons.inj hrest
      exact ⟨hkind hscan, fun _ => rfl⟩
    · simp at hrest
  | case3 c cs kind n hscan piece hne pieces rest heq =>
    rename_i ih
    obtain ⟨rfl, hrest⟩ | ⟨front, rfl, hrest⟩ := List.cons_eq_append_iff.mp h
    · obtain ⟨rfl, rfl⟩ := List.cons.inj hrest
      refine ⟨hkind hscan, fun hline => absurd ?_ hne⟩
      simpa [Trivia.isEndOfLine] using hline
    · rw [heq] at ih
      exact ih hrest
  | case4 => simp at h

/-- The trivia behind a token is scanned as such. -/
theorem exists_trailing_of_tokensFrom {pos : Nat} {cs : List Char} {tokens : List Token}
    (h : tokensFrom pos b cs = .ok tokens) :
    ∀ t ∈ tokens, ∃ rest, t.trailing = (trailing rest).1 := by
  fun_induction tokensFrom pos b cs generalizing tokens with
  | case1 =>
    obtain rfl := Except.ok.inj h
    exact List.forall_mem_singleton.mpr ⟨[], by simp [trailing]⟩
  | case2 => cases h
  | case3 => cases h
  | case4 => cases h
  | case5 pos b cs before c rest hlead offset hclosed kind n hscan text after remaining htrail tail
      htail =>
    rename_i ih
    obtain rfl := Except.ok.inj h
    exact List.forall_mem_cons.mpr ⟨⟨rest.drop n, by rw [htrail]⟩, ih htail⟩

end Lexer

/-! ## The trivia of a source

What holds of one token holds along all tokens of a source. -/

/-- The gap in front of the first of some tokens. -/
theorem Lexed.ordered {pos : Nat} {behind : List Trivia} {cs : List Char} {t : Token}
    {ts : List Token} (h : Lexed pos b behind cs (t :: ts)) :
    OrderedGap (b = true) (t.kind = .endOfFile) (behind ++ t.leading) ∧
      (t.kind = .endOfFile → ts = [] ∧ cs = Trivia.chars (behind ++ t.leading)) := by
  cases h with
  | last _ _ _ before hgap => exact ⟨hgap.ordered.mono id fun _ => rfl, fun _ => ⟨rfl, rfl⟩⟩
  | more _ _ _ before after c w kind rest _ hgap hword _ =>
    have hkind : kind ≠ .endOfFile := ne_endOfFile_of_scanToken hword.scan
    refine ⟨hgap.ordered.mono id fun hhalts => ?_, fun h => absurd h hkind⟩
    have hbreak := hhalts c rfl
    rw [hword.lineBreak] at hbreak
    cases hbreak

/-- **Trivia is split between tokens at the ends of lines.**

What follows a token on its line belongs to it, with the line break as the last piece and without
directives.  In all that stands between two tokens, blanks that touch are one piece, a line comment
and a directive have their line break behind them, unless they are the end of the source, and a
directive has nothing but blanks in front of it on its line. -/
theorem trivia_is_split_at_lines {source : String} {tokens : List Token}
    (h : tokenize source = .ok tokens) :
    (∀ t ∈ tokens, ∀ front p back, t.trailing = front ++ p :: back →
      p.kind ≠ .directive ∧ (p.isEndOfLine = true → back = [])) ∧
    ∀ front t back, tokens = front ++ t :: back →
      OrderedGap (front = []) (t.kind = .endOfFile) (gapBefore front t) ∧
      (t.kind = .endOfFile → back = [] ∧ Trivia.chars (gapBefore front t) <:+ source.toList) := by
  constructor
  · intro t ht front p back htrail
    obtain ⟨rest, hrest⟩ := exists_trailing_of_tokensFrom h t ht
    exact of_mem_trailing (hrest ▸ htrail)
  · rintro front t back rfl
    obtain ⟨A, F, hsource, hF, -⟩ := (lexed_of_tokenize h).split (List.cons_ne_nil t back)
    obtain ⟨hordered, hend⟩ := hF.ordered
    refine ⟨hordered.mono (fun hfirst => ?_) id, fun hkind => ⟨(hend hkind).1, ?_⟩⟩
    · simpa using hfirst
    · rw [hsource, (hend hkind).2]
      exact List.suffix_append _ _

/-- Between `a` and the end of this source stand a comment, its line break and a directive with a
blank in front, which goes on to the end. -/
theorem trivia_is_split_at_lines_conditional :
    let source := "#if C\na // b\r\n\t#endif"
    let a : Token := ⟨.identifier, "a", 6, [⟨.directive, "#if C"⟩, ⟨.endOfLine, "\n"⟩],
      [⟨.whitespace, " "⟩, ⟨.singleLineComment, "// b"⟩, ⟨.endOfLine, "\r\n"⟩]⟩
    let last : Token := ⟨.endOfFile, "", 21, [⟨.whitespace, "\t"⟩, ⟨.directive, "#endif"⟩], []⟩
    tokenize source = .ok [a, last] ∧ OrderedGap True False (gapBefore [] a) ∧
      OrderedGap False True (gapBefore [a] last) ∧
      Trivia.chars (gapBefore [a] last) <:+ source.toList := by
  intro source a last
  have hsome : (tokenize source).toOption = some [a, last] := by decide +kernel
  cases h : tokenize source with
  | error e =>
    rw [h] at hsome
    cases hsome
  | ok tokens =>
    rw [h] at hsome
    obtain rfl : tokens = [a, last] := Option.some.inj hsome
    have hgaps := (trivia_is_split_at_lines h).2
    obtain ⟨hfirst, -⟩ := hgaps [] a [last] rfl
    obtain ⟨hlast, hend⟩ := hgaps [a] last [] rfl
    exact ⟨rfl, hfirst.mono (fun _ => trivial) (by simp [a]),
      hlast.mono (by simp) (fun _ => trivial), (hend rfl).2⟩

end CodeMend
