import CodeMend.Proofs.Token.Runs
import CodeMend.Proofs.Token.Tidying

/-!
# CodeMend — what blanks are tidied to, run by run

What takes the place of a run of blanks depends on the run in front of it, on the run behind it and
on the run itself.  The walks over the tokens of a source and over the trivia between them come to
the same as one walk over the runs of its text.

* **`Place`** — a run with its neighbours; **`Place.tidied?`** — what blanks are tidied to.
* **`exists_filterMap_places_piece`** — what is read off the runs of a piece of trivia.
* **`Lexed.edits_eq`** — the edits that tidy a source; by induction on the pieces of a gap, and on
  the tokens.
* **`Lexed.blanks_eq`** — the runs of blanks are the pieces of trivia that are made of blanks.
-/

namespace CodeMend

open Lexer Literal

/-- A run of a text with the runs in front of it and behind it. -/
structure Place where
  before : Option (List Char)
  start : Nat
  run : List Char
  after : Option (List Char)

/-- The runs with their places, the first of which starts at `start` behind `before`. -/
def places : Option (List Char) → Nat → List (List Char) → List Place
  | _, _, [] => []
  | before, start, run :: rest =>
    ⟨before, start, run, rest.head?⟩ :: places (some run) (start + byteLength run) rest

namespace Place

def span (p : Place) : Span := ⟨p.start, p.start + byteLength p.run⟩

/-- What to put in the place of blanks: none to leave them alone. -/
def tidied? (p : Place) : Option (List Char) :=
  if p.after.all breaksLine then some []
  else if (p.before.bind List.getLast?).all isLineBreak then none
  else if p.before = some ['('] ∨ p.after = some [')'] then some []
  else if p.run ≠ [' '] then some [' ']
  else none

/-- What takes the place of the run when the blanks that meet a region are tidied. -/
def change? (regions : List Span) (p : Place) : Option (List Char) :=
  if isBlankRun p.run && Layout.touchesAny p.span regions then p.tidied? else none

def edit? (regions : List Span) (p : Place) : Option TextEdit :=
  (p.change? regions).map fun text => ⟨p.span, String.ofList text⟩

/-- What stands there afterwards. -/
def result (regions : List Span) (p : Place) : List Char := (p.change? regions).getD p.run

/-- The span and the characters of blanks. -/
def blanks? (p : Place) : Option (Span × List Char) :=
  if isBlankRun p.run then some (p.span, p.run) else none

end Place

variable {α : Type} {b : Bool} {c : Char} {w x cs : List Char} {n : Nat} {K : List (List Char)}
  {regions : List Span} {before before' : Option (List Char)} {start start' pos : Nat}
  {p q p' : Place} {A B : List Place} {g : Place → Option α}

/-! ## The edits of a source along its runs

The edits of a layout are found along the tokens, and again along the runs of the text.  The second
way does not need tokens and is the one to reason about. -/

/-- What a piece of trivia starts with tells its kind. -/
theorem head_of_scanLeading {k : TriviaKind} (h : scanLeading b c cs = some (k, n)) :
    isLineBreak c = (k == .endOfLine) ∧ isSpace c = (k == .whitespace) ∧ c ≠ '(' ∧ c ≠ ')' := by
  rcases cases_of_scanLeading h with ⟨rfl, hc, -⟩ | ⟨rfl, hc, -⟩ | ⟨rfl, hc, -⟩ | ⟨rfl, rfl, -⟩ |
    ⟨rfl, rfl, -⟩
  · obtain rfl : c = '#' := by simpa using (Bool.and_eq_true_iff.mp hc).2
    decide
  · refine ⟨isLineBreak_eq_false_of_isSpace hc, hc, ?_, ?_⟩ <;> rintro rfl <;> cases hc
  · obtain rfl | rfl : c = '\n' ∨ c = '\r' := by simpa [isLineBreak] using hc
    · decide
    · decide
  · decide
  · decide

/-- Nothing is read off the places of a line break. -/
theorem filterMap_places_lineBreaks (hg : ∀ p, isBlankRun p.run = false → g p = none)
    (hw : ∀ d ∈ w, isLineBreak d = true) (hne : w ≠ []) (before : Option (List Char)) (start : Nat)
    (K : List (List Char)) :
    (places before start ((w.map fun d => [d]) ++ K)).filterMap g =
      (places (some [w.getLast hne]) (start + byteLength w) K).filterMap g := by
  induction w generalizing before start with
  | nil => exact absurd rfl hne
  | cons d w ih =>
    have hd : isSpace d = false := by
      by_contra hspace
      have hline := isLineBreak_eq_false_of_isSpace (by simpa using hspace)
      rw [hw d List.mem_cons_self] at hline
      cases hline
    have hnone : g ⟨before, start, [d], ((w.map fun d => [d]) ++ K).head?⟩ = none := hg _ hd
    rw [List.map_cons, List.cons_append, places, List.filterMap_cons_none hnone]
    by_cases hnil : w = []
    · subst hnil
      rfl
    · rw [ih (fun e he => hw e (List.mem_cons_of_mem _ he)) hnil, List.getLast_cons hnil,
        byteLength_cons, byteLength_cons, byteLength_nil, Nat.add_zero, Nat.add_assoc]

/-- **What is read off the places of a piece of trivia** comes from the blanks if it is made of
blanks.  What stands behind the piece has a run with the same last character in front of it. -/
theorem exists_filterMap_places_piece (hg : ∀ p, isBlankRun p.run = false → g p = none)
    {t : Trivia} (htext : t.text.toList = c :: w)
    (hscan : scanLeading b c (w ++ x) = some (t.kind, w.length)) :
    ∃ last, List.getLast? last = t.text.toList.getLast? ∧ last ≠ ['('] ∧
      ∀ before start K, (places before start (t.runs ++ K)).filterMap g =
        (if t.isWhitespace then (g ⟨before, start, t.text.toList, K.head?⟩).toList else []) ++
          (places (some last) (start + t.text.utf8ByteSize) K).filterMap g := by
  obtain ⟨hline, hspace, hopen, -⟩ := head_of_scanLeading hscan
  have hsize : t.text.utf8ByteSize = byteLength (c :: w) := by
    rw [← byteLength_toList, htext]
  by_cases heol : t.kind = .endOfLine
  · -- a line break is cut into its characters, and the last of these is the last run
    have hbreaks : ∀ d ∈ c :: w, isLineBreak d = true := (forall_of_scanLeading hscan).2 heol
    refine ⟨[(c :: w).getLast nofun], ?_, ?_, fun before start K => ?_⟩
    · rw [htext, List.getLast?_eq_some_getLast (List.cons_ne_nil c w)]
      rfl
    · intro hlast
      have hbreak := hbreaks _ (List.getLast_mem (List.cons_ne_nil c w))
      rw [List.head_eq_of_cons_eq hlast] at hbreak
      cases hbreak
    · rw [Trivia.runs, if_pos heol, htext,
        filterMap_places_lineBreaks hg hbreaks (List.cons_ne_nil c w), hsize,
        if_neg (by simp [Trivia.isWhitespace, heol])]
      rfl
  · refine ⟨c :: w, by rw [htext], fun hlast => hopen (List.cons.inj hlast).1, ?_⟩
    intro before start K
    rw [Trivia.runs, if_neg heol, htext, List.singleton_append, places, hsize]
    cases hblank : t.isWhitespace with
    | false =>
      have hnone : g ⟨before, start, c :: w, K.head?⟩ = none := by
        refine hg _ (Eq.trans ?_ hblank)
        exact hspace
      rw [List.filterMap_cons_none hnone]
      rfl
    | true =>
      rw [if_pos rfl]
      cases hnew : g ⟨before, start, c :: w, K.head?⟩ with
      | none =>
        rw [List.filterMap_cons_none hnew]
        rfl
      | some new =>
        rw [List.filterMap_cons_some hnew]
        rfl

/-- The first run of some trivia. -/
theorem exists_head?_runs {t : Trivia} {ts : List Trivia} (h : Gap b (t :: ts) x) :
    ∃ c v, ((t :: ts).flatMap Trivia.runs ++ K).head? = some (c :: v) ∧
      isLineBreak c = t.isEndOfLine ∧ c ≠ ')' := by
  obtain ⟨⟨c, w, htext, hscan⟩, -⟩ := h
  obtain ⟨hline, -, -, hclose⟩ := head_of_scanLeading hscan
  rw [List.flatMap_cons, Trivia.runs, htext]
  split
  next heol => exact ⟨c, [], rfl, hline, hclose⟩
  next heol => exact ⟨c, w, rfl, hline, hclose⟩

theorem Layout.tidied?_eq_ite (gap : Gap) (first : Bool) (before : Option Char) (text : String)
    (next : Option Trivia) :
    tidied? gap first before text next =
      if next.elim gap.atEndOfFile Trivia.isEndOfLine then some ""
      else if before.all isLineBreak then none
      else if (first && gap.afterOpenParen) || (next.isNone && gap.beforeCloseParen) then some ""
      else if text ≠ " " then some " "
      else none := by
  cases next <;> cases before <;> rfl

/-- **Blanks between two tokens are tidied as their neighbours tell.** -/
theorem tidied?_eq {ts : List Trivia} {gap : Layout.Gap} {first : Bool} {char : Option Char}
    {text : String} (hts : Gap b ts x) (hchar : char = before.bind List.getLast?)
    (hopen : (first && gap.afterOpenParen) = decide (before = some ['(']))
    (hclose : gap.beforeCloseParen = decide (K.head? = some [')']))
    (hend : gap.atEndOfFile = K.head?.all breaksLine) (start : Nat) :
    Layout.tidied? gap first char text ts.head? =
      (Place.tidied? ⟨before, start, text.toList,
        (ts.flatMap Trivia.runs ++ K).head?⟩).map String.ofList := by
  -- what follows is the next piece of the gap, or else what stands behind the gap
  generalize hafter : (ts.flatMap Trivia.runs ++ K).head? = after
  have hnext : ts.head?.elim gap.atEndOfFile Trivia.isEndOfLine = after.all breaksLine ∧
      (ts.head?.isNone && gap.beforeCloseParen) = decide (after = some [')']) := by
    cases ts with
    | nil =>
      obtain rfl : K.head? = after := hafter
      exact ⟨hend, hclose⟩
    | cons t ts =>
      obtain ⟨c, v, hhead, hline, hne⟩ := exists_head?_runs (K := K) hts
      obtain rfl : some (c :: v) = after := hhead.symm.trans hafter
      exact ⟨hline.symm, by simp [hne]⟩
  have htext : text ≠ " " ↔ text.toList ≠ [' '] := by
    rw [ne_eq, ne_eq, ← String.toList_inj]
    rfl
  rw [Layout.tidied?_eq_ite, hnext.1, hnext.2, hchar, hopen]
  unfold Place.tidied?
  simp only [htext, Bool.or_eq_true, decide_eq_true_eq]
  split_ifs <;> rfl

theorem edit?_of_solid (h : isBlankRun p.run = false) (regions : List Span) :
    p.edit? regions = none := by
  rw [Place.edit?, Place.change?, h]
  rfl

theorem blanks?_of_solid (h : isBlankRun p.run = false) : p.blanks? = none := by
  rw [Place.blanks?, h]
  rfl

/-- The edits between two tokens, in front of the runs `K`. -/
theorem gapEdits_eq {pieces : List Trivia} {gap : Layout.Gap} {first : Bool} {offset : Nat}
    {char : Option Char} {E : List TextEdit} (hgap : Gap b pieces x)
    (hclose : gap.beforeCloseParen = decide (K.head? = some [')']))
    (hend : gap.atEndOfFile = K.head?.all breaksLine)
    (htail : ∀ before, (places before (offset + Trivia.width pieces) K).filterMap
      (Place.edit? regions) = E)
    (hchar : char = before.bind List.getLast?)
    (hopen : (first && gap.afterOpenParen) = decide (before = some ['('])) :
    Layout.gapEdits gap regions first offset char pieces ++ E =
      (places before offset (pieces.flatMap Trivia.runs ++ K)).filterMap (Place.edit? regions) := by
  induction pieces generalizing b first offset char before with
  | nil => exact (htail before).symm
  | cons t ts ih =>
    obtain ⟨⟨c, w, htext, hscan⟩, hts⟩ := hgap
    obtain ⟨last, hlast, hne, hplaces⟩ :=
      exists_filterMap_places_piece (fun _ h => edit?_of_solid h regions) htext hscan
    have hwidth : offset + Trivia.width (t :: ts) =
        offset + t.text.utf8ByteSize + Trivia.width ts := (Nat.add_assoc _ _ _).symm
    have hlastChar : Layout.lastChar char t.text = (some last).bind List.getLast? := by
      rw [Layout.lastChar, Option.bind_some, hlast, htext,
        List.getLast?_eq_some_getLast (List.cons_ne_nil c w)]
    -- behind the first piece, no piece is the first one, and no run in front is an opening bracket
    have hrest := ih hts (fun before => hwidth ▸ htail before) hlastChar
      (by simpa using hne : (false && gap.afterOpenParen) = decide (some last = some ['(']))
    rw [List.flatMap_cons, List.append_assoc, hplaces, ← hrest, ← List.append_assoc]
    congr 1
    have hspan : Place.span ⟨before, offset, t.text.toList, (ts.flatMap Trivia.runs ++ K).head?⟩ =
        ⟨offset, offset + t.text.utf8ByteSize⟩ := by
      rw [Place.span, byteLength_toList]
    have hblank : isBlankRun t.text.toList = t.isWhitespace := by
      rw [htext]
      exact (head_of_scanLeading hscan).2.1
    rw [Layout.gapEdits, tidied?_eq hts hchar hopen hclose hend offset, Place.edit?, Place.change?,
      hspan, hblank]
    generalize Place.tidied? _ = new
    cases t.isWhitespace with
    | false => rfl
    | true =>
      cases Layout.touchesAny ⟨offset, offset + t.text.utf8ByteSize⟩ regions with
      | false => rfl
      | true => cases new <;> rfl

theorem lastChar_none (text : String) : Layout.lastChar none text = text.toList.getLast? := by
  unfold Layout.lastChar
  cases text.toList.getLast? <;> rfl

/-- **The edits of some tokens, read off the runs of their text.** -/
theorem Lexed.edits_eq {previous : Option Token} {behind : List Trivia} {tokens : List Token}
    (h : Lexed pos b behind cs tokens) (hpos : (previous.map Token.stop).getD 0 = pos)
    (hbehind : (previous.map Token.trailing).getD [] = behind) :
    Layout.edits regions previous tokens =
      (places (previous.map fun t => t.text.toList) pos (runs b cs)).filterMap
        (Place.edit? regions) := by
  have hchar : ∀ previous : Option Token, (previous.bind fun t => Layout.lastChar none t.text) =
      (previous.map fun t => t.text.toList).bind List.getLast? := by
    intro previous
    cases previous with
    | none => rfl
    | some t => exact lastChar_none t.text
  have hmark : ∀ (m : Char) (text : String),
      (text == String.ofList [m]) = decide (some text.toList = some [m]) := by
    intro m text
    rw [Bool.eq_iff_iff, beq_iff_eq, decide_eq_true_eq, Option.some.injEq, ← String.toList_inj,
      String.toList_ofList]
  have hopen : ∀ previous : Option Token, (true && previous.any fun t => t.text == "(") =
      decide ((previous.map fun t => t.text.toList) = some ['(']) := by
    intro previous
    cases previous with
    | none => rfl
    | some t => exact hmark '(' t.text
  -- The token in front is the neighbour on the left, and the induction carries it along.
  induction h generalizing previous with
  | last pos b behind before hgap =>
    subst hpos hbehind
    have hruns := runs_gap hgap
    rw [List.append_nil, runs_nil] at hruns
    rw [hruns, Layout.edits, Layout.edits]
    exact gapEdits_eq hgap rfl rfl (fun _ => rfl) (hchar previous) (hopen previous)
  | more pos b behind before after c w kind rest tokens hgap hword htail ih =>
    subst hpos hbehind
    have hstop : byteLength (c :: w) = (String.ofList (c :: w)).utf8ByteSize :=
      (utf8ByteSize_ofList _).symm
    have hrest := @ih (some ⟨kind, String.ofList (c :: w), (previous.map Token.stop).getD 0 +
      Trivia.width ((previous.map Token.trailing).getD [] ++ before), before, after⟩)
      (by rw [Option.map_some, Option.getD_some, Token.stop, hstop]) rfl
    rw [runs_gap hgap, runs_word hword, Layout.edits, hrest]
    refine gapEdits_eq hgap ?_ ?_ (fun before => ?_) (hchar previous) (hopen previous)
    · have hclose := hmark ')' (String.ofList (c :: w))
      rw [String.toList_ofList] at hclose
      exact hclose
    · have hkind := ne_endOfFile_of_scanToken hword.scan
      rw [List.head?_cons, Option.all_some, breaksLine_cons, hword.lineBreak]
      exact beq_eq_false_iff_ne.mpr hkind
    · rw [places, List.filterMap_cons_none (edit?_of_solid (p := ⟨_, _, c :: w, _⟩) hword.space _), Option.map_some,
        String.toList_ofList]

/-- The span and the characters of a piece of trivia that is made of blanks. -/
def Trivia.blanks? (p : Span × Trivia) : Option (Span × List Char) :=
  if p.2.isWhitespace then some (p.1, p.2.text.toList) else none

theorem blanks_gap {pieces : List Trivia} {offset : Nat} {S : List (Span × List Char)}
    (hgap : Gap b pieces x) (htail : ∀ before, (places before (offset + Trivia.width pieces) K).filterMap
      Place.blanks? = S) (before : Option (List Char)) :
    (Trivia.placed offset pieces).filterMap Trivia.blanks? ++ S =
      (places before offset (pieces.flatMap Trivia.runs ++ K)).filterMap Place.blanks? := by
  induction pieces generalizing b offset before with
  | nil => exact (htail before).symm
  | cons t ts ih =>
    obtain ⟨⟨c, w, htext, hscan⟩, hts⟩ := hgap
    obtain ⟨last, -, -, hplaces⟩ :=
      exists_filterMap_places_piece (fun _ => blanks?_of_solid) htext hscan
    have hwidth : offset + Trivia.width (t :: ts) =
        offset + t.text.utf8ByteSize + Trivia.width ts := (Nat.add_assoc _ _ _).symm
    have hblank : isBlankRun t.text.toList = t.isWhitespace := by
      rw [htext]
      exact (head_of_scanLeading hscan).2.1
    rw [List.flatMap_cons, List.append_assoc, hplaces,
      ← ih hts (fun before => hwidth ▸ htail before) (some last), ← List.append_assoc]
    congr 1
    rw [Trivia.placed, Place.blanks?, hblank, Place.span, byteLength_toList]
    cases hwhite : t.isWhitespace with
    | false => exact List.filterMap_cons_none (by simp [Trivia.blanks?, hwhite])
    | true => exact List.filterMap_cons_some (by simp [Trivia.blanks?, hwhite])

/-- **The pieces of trivia that are made of blanks are the runs of blanks.** -/
theorem Lexed.blanks_eq {behind : List Trivia} {tokens : List Token}
    (h : Lexed pos b behind cs tokens) (before : Option (List Char)) :
    (Trivia.placed pos behind ++ tokens.flatMap Token.placedTrivia).filterMap Trivia.blanks? =
      (places before pos (runs b cs)).filterMap Place.blanks? := by
  -- the trivia behind one token and in front of the next one are a single gap
  have hfirst : ∀ (pos : Nat) (behind leading trailing : List Trivia) (kind : TokenKind)
      (text : String) (ts : List Token),
      Trivia.placed pos behind ++ (⟨kind, text, pos + Trivia.width (behind ++ leading), leading,
        trailing⟩ :: ts : List Token).flatMap Token.placedTrivia =
        Trivia.placed pos (behind ++ leading) ++
          (Trivia.placed (pos + Trivia.width (behind ++ leading) + text.utf8ByteSize) trailing ++
            ts.flatMap Token.placedTrivia) := by
    intro pos behind leading trailing kind text ts
    have hstart : pos + Trivia.width (behind ++ leading) - Trivia.width leading =
        pos + Trivia.width behind := by
      rw [Trivia.width_append]
      omega
    simp only [List.flatMap_cons, Token.placedTrivia, Token.fullStart, Token.stop, hstart,
      Trivia.placed_append, List.append_assoc]
  induction h generalizing before with
  | last pos b behind before' hgap =>
    have hruns := runs_gap hgap
    rw [List.append_nil, runs_nil] at hruns
    rw [hruns, hfirst, List.filterMap_append]
    exact blanks_gap hgap (fun _ => rfl) before
  | more pos b behind before' after c w kind rest tokens hgap hword htail ih =>
    rw [hfirst, List.filterMap_append, utf8ByteSize_ofList, ih (some (c :: w)), runs_gap hgap,
      runs_word hword]
    refine blanks_gap hgap (fun before => ?_) before
    rw [places, List.filterMap_cons_none (blanks?_of_solid (p := ⟨_, _, c :: w, _⟩) hword.space)]

end CodeMend
