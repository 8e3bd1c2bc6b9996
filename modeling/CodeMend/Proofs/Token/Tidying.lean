import CodeMend.Proofs.Text.Splices
import CodeMend.Proofs.Token.LineBreaks
import CodeMend.Token.Layout

/-!
# CodeMend — tidying keeps what a source says

The tidied text holds the words, comments, directives and line breaks of the text in the same order.
A run of blanks becomes a single one, or it goes where no token can run into another: in front of
the end of a line or of the file, and inside parentheses.

Every edit that tidies a source replaces a whole run of blanks of its trivia, so the edits ascend
without overlaps and can all be carried out.  What comes out has the tokens of the source again, and
its comments, directives and line breaks.

* **`Layout.cases_of_tidied?`** — what takes the place of a run of blanks.
* **`exists_splices_gapEdits`** — the edits between two tokens, **`exists_splices_edits`** — all
  edits; by induction on the pieces of a gap, and on the tokens from the back.  They keep whatever
  is read off the text along its words and trivia.
* **`exists_splices_layoutEdits`** — tidying any regions of a source.
* **`Trivia.placed`** — pieces of trivia with their spans.
* **`TidiesBlanks`** — what an edit may do; **`tidiesBlanks_of_mem_gapEdits`** and
  **`tidiesBlanks_of_mem_edits`** follow the walks over the pieces of a gap and over the tokens.
* **`layoutEdits_keeps_tokens`** — the tokens of a tidied source.
-/

namespace CodeMend

open Lexer Literal

variable {b : Bool} {c : Char} {w x y cs : List Char} {α : Type} {f : Bool → List Char → α}

namespace Layout

variable {gap : Gap} {first : Bool} {before : Option Char} {text new : String}
  {next : Option Trivia}

/-- **Blanks become a single one or go**, the latter only at the end of a line or of the file or
inside parentheses. -/
theorem cases_of_tidied? (h : tidied? gap first before text next = some new) :
    new = " " ∨
      (new = "" ∧
        ((∃ t, next = some t ∧ t.isEndOfLine = true) ∨
          (next = none ∧ gap.atEndOfFile = true) ∨
          (next = none ∧ gap.beforeCloseParen = true) ∨
          (first && gap.afterOpenParen) = true)) := by
  unfold tidied? at h
  cases next with
  | none => grind
  | some t => grind

/-- An edit between two tokens, if any, replaces a run of blanks that meets a region. -/
theorem cases_gapEdits (gap : Gap) (regions : List Span) (first : Bool) (offset : Nat)
    (before : Option Char) (piece : Trivia) (rest : List Trivia) :
    let stop := offset + piece.text.utf8ByteSize
    let tail := gapEdits gap regions false stop (lastChar before piece.text) rest
    gapEdits gap regions first offset before (piece :: rest) = tail ∨
      ∃ new, piece.kind = .whitespace ∧ touchesAny ⟨offset, stop⟩ regions = true ∧
        tidied? gap first before piece.text rest.head? = some new ∧
        gapEdits gap regions first offset before (piece :: rest) =
          ⟨⟨offset, stop⟩, new⟩ :: tail := by
  dsimp only [gapEdits]
  split
  next hblank =>
    split
    next new hnew =>
      rw [Bool.and_eq_true, Trivia.isWhitespace, beq_iff_eq] at hblank
      exact .inr ⟨new, hblank.1, hblank.2, hnew, rfl⟩
    next => exact .inl rfl
  next => exact .inl rfl

end Layout

theorem isLineBreak_eq_false_of_isSpace (hc : isSpace c = true) : isLineBreak c = false := by
  by_contra hline
  have hline : c = '\n' ∨ c = '\r' := by
    simpa [isLineBreak, Decidable.or_iff_not_imp_left] using hline
  rcases hline with rfl | rfl
  · cases hc
  · cases hc

/-- A text that begins with blanks and one at a seam that neither a colon nor a slash carries on. -/
theorem agree_of_isSpace (hc : isSpace c = true) (hy : Seam y) (hcolon : y.head? ≠ some ':')
    (hslash : y.head? ≠ some '/') : Agree (c :: x) y := by
  have hne : ∀ d, isSpace d = false → c ≠ d := by
    rintro d hd rfl
    rw [hc] at hd
    cases hd
  refine .of_cut ⟨?_, hy, ?_⟩ ?_
  · intro d hd
    obtain rfl : c = d := Option.some.inj hd
    exact mem_seamChars_of_isSpace hc
  · simp [hne ':' (by decide), hcolon]
  · simp [hne '/' (by decide), hslash]

/-- The end of a line is a seam. -/
theorem Halts.seam (h : Halts y) : Seam y ∧ y.head? ≠ some ':' ∧ y.head? ≠ some '/' := by
  have hne : ∀ d, isLineBreak d = false → y.head? ≠ some d := by
    intro d hd hhead
    rw [h d hhead] at hd
    cases hd
  exact ⟨fun d hd => mem_seamChars_of_isLineBreak (h d hd), hne ':' (by decide), hne '/' (by decide)⟩

/-- A gap that starts with a line break ends the line in front of it. -/
theorem Gap.halts {ts : List Trivia} (h : Gap b ts x) {t : Trivia} (ht : ts.head? = some t)
    (hline : t.isEndOfLine = true) : Halts (Trivia.chars ts ++ x) := by
  obtain ⟨ts, rfl⟩ := List.head?_eq_some_iff.mp ht
  obtain ⟨⟨c, w, htext, hscan⟩, -⟩ := h
  rw [Trivia.chars_cons, htext]
  intro d hd
  obtain rfl : c = d := Option.some.inj hd
  exact (forall_of_scanLeading hscan).2 (beq_iff_eq.mp hline) c List.mem_cons_self

/-- Between tokens, the edits of a gap keep what is read off the text.  They also keep where a line
ends and, but right behind an opening parenthesis, the token in front. -/
theorem exists_splices_gapEdits (hf : Account f) (gap : Layout.Gap) (regions : List Span) (first : Bool)
    (offset : Nat) (before : Option Char) {pieces : List Trivia} {edits : List TextEdit}
    (hgap : Gap b pieces x) (hedits : Splices (offset + Trivia.width pieces) x edits y)
    (hread : f (lineStart b pieces) y = f (lineStart b pieces) x)
    (hhalts : Halts x → Halts y) (hagree : Agree x y) (heof : gap.atEndOfFile = true → Halts x)
    (hclose : gap.beforeCloseParen = true → y.head? = some ')') :
    ∃ out,
      Splices offset (Trivia.chars pieces ++ x)
        (Layout.gapEdits gap regions first offset before pieces ++ edits) out ∧
      f b out = f b (Trivia.chars pieces ++ x) ∧
      (Halts (Trivia.chars pieces ++ x) → Halts out) ∧
      ((first && gap.afterOpenParen) = false → Agree (Trivia.chars pieces ++ x) out) ∧
      (pieces = [] → out = y) := by
  induction pieces generalizing b first offset before with
  | nil => exact ⟨y, hedits, hread, hhalts, fun _ => hagree, fun _ => rfl⟩
  | cons t ts ih =>
    obtain ⟨⟨c, w, htext, hscan⟩, hts⟩ := hgap
    have hwidth : offset + t.text.utf8ByteSize + Trivia.width ts =
        offset + Trivia.width (t :: ts) := by
      rw [Nat.add_assoc]
      rfl
    have hstop : offset + t.text.utf8ByteSize = offset + byteLength (c :: w) := by
      rw [← byteLength_toList, htext]
    obtain ⟨out, hsplices, hreadOut, hhaltsOut, hagreeOut, hnone⟩ :=
      ih false (offset + t.text.utf8ByteSize) (Layout.lastChar before t.text) hts
        (by rwa [hwidth]) hread
    have hagreeOut := hagreeOut rfl
    rw [hstop] at hsplices
    rw [Trivia.chars_cons, htext, List.append_assoc, List.cons_append]
    rcases Layout.cases_gapEdits gap regions first offset before t ts with
      hkept | ⟨new, hblank, -, hnew, hreplaced⟩
    · -- the piece stays
      rw [hkept, hstop]
      refine ⟨c :: (w ++ out), hsplices.keep, ?_, id, fun _ => hagreeOut.append (c :: w), nofun⟩
      exact hf.piece hscan hhaltsOut hreadOut
    · -- blanks are replaced
      rw [hreplaced, hstop]
      have hspaces := (forall_of_scanLeading hscan).1 hblank
      have hc : isSpace c = true := hspaces c List.mem_cons_self
      have hold : f b (c :: (w ++ (Trivia.chars ts ++ x))) = f b (Trivia.chars ts ++ x) :=
        hf.blanks hspaces
      have hmiddle : ¬ Halts (c :: (w ++ (Trivia.chars ts ++ x))) := by
        intro h
        have hline := h c rfl
        rw [isLineBreak_eq_false_of_isSpace hc] at hline
        cases hline
      have hreadOut : f b out = f b (Trivia.chars ts ++ x) := by
        rw [hblank] at hreadOut
        exact hreadOut
      refine ⟨new.toList ++ out, hsplices.replace new, ?_, fun h => absurd h hmiddle, ?_, nofun⟩
      · rw [hold, ← hreadOut]
        rcases Layout.cases_of_tidied? hnew with rfl | ⟨rfl, -⟩
        · exact hf.blank rfl
        · rfl
      · intro hopen
        have hseam : Seam (new.toList ++ out) ∧ (new.toList ++ out).head? ≠ some ':' ∧
            (new.toList ++ out).head? ≠ some '/' := by
          rcases Layout.cases_of_tidied? hnew with rfl | ⟨rfl, ⟨t', ht', hline⟩ | ⟨hlast, hend⟩ |
            ⟨hlast, hend⟩ | hfirst⟩
          · exact ⟨fun d hd => Option.some.inj hd ▸ by decide, by simp⟩
          · exact (hhaltsOut (hts.halts ht' hline)).seam
          · obtain rfl := List.head?_eq_none_iff.mp hlast
            exact (hhaltsOut (heof hend)).seam
          · obtain rfl := List.head?_eq_none_iff.mp hlast
            have hhead : out.head? = some ')' := hnone rfl ▸ hclose hend
            exact ⟨fun d hd => Option.some.inj (hhead.symm.trans hd) ▸ by decide, by simp [hhead]⟩
          · rw [hopen] at hfirst
            cases hfirst
        exact agree_of_isSpace hc hseam.1 hseam.2.1 hseam.2.2

/-- Behind an opening parenthesis any text may change; behind another token it has to agree. -/
theorem Word.agree_unless {kind : TokenKind} (h : Word b c w kind x)
    (hxy : (String.ofList (c :: w) == "(") = false → Agree x y) :
    Word b c w kind y ∧ Agree (c :: (w ++ x)) (c :: (w ++ y)) := by
  cases hopen : String.ofList (c :: w) == "(" with
  | false =>
    have hxy := hxy hopen
    exact ⟨h.agree hxy, hxy.append (c :: w)⟩
  | true =>
    have htext : c :: w = ['('] := by
      rw [← String.toList_ofList (l := c :: w), beq_iff_eq.mp hopen]
      rfl
    obtain ⟨rfl, rfl⟩ := List.cons.inj htext
    have hkind : kind = .punctuation := by
      have hscan := h.scan
      rw [scanToken_loneMark (by decide)] at hscan
      exact (Prod.mk.inj (Except.ok.inj hscan)).1.symm
    have hseam : ∀ z, Seam ('(' :: z) := fun z d hd => Option.some.inj hd ▸ by decide
    exact ⟨hkind ▸ Word.of_loneMark (by decide) b y,
      .of_cut ⟨hseam x, hseam y, Iff.rfl⟩ Iff.rfl⟩

/-- **The edits that tidy the blanks before some tokens keep what is read off the text.** -/
theorem exists_splices_edits (hf : Account f) {regions : List Span} {previous : Option Token} {pos : Nat}
    {behind : List Trivia} {tokens : List Token} (h : Lexed pos b behind cs tokens)
    (hpos : (previous.map Token.stop).getD 0 = pos)
    (hbehind : (previous.map Token.trailing).getD [] = behind) :
    ∃ out, Splices pos cs (Layout.edits regions previous tokens) out ∧
      f b out = f b cs ∧
      (previous.any (fun t => t.text == "(") = false → Agree cs out) := by
  induction h generalizing previous with
  | last pos b behind before hgap =>
    subst hpos hbehind
    simp only [Layout.edits]
    obtain ⟨out, hsplices, hread, -, hagree, -⟩ := exists_splices_gapEdits hf
      ⟨previous.any (fun t => t.text == "("), false, true⟩ regions true
      ((previous.map Token.stop).getD 0) (previous.bind fun t => Layout.lastChar none t.text)
      hgap (.nil _ []) rfl id (.refl []) (fun _ => nofun) nofun
    rw [List.append_nil] at hsplices hread hagree
    exact ⟨out, by simpa using hsplices, hread, hagree⟩
  | more pos b behind before after c w kind rest tokens hgap hword htail ih =>
    subst hpos hbehind
    obtain ⟨rest', hsplices, hread, hagree⟩ :=
      @ih (some ⟨kind, String.ofList (c :: w), _, before, after⟩)
        (by rw [Option.map_some, Option.getD_some, Token.stop, utf8ByteSize_ofList]) rfl
    -- What comes behind the token is tidied first; the gap in front of it must know what follows.
    have hkeep := hsplices.keep
    obtain ⟨hword', hagree'⟩ := hword.agree_unless hagree
    have hreadWord : f (lineStart b ((previous.map Token.trailing).getD [] ++ before))
        (c :: (w ++ rest')) =
        f (lineStart b ((previous.map Token.trailing).getD [] ++ before)) (c :: (w ++ rest)) :=
      hf.word hword hword' hread
    have hends : (kind == .endOfFile) = true → Halts (c :: (w ++ rest)) := by
      intro hend
      exact absurd (beq_iff_eq.mp hend) (ne_endOfFile_of_scanToken hword.scan)
    have hclose : (String.ofList (c :: w) == ")") = true →
        (c :: (w ++ rest')).head? = some ')' := by
      intro hclose
      have htext : c :: w = [')'] := by
        rw [← String.toList_ofList (l := c :: w), beq_iff_eq.mp hclose]
        rfl
      rw [(List.cons.inj htext).1]
      rfl
    obtain ⟨out, hsplicesOut, hreadOut, -, hagreeOut, -⟩ := exists_splices_gapEdits hf
      ⟨previous.any (fun t => t.text == "("), String.ofList (c :: w) == ")", kind == .endOfFile⟩
      regions true ((previous.map Token.stop).getD 0)
      (previous.bind fun t => Layout.lastChar none t.text)
      hgap hkeep hreadWord id hagree' hends hclose
    exact ⟨out, hsplicesOut, hreadOut, hagreeOut⟩

/-- **Tidying regions of a source keeps what it says and its line breaks.** -/
theorem exists_splices_layoutEdits {source : String} {regions : List Span} {edits : List TextEdit}
    (h : layoutEdits source regions = .ok edits) :
    ∃ out, Splices 0 source.toList edits out ∧ reading true out = reading true source.toList ∧
      lineBreaks true out = lineBreaks true source.toList := by
  unfold layoutEdits at h
  split at h
  · obtain rfl := Except.ok.inj h
    exact ⟨source.toList, .nil 0 _, rfl, rfl⟩
  · obtain ⟨tokens, htokens, hedits⟩ := exists_of_bind_eq_ok h
    obtain rfl := Except.ok.inj hedits
    have hlexed := lexed_of_tokenize htokens
    obtain ⟨out, hsplices, hkept, -⟩ :=
      @exists_splices_edits _ _ _ _ (account_reading.prod account_lineBreaks) regions none _ _ _
        hlexed rfl rfl
    exact ⟨out, hsplices, Prod.mk.inj hkept⟩

/-! ## Only blanks are touched

An edit replaces one run of blanks as a whole by at most one blank, and no run that a token needs
disappears. -/

/-- The pieces with their spans, the first of which starts at `offset`. -/
def Trivia.placed : Nat → List Trivia → List (Span × Trivia)
  | _, [] => []
  | offset, t :: ts =>
    let stop := offset + t.text.utf8ByteSize
    (⟨offset, stop⟩, t) :: placed stop ts

/-- The trivia of a token with its spans. -/
def Token.placedTrivia (t : Token) : List (Span × Trivia) :=
  Trivia.placed t.fullStart t.leading ++ Trivia.placed t.stop t.trailing

/-- The edit replaces a run of blanks, one of the given pieces, by nothing or by a single blank.
The run meets a region. -/
structure TidiesBlanks (placed : List (Span × Trivia)) (regions : List Span) (e : TextEdit) :
    Prop where
  blanks : ∃ piece, piece.isWhitespace = true ∧ (e.span, piece) ∈ placed
  nonempty : e.span.start < e.span.stop
  meets : ∃ r ∈ regions, e.span.start ≤ r.stop ∧ r.start ≤ e.span.stop
  text : e.newText = "" ∨ e.newText = " "

variable {regions : List Span} {e : TextEdit}

theorem TidiesBlanks.mono {part whole : List (Span × Trivia)} (h : TidiesBlanks part regions e)
    (hsub : part ⊆ whole) : TidiesBlanks whole regions e :=
  ⟨h.blanks.imp fun _ hpiece => ⟨hpiece.1, hsub hpiece.2⟩, h.nonempty, h.meets, h.text⟩

theorem Trivia.placed_append (offset : Nat) (ts us : List Trivia) :
    placed offset (ts ++ us) = placed offset ts ++ placed (offset + width ts) us := by
  induction ts generalizing offset with
  | nil => rfl
  | cons t ts ih =>
    rw [List.cons_append, placed, ih, placed, List.cons_append, Nat.add_assoc]
    rfl

/-- An edit between two tokens replaces a run of blanks that stands there. -/
theorem tidiesBlanks_of_mem_gapEdits {gap : Layout.Gap} {first : Bool} {offset : Nat}
    {before : Option Char} {pieces : List Trivia} (hgap : Gap b pieces x)
    (he : e ∈ Layout.gapEdits gap regions first offset before pieces) :
    TidiesBlanks (Trivia.placed offset pieces) regions e := by
  induction pieces generalizing b first offset before with
  | nil => cases he
  | cons t ts ih =>
    obtain ⟨⟨c, w, htext, hscan⟩, hts⟩ := hgap
    have hbehind : e ∈ Layout.gapEdits gap regions false (offset + t.text.utf8ByteSize)
        (Layout.lastChar before t.text) ts →
        TidiesBlanks (Trivia.placed offset (t :: ts)) regions e :=
      fun he => (ih hts he).mono (List.subset_cons_self _ _)
    rcases Layout.cases_gapEdits gap regions first offset before t ts with
      hkept | ⟨new, hblank, hmeets, hnew, hreplaced⟩
    · rw [hkept] at he
      exact hbehind he
    · rw [hreplaced] at he
      rcases List.mem_cons.mp he with rfl | he
      · refine ⟨⟨t, beq_iff_eq.mpr hblank, List.mem_cons_self⟩, ?_, ?_, ?_⟩
        · have hbytes : t.text.utf8ByteSize = byteLength (c :: w) := by
            rw [← byteLength_toList, htext]
          have hpos : 0 < byteLength (c :: w) := Nat.add_pos_left (Char.utf8Size_pos c) _
          show offset < offset + t.text.utf8ByteSize
          omega
        · simpa [Layout.touchesAny, and_comm] using hmeets
        · exact (Layout.cases_of_tidied? hnew).symm.imp_left And.left
      · exact hbehind he

/-- The gap in front of a token ends with the trivia of that token. -/
theorem placed_gap_subset {pos : Nat} {behind : List Trivia} (t : Token) (ts : List Token)
    (hoffset : t.offset = pos + Trivia.width (behind ++ t.leading)) :
    Trivia.placed pos (behind ++ t.leading) ⊆
      Trivia.placed pos behind ++ (t :: ts).flatMap Token.placedTrivia := by
  have hstart : t.fullStart = pos + Trivia.width behind := by
    rw [Token.fullStart, hoffset, Trivia.width_append]
    omega
  rw [Trivia.placed_append, List.flatMap_cons, Token.placedTrivia, hstart]
  intro p hp
  simp only [List.mem_append] at hp ⊢
  tauto

/-- An edit before some tokens replaces a run of blanks of the trivia behind the token in front of
them or of their own trivia. -/
theorem tidiesBlanks_of_mem_edits {previous : Option Token} {pos : Nat} {behind : List Trivia}
    {tokens : List Token} (h : Lexed pos b behind cs tokens)
    (hpos : (previous.map Token.stop).getD 0 = pos)
    (hbehind : (previous.map Token.trailing).getD [] = behind)
    (he : e ∈ Layout.edits regions previous tokens) :
    TidiesBlanks (Trivia.placed pos behind ++ tokens.flatMap Token.placedTrivia) regions e := by
  induction h generalizing previous with
  | last pos b behind before hgap =>
    subst hpos hbehind
    simp only [Layout.edits, List.append_nil] at he
    exact (tidiesBlanks_of_mem_gapEdits hgap he).mono (placed_gap_subset ⟨_, _, _, _, _⟩ _ rfl)
  | more pos b behind before after c w kind rest tokens hgap hword htail ih =>
    subst hpos hbehind
    rcases List.mem_append.mp he with he | he
    · exact (tidiesBlanks_of_mem_gapEdits hgap he).mono (placed_gap_subset ⟨_, _, _, _, _⟩ _ rfl)
    · have hstop : (Token.stop ⟨kind, String.ofList (c :: w), (previous.map Token.stop).getD 0 +
          Trivia.width ((previous.map Token.trailing).getD [] ++ before), before, after⟩) =
          (previous.map Token.stop).getD 0 +
            Trivia.width ((previous.map Token.trailing).getD [] ++ before) +
            byteLength (c :: w) := by
        rw [Token.stop, utf8ByteSize_ofList]
      refine (ih (by rw [Option.map_some, Option.getD_some, hstop]) rfl he).mono fun p hp => ?_
      rw [← hstop] at hp
      simp only [List.flatMap_cons, Token.placedTrivia, List.mem_append] at hp ⊢
      tauto

/-- **Tidying keeps the tokens of a source.**  For any regions, the edits ascend without overlaps,
each of them replaces a run of blanks of the trivia by nothing or by a single blank, and they can be
carried out.  The text that comes out has the same words, with the same comments and directives and
the same line breaks between them. -/
theorem layoutEdits_keeps_tokens {source : String} {tokens : List Token}
    (h : tokenize source = .ok tokens) (regions : List Span) :
    ∃ edits out after, layoutEdits source regions = .ok edits ∧
      (edits.Pairwise fun a b => a.span.start < b.span.start) ∧ NoOverlaps edits ∧
      (∀ e ∈ edits, TidiesBlanks (tokens.flatMap Token.placedTrivia) regions e) ∧
      applyEdits source edits = .ok out ∧ tidy source regions = .ok out ∧
      tokenize out = .ok after ∧
      (after.map fun t => (t.kind, t.text)) = tokens.map (fun t => (t.kind, t.text)) ∧
      (triviaOf after).filter Trivia.isRemark = (triviaOf tokens).filter Trivia.isRemark ∧
      Trivia.render ((triviaOf after).filter Trivia.isEndOfLine) =
        Trivia.render ((triviaOf tokens).filter Trivia.isEndOfLine) := by
  obtain ⟨edits, hedits, hblanks⟩ : ∃ edits, layoutEdits source regions = .ok edits ∧
      ∀ e ∈ edits, TidiesBlanks (tokens.flatMap Token.placedTrivia) regions e := by
    unfold layoutEdits
    split
    · exact ⟨[], rfl, by simp⟩
    · rw [h]
      refine ⟨_, rfl, fun e he => ?_⟩
      refine tidiesBlanks_of_mem_edits (lexed_of_tokenize h) ?_ ?_ he <;> rfl
  obtain ⟨out, hsplices, hread, hbreaks⟩ := exists_splices_layoutEdits hedits
  obtain ⟨hstarts, hno, happly⟩ :=
    applyEdits_of_nonempty_splices hsplices fun e he => (hblanks e he).nonempty
  have hout : (String.ofList out).toList = out := String.toList_ofList
  rw [reading_of_tokenize h, ← hout] at hread
  obtain ⟨after, hafter⟩ := exists_tokenize_of_reading hread
  have hsame : lexemes [] after = lexemes [] tokens :=
    Option.some.inj ((reading_of_tokenize hafter).symm.trans hread)
  rw [lineBreaks_of_tokenize h, ← hout, lineBreaks_of_tokenize hafter] at hbreaks
  refine ⟨edits, String.ofList out, after, hedits, hstarts, hno, hblanks, happly, ?_, hafter, ?_,
    ?_, String.toList_inj.mp hbreaks⟩
  · simp [tidy, hedits, happly, Except.mapError, bind, Except.bind]
  · rw [← filterMap_word?_lexemes [], ← filterMap_word?_lexemes [], hsame]
  · have hremarks := (lexed_of_tokenize hafter).filterMap_remark?_lexemes
    rw [hsame, (lexed_of_tokenize h).filterMap_remark?_lexemes] at hremarks
    exact hremarks.symm

/-- Blanks go inside parentheses and at the end of a line, and others become a single one. -/
theorem layoutEdits_keeps_tokens_call :
    (tokenize "f( a,  b ) \r \n#if C").toOption.isSome = true ∧
    ∃ out after, tidy "f( a,  b ) \r \n#if C" [⟨0, 20⟩] = .ok out ∧ out = "f(a, b)\r\n#if C" ∧
      tokenize out = .ok after ∧
      (triviaOf after).filter Trivia.isRemark = [⟨.directive, "#if C"⟩] := by
  have hok : (tokenize "f( a,  b ) \r \n#if C").toOption.map
      (fun tokens => (triviaOf tokens).filter Trivia.isRemark) = some [⟨.directive, "#if C"⟩] := by
    decide +kernel
  have htidied : (tidy "f( a,  b ) \r \n#if C" [⟨0, 20⟩]).toOption =
      some "f(a, b)\r\n#if C" := by
    decide +kernel
  cases h : tokenize "f( a,  b ) \r \n#if C" with
  | error e =>
    rw [h] at hok
    cases hok
  | ok tokens =>
    obtain ⟨edits, out, after, -, -, -, -, -, htidy, hafter, -, hremarks, -⟩ :=
      layoutEdits_keeps_tokens h [⟨0, 20⟩]
    rw [h] at hok
    rw [htidy] at htidied
    exact ⟨rfl, out, after, htidy, Option.some.inj htidied, hafter,
      hremarks.trans (Option.some.inj hok)⟩

end CodeMend
