import CodeMend.Proofs.Token.ByteScan
import CodeMend.Token.Lexer

/-!
# CodeMend — tokens write the source out again

Splitting a source into tokens loses nothing: every byte belongs to the text of one token or to a
piece of its trivia, and every offset that a token or an error carries is a seam between characters.

* **`Spells`** — a list of tokens that reads a text from an offset on, as one inductive relation.
* **`spells_of_tokensFrom`** — what the lexer answers spells the text it was given; by the recursion
  of the lexer, with `leading_spells` and `trailing_spells` for the trivia of one token.
* **`Lossless`** — the properties of tokens that a reader of the source relies on.
* **`tokenize_lossless`** — every source is split into such tokens, or refused at a seam.
-/

namespace CodeMend

/-- The spans follow one another from `start` to `stop` without gap or overlap. -/
def Tiles (start : Nat) : List Span → Nat → Prop
  | [], stop => start = stop
  | span :: rest, stop => span.start = start ∧ start ≤ span.stop ∧ Tiles span.stop rest stop

/-- The characters of a list of trivia. -/
def Trivia.chars (ts : List Trivia) : List Char := (Trivia.render ts).toList

/-- `Spells pos cs tokens`: the tokens, with their trivia, read the text `cs` that starts at byte
`pos`, and the last of them marks the end of the file. -/
inductive Spells : Nat → List Char → List Token → Prop where
  | last (pos : Nat) (before : List Trivia) :
      Spells pos (Trivia.chars before)
        [⟨.endOfFile, "", pos + Trivia.width before, before, []⟩]
  | more (pos : Nat) (kind : TokenKind) (text : String) (before after : List Trivia)
      (rest : List Char) (tokens : List Token) (hkind : kind ≠ .endOfFile) (htext : text ≠ "")
      (htail : Spells (pos + Trivia.width before + text.utf8ByteSize + Trivia.width after) rest
        tokens) :
      Spells pos (Trivia.chars before ++ (text.toList ++ (Trivia.chars after ++ rest)))
        (⟨kind, text, pos + Trivia.width before, before, after⟩ :: tokens)

/-! ## Trivia

Trivia and tokens are cut off the front of a text one by one, and what was cut off and what is left
make up the text. -/

@[simp] theorem Trivia.chars_nil : Trivia.chars [] = [] := rfl

@[simp] theorem Trivia.chars_cons (t : Trivia) (ts : List Trivia) :
    Trivia.chars (t :: ts) = t.text.toList ++ Trivia.chars ts := by
  simp [Trivia.chars, Trivia.render, String.join_cons]

/-- The width of trivia is the number of bytes of its characters. -/
theorem Trivia.byteLength_chars (ts : List Trivia) :
    byteLength (Trivia.chars ts) = Trivia.width ts := by
  induction ts with
  | nil => rfl
  | cons t ts ih =>
    rw [Trivia.chars_cons, byteLength_append, byteLength_toList, ih]
    rfl

namespace Lexer

theorem toList_textOf (c : Char) (cs : List Char) (n : Nat) :
    (textOf c cs n).toList = c :: cs.take n := by
  simp [textOf]

/-- The trivia before a token and the text after it make up the text. -/
theorem leading_spells (atLineStart : Bool) (cs : List Char) :
    Trivia.chars (leading atLineStart cs).1 ++ (leading atLineStart cs).2 = cs := by
  fun_induction leading atLineStart cs with
  | case1 => rfl
  | case2 b c cs kind n _ pieces rest heq ih =>
    rw [heq] at ih
    rw [Trivia.chars_cons, toList_textOf, List.append_assoc, ih, List.cons_append,
      List.take_append_drop]
  | case3 => rfl

/-- The trivia after a token and the text after it make up the text. -/
theorem trailing_spells (cs : List Char) :
    Trivia.chars (trailing cs).1 ++ (trailing cs).2 = cs := by
  fun_induction trailing cs with
  | case1 => rfl
  | case2 c cs n _ piece =>
    rw [Trivia.chars_cons, Trivia.chars_nil, List.append_nil, toList_textOf, List.cons_append,
      List.take_append_drop]
  | case3 c cs kind n _ piece _ pieces rest heq ih =>
    rw [heq] at ih
    rw [Trivia.chars_cons, toList_textOf, List.append_assoc, ih, List.cons_append,
      List.take_append_drop]
  | case4 => rfl

/-- No token but the last marks the end of the file. -/
theorem ne_endOfFile_of_scanToken {c : Char} {cs : List Char} {kind : TokenKind} {n : Nat}
    (h : scanToken c cs = .ok (kind, n)) : kind ≠ .endOfFile := by
  rintro rfl
  unfold scanToken at h
  grind

/-- **The tokens that the lexer answers spell the text it was given.** -/
theorem spells_of_tokensFrom {pos : Nat} {atLineStart : Bool} {cs : List Char}
    {tokens : List Token} (h : tokensFrom pos atLineStart cs = .ok tokens) :
    Spells pos cs tokens := by
  fun_induction tokensFrom pos atLineStart cs generalizing tokens with
  | case1 pos b cs before hlead =>
    obtain rfl := Except.ok.inj h
    have hcs := leading_spells b cs
    rw [hlead, List.append_nil] at hcs
    rw [← hcs]
    exact .last pos before
  | case2 => cases h
  | case3 => cases h
  | case4 => cases h
  | case5 pos b cs before c rest hlead offset _ kind n hscan text after remaining htrail tail
      htail =>
    rename_i ih
    obtain rfl := Except.ok.inj h
    have hcs := leading_spells b cs
    have hrest := trailing_spells (rest.drop n)
    rw [hlead] at hcs
    rw [htrail] at hrest
    have htoken : c :: rest = text.toList ++ (Trivia.chars after ++ remaining) := by
      rw [hrest, toList_textOf, List.cons_append, List.take_append_drop]
    rw [← hcs, htoken]
    exact .more pos kind text before after remaining tail (ne_endOfFile_of_scanToken hscan)
      (by simp [text, textOf]) (ih htail)

/-- An error lies at a seam of the text. -/
theorem exists_split_of_tokensFrom {pos : Nat} {atLineStart : Bool} {cs : List Char}
    {e : LexError} (h : tokensFrom pos atLineStart cs = .error e) :
    ∃ front rest, cs = front ++ rest ∧ e.offset = pos + byteLength front := by
  have hseam : ∀ {b : Bool} {cs before : List Char} {pieces : List Trivia},
      leading b cs = (pieces, before) →
      cs = Trivia.chars pieces ++ before ∧
        Trivia.width pieces = byteLength (Trivia.chars pieces) := by
    intro b cs before pieces hlead
    have hcs := leading_spells b cs
    rw [hlead] at hcs
    exact ⟨hcs.symm, (Trivia.byteLength_chars pieces).symm⟩
  fun_induction tokensFrom pos atLineStart cs generalizing e with
  | case1 => cases h
  | case2 pos b cs before c rest hlead offset =>
    obtain rfl := Except.error.inj h
    obtain ⟨hcs, hwidth⟩ := hseam hlead
    exact ⟨_, _, hcs, by rw [← hwidth]⟩
  | case3 pos b cs before c rest hlead offset =>
    obtain rfl := Except.error.inj h
    obtain ⟨hcs, hwidth⟩ := hseam hlead
    exact ⟨_, _, hcs, by rw [← hwidth]⟩
  | case4 pos b cs before c rest hlead offset _ kind n _ text after remaining htrail e' htail =>
    rename_i ih
    obtain rfl := Except.error.inj h
    obtain ⟨hcs, hwidth⟩ := hseam hlead
    obtain ⟨front, tail, hremaining, hoffset⟩ := ih htail
    have hrest := trailing_spells (rest.drop n)
    rw [htrail] at hrest
    have htoken : c :: rest = text.toList ++ (Trivia.chars after ++ (front ++ tail)) := by
      rw [← hremaining, hrest, toList_textOf, List.cons_append, List.take_append_drop]
    refine ⟨Trivia.chars before ++ (text.toList ++ (Trivia.chars after ++ front)), tail, ?_, ?_⟩
    · rw [hcs, htoken]
      simp only [List.append_assoc]
    · rw [hoffset, byteLength_append, byteLength_append, byteLength_append, byteLength_toList,
        ← hwidth, Trivia.byteLength_chars]
      simp only [offset]
      omega
  | case5 => cases h

end Lexer

/-! ## Reading a text

These are read as properties of a list of tokens and a source, without the lexer. -/

namespace Spells

variable {pos : Nat} {cs : List Char} {tokens : List Token}

/-- Writing the tokens out gives the text. -/
theorem renderAll (h : Spells pos cs tokens) : Token.renderAll tokens = String.ofList cs := by
  induction h with
  | last pos before =>
    simp [Token.renderAll, Token.render, Trivia.chars, String.join_cons,
      show Trivia.render [] = "" from rfl]
  | more pos kind text before after rest tokens _ _ _ ih =>
    have hcons : ∀ (t : Token) (ts : List Token),
        Token.renderAll (t :: ts) = t.render ++ Token.renderAll ts := by
      intro t ts
      simp [Token.renderAll, String.join_cons]
    rw [hcons, ih]
    simp [Token.render, Trivia.chars, String.ofList_append, String.append_assoc]

/-- The last token, and only the last, marks the end of the file; the others have a text. -/
theorem ends (h : Spells pos cs tokens) :
    ∃ front last, tokens = front ++ [last] ∧ last.kind = .endOfFile ∧
      ∀ t ∈ front, t.kind ≠ .endOfFile ∧ t.text ≠ "" := by
  induction h with
  | last pos before => exact ⟨[], _, rfl, rfl, by simp⟩
  | more pos kind text before after rest tokens hkind htext _ ih =>
    obtain ⟨front, last, rfl, hlast, hfront⟩ := ih
    refine ⟨⟨kind, text, pos + Trivia.width before, before, after⟩ :: front, last, rfl, hlast, ?_⟩
    intro t ht
    rcases List.mem_cons.mp ht with rfl | ht
    · exact ⟨hkind, htext⟩
    · exact hfront t ht

/-- The full spans of the tokens follow one another through the text. -/
theorem tiles (h : Spells pos cs tokens) :
    Tiles pos (tokens.map Token.fullSpan) (pos + byteLength cs) := by
  induction h with
  | last pos before =>
    simp [Tiles, Token.fullSpan, Token.fullStart, Token.fullStop, Token.stop,
      Trivia.byteLength_chars, Trivia.width]
  | more pos kind text before after rest tokens _ _ _ ih =>
    rw [List.map_cons]
    refine ⟨?_, ?_, ?_⟩
    · simp [Token.fullSpan, Token.fullStart]
    · simp only [Token.fullSpan, Token.fullStop, Token.stop]
      omega
    · have hstop : pos + byteLength (Trivia.chars before ++
            (text.toList ++ (Trivia.chars after ++ rest))) =
          pos + Trivia.width before + text.utf8ByteSize + Trivia.width after +
            byteLength rest := by
        rw [byteLength_append, byteLength_append, byteLength_append, byteLength_toList,
          Trivia.byteLength_chars, Trivia.byteLength_chars]
        omega
      rw [hstop]
      exact ih

/-- Each token's text is what the source holds between its two offsets. -/
theorem texts (h : Spells pos cs tokens) {source : String} (front : List Char)
    (hsource : source.toList = front ++ cs) (hfront : byteLength front = pos) :
    ∀ t ∈ tokens, extract? source t.offset t.stop = some t.text := by
  induction h generalizing front with
  | last pos before =>
    intro t ht
    obtain rfl := List.mem_singleton.mp ht
    refine extract?_eq_some_iff.mpr
      ⟨front ++ Trivia.chars before, [], by simpa using hsource, ?_, ?_⟩
    · rw [byteLength_append, hfront, Trivia.byteLength_chars]
    · rw [byteLength_append, hfront, Trivia.byteLength_chars]
      rfl
  | more pos kind text before after rest tokens _ _ _ ih =>
    intro t ht
    have hoffset : byteLength (front ++ Trivia.chars before) = pos + Trivia.width before := by
      rw [byteLength_append, hfront, Trivia.byteLength_chars]
    rcases List.mem_cons.mp ht with rfl | ht
    · refine extract?_eq_some_iff.mpr
        ⟨front ++ Trivia.chars before, Trivia.chars after ++ rest, ?_, hoffset, ?_⟩
      · simpa using hsource
      · rw [hoffset, byteLength_toList]
        rfl
    · refine ih (front ++ Trivia.chars before ++ text.toList ++ Trivia.chars after) ?_ ?_ t ht
      · simpa using hsource
      · rw [byteLength_append, byteLength_append, hoffset, byteLength_toList,
          Trivia.byteLength_chars]

end Spells

/-! ## Tokens of a source

They hold of the tokens of every source that has any, and otherwise there is an error inside of the
source. -/

/-- What the tokens of a source keep of it. -/
structure Lossless (source : String) (tokens : List Token) : Prop where
  /-- The tokens with their trivia write the source out. -/
  render : Token.renderAll tokens = source
  /-- The last token, and only the last, marks the end of the file; every other one has a text. -/
  ends : ∃ front last, tokens = front ++ [last] ∧ last.kind = .endOfFile ∧
    ∀ t ∈ front, t.kind ≠ .endOfFile ∧ t.text ≠ ""
  /-- The source holds each token's text between the offsets of the token. -/
  texts : ∀ t ∈ tokens, extract? source t.offset t.stop = some t.text
  /-- The spans of the tokens with their trivia follow one another from the start of the source to
  its end. -/
  tiles : Tiles 0 (tokens.map Token.fullSpan) source.utf8ByteSize

theorem spells_of_tokenize {source : String} {tokens : List Token}
    (h : tokenize source = .ok tokens) : Spells 0 source.toList tokens :=
  Lexer.spells_of_tokensFrom h

theorem lossless_of_tokenize {source : String} {tokens : List Token}
    (h : tokenize source = .ok tokens) : Lossless source tokens := by
  have hspells := spells_of_tokenize h
  refine ⟨?_, hspells.ends, hspells.texts [] rfl rfl, ?_⟩
  · rw [hspells.renderAll, String.ofList_toList]
  · have htiles := hspells.tiles
    rwa [Nat.zero_add, byteLength_toList] at htiles

/-- **Splitting into tokens loses nothing and never cuts a character.**  Every source either has
tokens, which write it out again, or is refused at a seam between two characters.  A string is an
opening with a body; where the end of such a body, of an interpolation hole or of a character
literal is searched on the bytes of a text, the search finds the extent that is counted in
characters, and no cut of it falls inside a character. -/
theorem tokenize_lossless :
    (∀ source : String,
      (∃ tokens, tokenize source = .ok tokens ∧ Lossless source tokens) ∨
      (∃ e, tokenize source = .error e ∧ isBoundary source.toList e.offset = true)) ∧
    (∀ (first : Char) (cs : List Char),
      Literal.string first cs =
        (Literal.opening? first cs).bind fun (k, verbatim, interpolated, body) =>
          (Literal.quotedBody verbatim interpolated body).map (· + k)) ∧
    (∀ (body : List Char) (verbatim interpolated : Bool),
      ByteScan.quoted verbatim interpolated (bytes body) =
        Extent.ofCount body (Literal.quotedBody verbatim interpolated body) ∧
      ByteScan.quoted verbatim interpolated (bytes body) ≠ .split) ∧
    (∀ (body : List Char) (depth : Nat),
      ByteScan.hole depth (bytes body) = Extent.ofCount body (Literal.hole depth body) ∧
      ByteScan.hole depth (bytes body) ≠ .split) ∧
    (∀ (body : List Char) (first : Bool),
      ByteScan.character first (bytes body) =
        Extent.ofCount body (Literal.characterBody first body) ∧
      ByteScan.character first (bytes body) ≠ .split) := by
  refine ⟨?_, Literal.string_eq, ?_, ?_, ?_⟩
  · intro source
    cases h : tokenize source with
    | ok tokens => exact .inl ⟨tokens, rfl, lossless_of_tokenize h⟩
    | error e =>
      obtain ⟨front, rest, hsource, hoffset⟩ := Lexer.exists_split_of_tokensFrom h
      refine .inr ⟨e, rfl, ?_⟩
      rw [hsource, hoffset, Nat.zero_add]
      exact isBoundary_append front rest
  · intro body verbatim interpolated
    have hagree := ByteScan.quoted_bytes verbatim interpolated body
    exact ⟨hagree, by rw [hagree]; exact Extent.ofCount_ne_split _ _⟩
  · intro body depth
    have hagree := ByteScan.hole_bytes depth body
    exact ⟨hagree, by rw [hagree]; exact Extent.ofCount_ne_split _ _⟩
  · intro body first
    have hagree := ByteScan.character_bytes first body
    exact ⟨hagree, by rw [hagree]; exact Extent.ofCount_ne_split _ _⟩

end CodeMend
