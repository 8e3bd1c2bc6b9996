import CodeMend.Proofs.Token.Reading

/-!
# CodeMend — regular literals and the ends of lines

The scanner of a plain string or character stops at a line break, but a backslash takes the
character after it along without looking at it.  So a literal goes on behind its line exactly when
one of its escapes takes a line break; any other literal is closed on its line or reported at its
opening quote.

* **`Content`** — what a line may hold between the quotes of a literal.
* **`ClosedOnLine`**, **`EscapesLineBreak`** — the two ways in which a scan can succeed
  (`cases_of_regularBody`); without the second one it finds the end of the literal exactly if that
  is on the line (`isSome_regularBody_iff`).
* **`Begins`** — the places at which the lexer comes to the first character of a token; a scan that
  fails there is what is reported of the source (`Begins.tokensFrom_error`), one that succeeds is
  not (`Begins.offset_ne`).
* **`regular_literals_end_on_line`** — both put together for a source.
-/

namespace CodeMend

open Lexer

namespace Literal

variable {quote c : Char} {first : Bool} {cs body rest : List Char} {n : Nat}

/-! ## Between the quotes

A regular literal is closed on its line.  The only way not to be is for a backslash to take the line
break along. -/

/-- The scan of plain strings and of characters.  A quote right at the front, if that is told by
`first`, closes nothing. -/
def regularBody (quote : Char) (first : Bool) : List Char → Option Nat
  | [] => none
  | c :: cs =>
    if c = '\\' then
      match cs with
      | [] => none
      | _ :: rest => (regularBody quote false rest).map (· + 2)
    else if c = quote && !first then some 1
    else if isLineBreak c then none
    else (regularBody quote false cs).map (· + 1)

theorem regularBody_cons (quote : Char) (first : Bool) (c : Char) (cs : List Char) :
    regularBody quote first (c :: cs) =
      if c = '\\' then if cs = [] then none else (regularBody quote false cs.tail).map (· + 2)
      else if c = quote && !first then some 1
      else if isLineBreak c then none
      else (regularBody quote false cs).map (· + 1) := by
  cases cs <;> simp [regularBody]

theorem plainBody_eq_regularBody (cs : List Char) : plainBody cs = regularBody '"' false cs := by
  fun_induction plainBody cs with
  | case1 => rfl
  | case2 => rfl
  | case3 d rest ih => simp [regularBody, ih]
  | case4 => simp [regularBody_cons]
  | case5 c cs hslash hquote hbreak => simp [regularBody_cons, hslash, hquote, hbreak]
  | case6 c cs hslash hquote hbreak ih => simp [regularBody_cons, hslash, hquote, hbreak, ih]

theorem characterBody_eq_regularBody (first : Bool) (cs : List Char) :
    characterBody first cs = regularBody '\'' first cs := by
  fun_induction characterBody first cs with
  | case1 => rfl
  | case2 => rfl
  | case3 first d rest ih => simp [regularBody, ih]
  | case4 first c cs hslash hquote => simp [regularBody_cons, hslash, hquote]
  | case5 first c cs hslash hquote hbreak => simp [regularBody_cons, hslash, hquote, hbreak]
  | case6 first c cs hslash hquote hbreak ih =>
    simp [regularBody_cons, hslash, hquote, hbreak, ih]

/-- What a line may hold between the quotes of a literal: characters, and backslashes with the
character that each of them escapes. -/
inductive Content (quote : Char) : Bool → List Char → Prop where
  | nil (first : Bool) : Content quote first []
  | plain (first : Bool) (c : Char) (body : List Char) (hslash : c ≠ '\\')
      (hbreak : isLineBreak c = false) (hquote : c = quote → first = true)
      (hbody : Content quote false body) : Content quote first (c :: body)
  | escape (first : Bool) (c : Char) (body : List Char) (hbreak : isLineBreak c = false)
      (hbody : Content quote false body) : Content quote first ('\\' :: c :: body)

theorem Content.isLineBreak_eq_false (h : Content quote first body) :
    ∀ c ∈ body, isLineBreak c = false := by
  induction h with
  | nil => simp
  | plain first c body _ hbreak _ _ ih => simpa [hbreak] using ih
  | escape first c body hbreak _ ih =>
    have hslash : isLineBreak '\\' = false := rfl
    simpa [hbreak, hslash] using ih

/-- Behind its opening quote, the literal is closed before the line ends.  The first of two quotes
in a row does not close a character. -/
def ClosedOnLine (quote : Char) (first : Bool) (cs : List Char) : Prop :=
  ∃ body rest, cs = body ++ quote :: rest ∧ Content quote first body ∧ (first = true → body ≠ [])

/-- Behind its opening quote, the literal escapes the end of the line. -/
def EscapesLineBreak (quote : Char) (first : Bool) (cs : List Char) : Prop :=
  ∃ body c rest, cs = body ++ '\\' :: c :: rest ∧ Content quote first body ∧ isLineBreak c = true

/-- The scan goes to the quote that closes the literal on its line. -/
theorem Content.regularBody_append (h : Content quote first body) (hquote : quote ≠ '\\')
    (hfirst : first = true → body ≠ []) (rest : List Char) :
    regularBody quote first (body ++ quote :: rest) = some (body.length + 1) := by
  induction h with
  | nil first =>
    have hclosing : first = false := by simpa using hfirst
    simp [regularBody_cons, hquote, hclosing]
  | plain first c body hslash hbreak hc hbody ih =>
    have hinside : (c = quote && !first) = false := by
      simpa [Bool.and_eq_false_imp] using hc
    simp [regularBody_cons, hslash, hbreak, hinside, ih nofun]
  | escape first c body hbreak hbody ih => simp [regularBody_cons, ih nofun]

/-- What an escape takes, or one character, may stand in front of the rest of a line. -/
theorem EscapesLineBreak.append {front : List Char}
    (hfront : ∀ body, Content quote false body → Content quote first (front ++ body))
    (h : EscapesLineBreak quote false cs) : EscapesLineBreak quote first (front ++ cs) := by
  obtain ⟨body, c, rest, rfl, hbody, hc⟩ := h
  exact ⟨front ++ body, c, rest, by simp, hfront body hbody, hc⟩

/-- **A scan ends on the line of the literal, or an escape has taken the end of this line.** -/
theorem cases_of_regularBody (h : regularBody quote first cs = some n) :
    (∃ body rest, cs = body ++ quote :: rest ∧ n = body.length + 1 ∧
      Content quote first body ∧ (first = true → body ≠ [])) ∨
    EscapesLineBreak quote first (cs.take n) := by
  -- one character, or an escape with what it takes, in front of the rest of the scan
  have hcons : ∀ {first : Bool} (front : List Char) {cs : List Char} {m : Nat}, front ≠ [] →
      (∀ body, Content quote false body → Content quote first (front ++ body)) →
      ((∃ body rest, cs = body ++ quote :: rest ∧ m = body.length + 1 ∧
        Content quote false body ∧ (false = true → body ≠ [])) ∨
        EscapesLineBreak quote false (cs.take m)) →
      (∃ body rest, front ++ cs = body ++ quote :: rest ∧ m + front.length = body.length + 1 ∧
        Content quote first body ∧ (first = true → body ≠ [])) ∨
        EscapesLineBreak quote first ((front ++ cs).take (m + front.length)) := by
    intro first front cs m hne hfront hcases
    rcases hcases with ⟨body, rest, rfl, rfl, hbody, -⟩ | hescape
    · refine .inl ⟨front ++ body, rest, by simp, ?_, hfront body hbody, by simp [hne]⟩
      rw [List.length_append]
      omega
    · rw [Nat.add_comm, List.take_length_add_append]
      exact .inr (hescape.append hfront)
  fun_induction regularBody quote first cs generalizing n with
  | case1 => cases h
  | case2 => cases h
  | case3 first d rest ih =>
    obtain ⟨m, hm, rfl⟩ := Option.map_eq_some_iff.mp h
    cases hd : isLineBreak d with
    | true => exact .inr ⟨[], d, rest.take m, rfl, .nil first, hd⟩
    | false =>
      exact hcons ['\\', d] (List.cons_ne_nil _ _)
        (fun body hbody => .escape first d body hd hbody) (ih hm)
  | case4 first c cs hslash hquote =>
    obtain rfl := Option.some.inj h
    obtain ⟨rfl, rfl⟩ : c = quote ∧ first = false := by simpa using hquote
    exact .inl ⟨[], cs, rfl, rfl, .nil false, nofun⟩
  | case5 => cases h
  | case6 first c cs hslash hquote hbreak ih =>
    obtain ⟨m, hm, rfl⟩ := Option.map_eq_some_iff.mp h
    have hinside : c = quote → first = true := by simpa using hquote
    exact hcons [c] (List.cons_ne_nil _ _)
      (fun body hbody => .plain first c body hslash (by simpa using hbreak) hinside hbody) (ih hm)

theorem EscapesLineBreak.of_take (h : EscapesLineBreak quote first (cs.take n)) :
    EscapesLineBreak quote first cs := by
  obtain ⟨body, c, rest, hcs, hbody, hc⟩ := h
  refine ⟨body, c, rest ++ cs.drop n, ?_, hbody, hc⟩
  rw [← List.cons_append, ← List.cons_append, ← List.append_assoc, ← hcs, List.take_append_drop]

/-- When no escape takes the end of the line, the scan finds the end of the literal exactly if it
is on the line. -/
theorem isSome_regularBody_iff (hquote : quote ≠ '\\') (h : ¬ EscapesLineBreak quote first cs) :
    (regularBody quote first cs).isSome ↔ ClosedOnLine quote first cs := by
  rw [Option.isSome_iff_exists]
  constructor
  · rintro ⟨n, hn⟩
    rcases cases_of_regularBody hn with ⟨body, rest, hcs, -, hbody, hfirst⟩ | hescape
    · exact ⟨body, rest, hcs, hbody, hfirst⟩
    · exact absurd hescape.of_take h
  · rintro ⟨body, rest, rfl, hbody, hfirst⟩
    exact ⟨_, hbody.regularBody_append hquote hfirst rest⟩

/-- A literal that a scan has found holds a line break exactly when an escape has taken it. -/
theorem exists_isLineBreak_iff (hquote : isLineBreak quote = false)
    (h : regularBody quote first cs = some n) :
    (∃ c ∈ cs.take n, isLineBreak c = true) ↔ EscapesLineBreak quote first (cs.take n) := by
  constructor
  · rintro ⟨c, hc, hbreak⟩
    rcases cases_of_regularBody h with ⟨body, rest, rfl, rfl, hbody, -⟩ | hescape
    · have htake : (body ++ quote :: rest).take (body.length + 1) = body ++ [quote] := by
        rw [List.take_length_add_append]
        rfl
      rw [htake, List.mem_append, List.mem_singleton] at hc
      rcases hc with hc | rfl
      · rw [hbody.isLineBreak_eq_false c hc] at hbreak
        cases hbreak
      · rw [hquote] at hbreak
        cases hbreak
    · exact hescape
  · rintro ⟨body, c, rest, hcs, -, hc⟩
    exact ⟨c, by simp [hcs], hc⟩

/-! ## The literal behind a quote

What holds between the quotes is brought to the token that starts with the quote, and to the fault
when there is none. -/

/-- The quote opens a regular literal of a kind, and the fault is reported if it is not closed. -/
def Opens (quote : Char) (kind : TokenKind) (fault : LexFault) : Prop :=
  (quote = '"' ∧ kind = .stringLiteral ∧ fault = .unterminatedString) ∨
    (quote = '\'' ∧ kind = .characterLiteral ∧ fault = .unterminatedCharacter)

variable {kind : TokenKind} {fault : LexFault}

theorem Opens.ne (h : Opens quote kind fault) :
    quote ≠ '\\' ∧ quote ≠ '/' ∧ isLineBreak quote = false := by
  rcases h with ⟨rfl, -⟩ | ⟨rfl, -⟩ <;> decide

/-- The scan of a token that starts with a quote. -/
theorem Opens.scanToken_eq (h : Opens quote kind fault) (cs : List Char) :
    scanToken quote cs =
      match regularBody quote (quote = '\'') cs with
      | some n => .ok (kind, n)
      | none => .error fault := by
  rcases h with ⟨rfl, rfl, rfl⟩ | ⟨rfl, rfl, rfl⟩
  · have hscan : scanToken '"' cs = match plainBody cs with
        | some n => .ok (.stringLiteral, n)
        | none => .error .unterminatedString := rfl
    rw [hscan, plainBody_eq_regularBody]
    simp
  · have hscan : scanToken '\'' cs = match characterBody true cs with
        | some n => .ok (.characterLiteral, n)
        | none => .error .unterminatedCharacter := rfl
    rw [hscan, characterBody_eq_regularBody]
    simp

end Literal

/-- The token is a character literal, or a string literal with no mark in front of its quote. -/
def Token.IsRegular (t : Token) : Prop :=
  t.kind = .characterLiteral ∨ (t.kind = .stringLiteral ∧ t.text.toList.head? = some '"')

namespace Lexer

open Literal

variable {pos offset n : Nat} {b : Bool} {cs rest w : List Char} {c : Char}

/-- A character literal starts with its quote. -/
theorem eq_of_scanToken_characterLiteral (h : scanToken c cs = .ok (.characterLiteral, n)) :
    c = '\'' := by
  unfold scanToken at h
  grind

/-- `Begins pos b cs offset c rest`: the lexer, given `cs` at byte `pos`, comes to `c` at byte
`offset` as the first character of a token, with `rest` behind it. -/
inductive Begins : Nat → Bool → List Char → Nat → Char → List Char → Prop where
  | here (pos : Nat) (b : Bool) (cs : List Char) (before : List Trivia) (c : Char)
      (rest : List Char) (hlead : leading b cs = (before, c :: rest))
      (hopen : ¬ (c = '/' && rest.head? = some '*') = true) :
      Begins pos b cs (pos + Trivia.width before) c rest
  | later (pos : Nat) (b : Bool) (cs : List Char) (before after : List Trivia) (c d : Char)
      (rest remaining more : List Char) (kind : TokenKind) (n offset : Nat)
      (hlead : leading b cs = (before, c :: rest))
      (hopen : ¬ (c = '/' && rest.head? = some '*') = true)
      (hscan : scanToken c rest = .ok (kind, n))
      (htrail : trailing (rest.drop n) = (after, remaining))
      (htail : Begins
        (pos + Trivia.width before + (textOf c rest n).utf8ByteSize + Trivia.width after)
        (Trivia.hasEndOfLine after) remaining offset d more) :
      Begins pos b cs offset d more

section Steps

variable {before after : List Trivia} {remaining : List Char} {kind : TokenKind} {fault : LexFault}

/-- A token begins behind the trivia, but its scan fails. -/
theorem tokensFrom_of_error (hlead : leading b cs = (before, c :: rest))
    (hopen : ¬ (c = '/' && rest.head? = some '*') = true) (hscan : scanToken c rest = .error fault)
    (pos : Nat) : tokensFrom pos b cs = .error ⟨fault, pos + Trivia.width before⟩ := by
  fun_cases tokensFrom pos b cs <;> grind

/-- A token is found behind the trivia. -/
theorem tokensFrom_of_ok (hlead : leading b cs = (before, c :: rest))
    (hopen : ¬ (c = '/' && rest.head? = some '*') = true)
    (hscan : scanToken c rest = .ok (kind, n))
    (htrail : trailing (rest.drop n) = (after, remaining)) (pos : Nat) :
    tokensFrom pos b cs =
      match tokensFrom
          (pos + Trivia.width before + (textOf c rest n).utf8ByteSize + Trivia.width after)
          (Trivia.hasEndOfLine after) remaining with
      | .error e => .error e
      | .ok tokens =>
        .ok (⟨kind, textOf c rest n, pos + Trivia.width before, before, after⟩ :: tokens) := by
  fun_cases tokensFrom pos b cs <;> grind

end Steps

namespace Begins

/-- **A scan that fails where a token begins is what is reported.** -/
theorem tokensFrom_error {fault : LexFault} (h : Begins pos b cs offset c rest)
    (hscan : scanToken c rest = .error fault) : tokensFrom pos b cs = .error ⟨fault, offset⟩ := by
  induction h with
  | here pos b cs before c rest hlead hopen => exact tokensFrom_of_error hlead hopen hscan pos
  | later pos b cs before after c d rest remaining more kind n offset hlead hopen hscan' htrail
      htail ih =>
    rw [tokensFrom_of_ok hlead hopen hscan' htrail, ih hscan]

/-- **No fault is reported where a scan succeeds.** -/
theorem offset_ne {kind : TokenKind} {e : LexError} (h : Begins pos b cs offset c rest)
    (hscan : scanToken c rest = .ok (kind, n)) (he : tokensFrom pos b cs = .error e) :
    e.offset ≠ offset := by
  induction h with
  | here pos b cs before c rest hlead hopen =>
    rw [tokensFrom_of_ok hlead hopen hscan rfl] at he
    split at he
    next e' he' =>
      obtain rfl := Except.error.inj he
      obtain ⟨front, -, -, hoffset⟩ := exists_split_of_tokensFrom he'
      have htext : 0 < (textOf c rest n).utf8ByteSize := by
        rw [textOf, utf8ByteSize_ofList]
        exact byteLength_pos_iff.mpr (List.cons_ne_nil _ _)
      omega
    next => cases he
  | later pos b cs before after c d rest remaining more kind' n' offset hlead hopen hscan' htrail
      htail ih =>
    rw [tokensFrom_of_ok hlead hopen hscan' htrail] at he
    split at he
    next e' he' =>
      obtain rfl := Except.error.inj he
      exact ih hscan he'
    next => cases he

/-- The place lies in front of the character. -/
theorem exists_split (h : Begins pos b cs offset c rest) :
    ∃ front, cs = front ++ c :: rest ∧ offset = pos + byteLength front := by
  induction h with
  | here pos b cs before c rest hlead hopen =>
    have hcs := leading_spells b cs
    rw [hlead] at hcs
    exact ⟨Trivia.chars before, hcs.symm, by rw [Trivia.byteLength_chars]⟩
  | later pos b cs before after c d rest remaining more kind n offset hlead hopen hscan htrail
      htail ih =>
    obtain ⟨front, hremaining, rfl⟩ := ih
    have hcs := leading_spells b cs
    have hrest := trailing_spells (rest.drop n)
    rw [hlead] at hcs
    rw [htrail] at hrest
    refine ⟨Trivia.chars before ++ (c :: rest.take n) ++ Trivia.chars after ++ front, ?_, ?_⟩
    · have htoken : c :: rest =
          (c :: rest.take n) ++ (Trivia.chars after ++ (front ++ d :: more)) := by
        rw [← hremaining, hrest, List.cons_append, List.take_append_drop]
      rw [← hcs, htoken]
      simp
    · rw [textOf, utf8ByteSize_ofList, byteLength_append, byteLength_append, byteLength_append,
        Trivia.byteLength_chars, Trivia.byteLength_chars]
      omega

end Begins

/-- A regular literal that is found opens with its quote, and its scan goes through the rest. -/
theorem exists_opens_of_mem {source : String} {tokens : List Token} {t : Token}
    (h : tokenize source = .ok tokens) (ht : t ∈ tokens) (hregular : t.IsRegular) :
    ∃ quote fault body rest, Opens quote t.kind fault ∧ t.text.toList = quote :: body ∧
      regularBody quote (quote = '\'') (body ++ rest) = some body.length := by
  have hkind : t.kind ≠ .endOfFile := by
    rcases hregular with h | ⟨h, -⟩ <;> simp [h]
  obtain ⟨quote, body, rest, htext, hscan⟩ := (lexed_of_tokenize h).exists_scan_of_mem ht hkind
  have htext' : t.text.toList = quote :: body := by rw [htext, String.toList_ofList]
  obtain ⟨fault, hopens⟩ : ∃ fault, Opens quote t.kind fault := by
    rcases hregular with hcharacter | ⟨hstring, hhead⟩
    · rw [hcharacter] at hscan
      exact ⟨_, .inr ⟨eq_of_scanToken_characterLiteral hscan, hcharacter, rfl⟩⟩
    · rw [htext', List.head?_cons] at hhead
      exact ⟨_, .inl ⟨Option.some.inj hhead, hstring, rfl⟩⟩
  refine ⟨quote, fault, body, rest, hopens, htext', ?_⟩
  rw [hopens.scanToken_eq] at hscan
  split at hscan
  next n hn => rw [hn, (Prod.mk.inj (Except.ok.inj hscan)).2]
  next => cases hscan

end Lexer

open Literal

/-- **A regular literal ends on its line, unless it escapes the end of the line.**  In a source
that has tokens, a plain string or a character literal holds a line break exactly when one of its
escapes takes that along.  At every place where the lexer comes to the opening quote of such a
literal, and no escape takes the end of the line, the source is refused as unterminated at that
quote exactly when the literal is not closed on the line. -/
theorem regular_literals_end_on_line (source : String) :
    (∀ tokens, tokenize source = .ok tokens → ∀ t ∈ tokens, t.IsRegular →
      ∃ quote fault body, Opens quote t.kind fault ∧ t.text.toList = quote :: body ∧
        ((∃ c ∈ t.text.toList, isLineBreak c = true) ↔
          EscapesLineBreak quote (quote = '\'') body)) ∧
    (∀ offset quote kind fault rest, Begins 0 true source.toList offset quote rest →
      Opens quote kind fault → ¬ EscapesLineBreak quote (quote = '\'') rest →
      (∃ front, source.toList = front ++ quote :: rest ∧ offset = byteLength front) ∧
        (tokenize source = .error ⟨fault, offset⟩ ↔ ¬ ClosedOnLine quote (quote = '\'') rest)) := by
  constructor
  · intro tokens h t ht hregular
    obtain ⟨quote, fault, body, rest, hopens, htext, hbody⟩ := exists_opens_of_mem h ht hregular
    refine ⟨quote, fault, body, hopens, htext, ?_⟩
    have hbreaks := exists_isLineBreak_iff hopens.ne.2.2 hbody
    rw [List.take_left] at hbreaks
    simp [htext, hopens.ne.2.2, ← hbreaks]
  · intro offset quote kind fault rest hbegins hopens hescape
    refine ⟨by simpa using hbegins.exists_split, ?_⟩
    rw [← isSome_regularBody_iff hopens.ne.1 hescape]
    have hscan := hopens.scanToken_eq rest
    cases hbody : regularBody quote (quote = '\'') rest with
    | none =>
      rw [hbody] at hscan
      have herror : tokenize source = .error ⟨fault, offset⟩ := hbegins.tokensFrom_error hscan
      simpa using herror
    | some n =>
      rw [hbody] at hscan
      have hne : tokenize source ≠ .error ⟨fault, offset⟩ :=
        fun he => hbegins.offset_ne hscan he rfl
      simpa using hne

/-- A string with an escaped quote stands on its line, and one that the line cuts off is reported
where it opens. -/
theorem regular_literals_end_on_line_cut :
    (∃ tokens t, tokenize "f(\"a\\\"\");" = .ok tokens ∧ t ∈ tokens ∧ t.IsRegular ∧
      ∃ quote fault body, Opens quote t.kind fault ∧ t.text.toList = quote :: body ∧
        ((∃ c ∈ t.text.toList, isLineBreak c = true) ↔
          EscapesLineBreak quote (quote = '\'') body)) ∧
    (Begins 0 true "x = \"a;\n".toList 4 '"' ['a', ';', '\n'] ∧
      Opens '"' .stringLiteral .unterminatedString ∧
      ¬ EscapesLineBreak '"' false ['a', ';', '\n'] ∧
      ((∃ front, "x = \"a;\n".toList = front ++ ['"', 'a', ';', '\n'] ∧ 4 = byteLength front) ∧
        (tokenize "x = \"a;\n" = .error ⟨.unterminatedString, 4⟩ ↔
          ¬ ClosedOnLine '"' false ['a', ';', '\n']))) := by
  constructor
  · cases h : tokenize "f(\"a\\\"\");" with
    | error e =>
      have hok : (tokenize "f(\"a\\\"\");").toOption.isSome = true := by decide +kernel
      rw [h] at hok
      cases hok
    | ok tokens =>
      have hany : ((tokenize "f(\"a\\\"\");").toOption.any fun ts =>
          ts.any fun t => t.kind == .stringLiteral && t.text.toList.head? == some '"') = true := by
        decide +kernel
      rw [h] at hany
      obtain ⟨t, ht, hstring⟩ : ∃ t ∈ tokens,
          t.kind = .stringLiteral ∧ t.text.toList.head? = some '"' := by
        simpa [Except.toOption] using hany
      exact ⟨tokens, t, rfl, ht, .inr hstring,
        (regular_literals_end_on_line _).1 tokens h t ht (.inr hstring)⟩
  · have hbegins : Begins 0 true "x = \"a;\n".toList 4 '"' ['a', ';', '\n'] := by
      refine .later 0 true _ [] [⟨.whitespace, " "⟩] 'x' '"' " = \"a;\n".toList
        "= \"a;\n".toList _ .identifier 0 4 ?_ ?_ ?_ ?_ ?_
      · decide +kernel
      · decide +kernel
      · decide +kernel
      · decide +kernel
      refine .later _ _ _ [] [⟨.whitespace, " "⟩] '=' '"' " \"a;\n".toList
        "\"a;\n".toList _ .punctuation 0 4 ?_ ?_ ?_ ?_ ?_
      · decide +kernel
      · decide +kernel
      · decide +kernel
      · decide +kernel
      exact .here 4 false "\"a;\n".toList [] '"' _ (by decide +kernel) (by decide +kernel)
    have hopens : Opens '"' .stringLiteral .unterminatedString := .inl ⟨rfl, rfl, rfl⟩
    have hescape : ¬ EscapesLineBreak '"' false ['a', ';', '\n'] := by
      rintro ⟨body, c, rest, hcs, -, -⟩
      have hslash : '\\' ∈ ['a', ';', '\n'] := by simp [hcs]
      revert hslash
      decide
    exact ⟨hbegins, hopens, hescape,
      (regular_literals_end_on_line _).2 4 '"' _ _ _ hbegins hopens hescape⟩

/-- A string goes on in the next line when a backslash stands in front of the line break. -/
theorem escape_takes_line_break :
    ¬ ∀ (source : String) (tokens : List Token), tokenize source = .ok tokens →
      ∀ t ∈ tokens, t.IsRegular → ∀ c ∈ t.text.toList, isLineBreak c = false := by
  intro hall
  have hany : ((tokenize "x = \"a\\\nb\";").toOption.any fun ts => ts.any fun t =>
      t.kind == .stringLiteral && t.text.toList.head? == some '"' &&
        t.text.toList.any isLineBreak) = true := by
    decide +kernel
  cases h : tokenize "x = \"a\\\nb\";" with
  | error e =>
    rw [h] at hany
    cases hany
  | ok tokens =>
    rw [h] at hany
    obtain ⟨t, ht, hregular, c, hc, hbreak⟩ : ∃ t ∈ tokens,
        (t.kind = .stringLiteral ∧ t.text.toList.head? = some '"') ∧
          ∃ c ∈ t.text.toList, isLineBreak c = true := by
      simpa [Except.toOption, and_assoc] using hany
    have hnone := hall _ tokens h t ht (.inr hregular) c hc
    rw [hbreak] at hnone
    cases hnone

end CodeMend
