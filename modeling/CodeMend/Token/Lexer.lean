import CodeMend.Text.Unicode.Classes
import CodeMend.Token.Basic
import CodeMend.Token.Literal

/-!
# CodeMend — splitting a source into tokens

Every character of a source ends up in the text of one token or in a piece of its trivia, so
writing the tokens out gives the source back.  The scanners look at the first character of a text
and tell how many characters after it belong to the same token or piece; cutting there always takes
at least one character away.

`length_leading_le` and `length_trailing_le` say that trivia leaves no more text than there was.
-/

namespace CodeMend

/-- Why a source cannot be split into tokens. -/
inductive LexFault where
  | unterminatedComment
  | unterminatedString
  | unterminatedCharacter
  | unexpected (c : Char)
deriving DecidableEq, Repr

/-- A fault and the byte offset at which it lies. -/
structure LexError where
  fault : LexFault
  offset : Nat
deriving DecidableEq, Repr

def LexFault.message : LexFault → String
  | .unterminatedComment => "unterminated comment"
  | .unterminatedString => "unterminated string literal"
  | .unterminatedCharacter => "unterminated character literal"
  | .unexpected c => "unexpected character " ++ Unicode.quoted c

def LexError.message (e : LexError) : String :=
  e.fault.message ++ " at byte " ++ toString e.offset

namespace Lexer

open Literal

/-! ## Trivia

Trivia behind a token goes up to the end of its line, and the rest is that in front of the next
token. -/

/-- The blanks of a line, the byte order mark among them. -/
def isSpace (c : Char) : Bool :=
  c = ' ' || c = '\t' || c.toNat = 0x0B || c.toNat = 0x0C || c.toNat = 0xFEFF || c.toNat = 0xA0

/-- The rest of a comment through the star and slash that close it. -/
def commentBody : List Char → Option Nat
  | [] => none
  | c :: cs =>
    if c = '*' ∧ cs.head? = some '/' then some 2 else (commentBody cs).map (· + 1)

/-- The piece of trivia that starts with `c`, directives left aside: its kind and how many
characters it takes after `c`. -/
def scanTrivia (c : Char) (cs : List Char) : Option (TriviaKind × Nat) :=
  if isSpace c then some (.whitespace, countWhile isSpace cs)
  else if c = '\n' then some (.endOfLine, 0)
  else if c = '\r' then some (.endOfLine, if cs.head? = some '\n' then 1 else 0)
  else if c = '/' then
    match cs with
    | '/' :: rest => some (.singleLineComment, 1 + countWhile (fun d => !isLineBreak d) rest)
    | '*' :: rest => (commentBody rest).map fun n => (.multiLineComment, 1 + n)
    | _ => none
  else none

/-- A piece of trivia, which at the start of a line may be a directive. -/
def scanLeading (atLineStart : Bool) (c : Char) (cs : List Char) : Option (TriviaKind × Nat) :=
  if atLineStart && c = '#' then some (.directive, countWhile (fun d => !isLineBreak d) cs)
  else scanTrivia c cs

/-- Blanks leave the start of a line where it is, a line break comes to one. -/
def startsLine (atLineStart : Bool) : TriviaKind → Bool
  | .endOfLine => true
  | .whitespace => atLineStart
  | _ => false

/-- The first character and `n` more as a text. -/
def textOf (c : Char) (cs : List Char) (n : Nat) : String := String.ofList (c :: cs.take n)

/-- The trivia before a token, and the text after it. -/
def leading (atLineStart : Bool) : List Char → List Trivia × List Char
  | [] => ([], [])
  | c :: cs =>
    match scanLeading atLineStart c cs with
    | some (kind, n) =>
      let (pieces, rest) := leading (startsLine atLineStart kind) (cs.drop n)
      (⟨kind, textOf c cs n⟩ :: pieces, rest)
    | none => ([], c :: cs)
termination_by cs => cs.length
decreasing_by simp only [List.length_drop, List.length_cons]; omega

/-- The trivia after a token through the end of its line, and the text after it. -/
def trailing : List Char → List Trivia × List Char
  | [] => ([], [])
  | c :: cs =>
    match scanTrivia c cs with
    | some (kind, n) =>
      let piece : Trivia := ⟨kind, textOf c cs n⟩
      if kind = .endOfLine then ([piece], cs.drop n)
      else
        let (pieces, rest) := trailing (cs.drop n)
        (piece :: pieces, rest)
    | none => ([], c :: cs)
termination_by cs => cs.length
decreasing_by simp only [List.length_drop, List.length_cons]; omega

theorem length_leading_le (b : Bool) (cs : List Char) : (leading b cs).2.length ≤ cs.length := by
  fun_induction leading b cs with
  | case1 => simp
  | case2 b c cs kind n _ pieces rest heq ih =>
    simp only [heq, List.length_drop] at ih
    simp only [List.length_cons]
    omega
  | case3 => simp

theorem length_trailing_le (cs : List Char) : (trailing cs).2.length ≤ cs.length := by
  fun_induction trailing cs with
  | case1 => simp
  | case2 c cs n _ piece => simp only [List.length_drop, List.length_cons]; omega
  | case3 c cs kind n _ piece _ pieces rest heq ih =>
    simp only [heq, List.length_drop] at ih
    simp only [List.length_cons]
    omega
  | case4 => simp

/-! ## Tokens

Each sort of token has a scanner that is told the first character, and they are tried in a fixed
order. -/

def isNameStart (c : Char) : Bool := c = '_' || Unicode.isAlphabetic c

def isNamePart (c : Char) : Bool := c = '_' || Unicode.isAlphanumeric c

/-- A name whose first character is given, with or without the mark in front. -/
def name? (c : Char) (cs : List Char) : Option Nat :=
  if c = '@' then
    match cs with
    | d :: rest => if isNameStart d then some (1 + countWhile isNamePart rest) else none
    | [] => none
  else if isNameStart c then some (countWhile isNamePart cs)
  else none

/-- How many characters a mark takes after its first one.  A question mark and a point belong
together unless a digit follows, which makes the point part of a number. -/
def mark? (c : Char) (cs : List Char) : Option Nat :=
  let digitAfterPoint := match cs with
    | '.' :: d :: _ => d.isDigit
    | _ => false
  if c = '?' && cs.head? = some '.' && !digitAfterPoint then some 1
  else
    match compoundMarks.find? fun m => m.isPrefixOf (c :: cs) with
    | some m => some (m.length - 1)
    | none => if singleMarks.contains c then some 0 else none

/-- The token that starts with `c`: its kind and how many characters it takes after `c`. -/
def scanToken (c : Char) (cs : List Char) : Except LexFault (TokenKind × Nat) :=
  if c = '"' || c = '$' || (c = '@' && (cs.head? = some '"' || cs.head? = some '$')) then
    match Literal.string c cs with
    | some n => .ok (.stringLiteral, n)
    | none => .error .unterminatedString
  else if c = '\'' then
    match characterBody true cs with
    | some n => .ok (.characterLiteral, n)
    | none => .error .unterminatedCharacter
  else if c.isDigit then
    -- Only a zero begins a number of another base; without digits behind it, it is a decimal one.
    match (if c = '0' then prefixed? cs else none) with
    | some n => .ok (.integerLiteral, n)
    | none =>
      let n := decimal cs
      .ok (if isReal (c :: cs.take n) then .realLiteral else .integerLiteral, n)
  else if c = '.' && cs.head?.any Char.isDigit then .ok (.realLiteral, pointDecimal cs)
  else
    match name? c cs with
    | some n =>
      .ok (if reservedWords.contains (textOf c cs n) then .keyword else .identifier, n)
    | none =>
      match mark? c cs with
      | some n => .ok (.punctuation, n)
      | none => .error (.unexpected c)

/-- The tokens of the text from byte `pos` on. -/
def tokensFrom (pos : Nat) (atLineStart : Bool) (cs : List Char) : Except LexError (List Token) :=
  match _hl : leading atLineStart cs with
  | (before, []) => .ok [⟨.endOfFile, "", pos + Trivia.width before, before, []⟩]
  | (before, c :: rest) =>
    let offset := pos + Trivia.width before
    if c = '/' && rest.head? = some '*' then .error ⟨.unterminatedComment, offset⟩
    else
      match scanToken c rest with
      | .error fault => .error ⟨fault, offset⟩
      | .ok (kind, n) =>
        let text := textOf c rest n
        match _ht : trailing (rest.drop n) with
        | (after, remaining) =>
          match tokensFrom (offset + text.utf8ByteSize + Trivia.width after)
              (Trivia.hasEndOfLine after) remaining with
          | .error e => .error e
          | .ok tokens => .ok (⟨kind, text, offset, before, after⟩ :: tokens)
termination_by cs.length
decreasing_by
  have h1 := length_leading_le atLineStart cs
  have h2 := length_trailing_le (rest.drop n)
  simp only [_hl, List.length_cons] at h1
  simp only [_ht, List.length_drop] at h2
  omega

end Lexer

/-- The tokens of a source.  The last one, and only the last, marks the end of the file. -/
def tokenize (source : String) : Except LexError (List Token) :=
  Lexer.tokensFrom 0 true source.toList

end CodeMend
