import CodeMend.Text.Edit
import CodeMend.Token.Lexer

/-!
# CodeMend — tidying whitespace

After a change, blanks may be doubled or left dangling.  Within given regions this module removes
blanks that run into a line break or the end of the file, keeps the indentation of a line, removes
blanks inside parentheses and reduces any other run of blanks to a single one.  Comments, directives
and line breaks stay as they are, and no blank is put where there was none.
-/

namespace CodeMend

/-- Why a text cannot be tidied. -/
inductive LayoutError where
  | lex (error : LexError)
  | edit (error : EditError)
deriving DecidableEq, Repr

def LayoutError.message : LayoutError → String
  | .lex e => "cannot format rewritten text: " ++ e.message
  | .edit e => e.message

namespace Layout

/-- A span meets a region when they share a byte or touch. -/
def touchesAny (span : Span) (regions : List Span) : Bool :=
  regions.any fun r => span.start ≤ r.stop && r.start ≤ span.stop

/-- What surrounds the trivia between two tokens. -/
structure Gap where
  afterOpenParen : Bool
  beforeCloseParen : Bool
  atEndOfFile : Bool

/-- What to put in the place of a run of blanks: none to leave it alone.  `next` is the piece after
it, `first` tells that no piece stands before it, and `before` is the character before it. -/
def tidied? (gap : Gap) (first : Bool) (before : Option Char) (text : String)
    (next : Option Trivia) : Option String :=
  let runsOut := match next with
    | some t => t.isEndOfLine
    | none => gap.atEndOfFile
  let atLineStart := match before with
    | some c => c = '\n' || c = '\r'
    | none => true
  let insideParens := (first && gap.afterOpenParen) || (next.isNone && gap.beforeCloseParen)
  -- At the end of a line nothing is left, at its start the indentation stays.
  if runsOut then some ""
  else if atLineStart then none
  else if insideParens then some ""
  else if text ≠ " " then some " "
  else none

/-- The last character of a text, or `c` when the text is empty. -/
def lastChar (c : Option Char) (text : String) : Option Char :=
  match text.toList.getLast? with
  | some d => some d
  | none => c

/-- The edits of the pieces of a gap, the first of which starts at `offset`. -/
def gapEdits (gap : Gap) (regions : List Span) :
    Bool → Nat → Option Char → List Trivia → List TextEdit
  | _, _, _, [] => []
  | first, offset, before, piece :: rest =>
    let span : Span := ⟨offset, offset + piece.text.utf8ByteSize⟩
    let here :=
      -- Only blanks are edited, and only where a region touches them.
      if piece.isWhitespace && touchesAny span regions then
        match tidied? gap first before piece.text rest.head? with
        | some text => [⟨span, text⟩]
        | none => []
      else []
    here ++ gapEdits gap regions false span.stop (lastChar before piece.text) rest

/-- The edits of all gaps before the given tokens; `previous` is the token before them. -/
def edits (regions : List Span) : Option Token → List Token → List TextEdit
  | _, [] => []
  | previous, token :: rest =>
    let gap : Gap := {
      afterOpenParen := previous.any (·.text == "(")
      beforeCloseParen := token.text == ")"
      atEndOfFile := token.kind == .endOfFile }
    let start := (previous.map Token.stop).getD 0
    let before := previous.bind fun t => lastChar none t.text
    let pieces := (previous.map Token.trailing).getD [] ++ token.leading
    gapEdits gap regions true start before pieces ++ edits regions (some token) rest

end Layout

/-- The edits that tidy the whitespace meeting any of the regions, in ascending order. -/
def layoutEdits (source : String) (regions : List Span) : Except LexError (List TextEdit) := do
  if regions.isEmpty then return []
  let tokens ← tokenize source
  return Layout.edits regions none tokens

/-- The source with the whitespace that meets any of the regions tidied. -/
def tidy (source : String) (regions : List Span) : Except LayoutError String := do
  let edits ← (layoutEdits source regions).mapError .lex
  (applyEdits source edits).mapError .edit

end CodeMend
