import CodeMend.Text.Bytes
import CodeMend.Text.Position
import CodeMend.Text.Location

/-!
# CodeMend — edits of a text

An edit replaces one span of a text; an edit of an empty span inserts.  `applyEdits` carries out a
batch of edits that all speak of the same text: it refuses spans that leave the text, that split a
character or that overlap, and otherwise works from the back so that earlier spans stay right.
-/

namespace CodeMend

/-- Put a new text in the place of a span. -/
structure TextEdit where
  span : Span
  newText : String
deriving DecidableEq, Repr, Inhabited

namespace TextEdit

def isInsertion (e : TextEdit) : Bool := e.span.isEmpty

/-- By how many bytes the edit makes the text longer, in signed 64-bit arithmetic: the length of
the span is taken modulo 2^64, and there is no answer when the difference leaves the range. -/
def delta? (e : TextEdit) : Option Int :=
  let d := (e.newText.utf8ByteSize : Int) - Int.bmod e.span.length UInt64.size
  if Int.bmod d UInt64.size = d then some d else none

end TextEdit

/-- Why a text cannot be edited. -/
inductive EditError where
  /-- Two edits of one batch overlap. -/
  | overlapping (first second : Span)
  /-- A span leaves the text. -/
  | outOfBounds (span : Span) (length : Nat)
  /-- A span starts or ends inside a character. -/
  | splitsCharacter (span : Span)
  /-- The record of an edited text no longer fits the text. -/
  | brokenRecord
deriving DecidableEq, Repr

namespace EditError

def message : EditError → String
  | .overlapping first second => "overlapping edits: " ++ first.render ++ " and " ++ second.render
  | .outOfBounds span length =>
    "span " ++ span.render ++ " is out of bounds for source of length " ++ toString length
  | .splitsCharacter span => "span " ++ span.render ++ " splits a UTF-8 character"
  | .brokenRecord => "the edit record does not fit its text"

end EditError

/-- The order in which a batch is carried out: from the back, and at one offset the replacement
before the insertion, so that the insertion lands in front of the replaced text. -/
def TextEdit.compareFromBack (a b : TextEdit) : Ordering :=
  (compare b.span.start a.span.start).then (compare a.isInsertion b.isInsertion)

/-- The edits of a batch from the back of the text to its front. -/
def fromBack (edits : List TextEdit) : List TextEdit :=
  sortStable TextEdit.compareFromBack edits

/-- A span that can be replaced lies within the text and on character boundaries. -/
def checkSpan (source : String) (span : Span) : Except EditError Unit :=
  if span.stop > source.utf8ByteSize then .error (.outOfBounds span source.utf8ByteSize)
  else if isBoundary source.toList span.start && isBoundary source.toList span.stop then .ok ()
  else .error (.splitsCharacter span)

/-- The first two neighbours of a sorted batch that overlap, the one further to the front first. -/
def overlappingNeighbours? : List TextEdit → Option (Span × Span)
  | a :: b :: rest =>
    if a.span.overlaps b.span then some (b.span, a.span) else overlappingNeighbours? (b :: rest)
  | _ => none

/-- Whether a batch can be applied to a text. -/
def validateEdits (source : String) (edits : List TextEdit) : Except EditError Unit := do
  edits.forM fun e => checkSpan source e.span
  match overlappingNeighbours? (fromBack edits) with
  | some (first, second) => .error (.overlapping first second)
  | none => .ok ()

/-- Put `text` in the place of a span of the characters. -/
def replaceSpan? (cs : List Char) (span : Span) (text : List Char) : Option (List Char) := do
  let (front, rest) ← cut? span.start cs
  let (_, tail) ← cut? span.length rest
  return front ++ text ++ tail

/-- Carry out a batch of edits, all of which speak of `source`. -/
def applyEdits (source : String) (edits : List TextEdit) : Except EditError String := do
  validateEdits source edits
  let result ← (fromBack edits).foldlM (fun cs e =>
    match replaceSpan? cs e.span e.newText.toList with
    | some cs => .ok cs
    | none => .error (.splitsCharacter e.span)) source.toList
  return String.ofList result

/-- Some edit of one batch overlaps some edit of the other. -/
def editsConflict (a b : List TextEdit) : Bool :=
  a.any fun x => b.any fun y => x.span.overlaps y.span

/-- An edit together with the text it replaces and the place where it does so. -/
structure PlacedEdit where
  file : String
  span : Span
  oldText : String
  newText : String
  line : UInt32
  column : UInt32
deriving DecidableEq, Repr

/-- The edit of a span of a file's content; a span that cannot be read replaces the empty text. -/
def PlacedEdit.ofSpan (file content : String) (span : Span) (newText : String) : PlacedEdit :=
  let p := Position.ofOffset content span.start
  ⟨file, span, (extract? content span.start span.stop).getD "", newText, p.line, p.column⟩

end CodeMend
