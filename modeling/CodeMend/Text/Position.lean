import CodeMend.Text.Bytes
import CodeMend.Text.Span

/-!
# CodeMend — lines and columns

Lines and columns count from one, and a column counts characters.  `Position.ofOffset` and
`Position.toOffset` convert between positions and byte offsets; offsets past the end give the
position after the last character, and columns past the end of a line stop there.

Both are counted in 32 bits and wrap around behind the last number, which takes a text of almost
4 GiB.
-/

namespace CodeMend

/-- A place in a text, both parts counted from one. -/
structure Position where
  line : UInt32
  column : UInt32
deriving DecidableEq, Repr, Inhabited

namespace Position

/-- The position at the front of every text. -/
def first : Position := ⟨1, 1⟩

/-- The position after a character: a line feed starts the next line. -/
def advance (p : Position) (c : Char) : Position :=
  if c = '\n' then ⟨p.line + 1, 1⟩ else ⟨p.line, p.column + 1⟩

/-- The position reached from `p` after the characters that start before a byte offset. -/
def walk (p : Position) : Nat → List Char → Position
  | 0, _ => p
  | _ + 1, [] => p
  | n + 1, c :: cs => walk (p.advance c) (n + 1 - c.utf8Size) cs

/-- The position of a byte offset. -/
def ofOffset (content : String) (offset : Nat) : Position :=
  first.walk offset content.toList

/-- The offset after a number of line feeds, and the text that follows; none when the text has
fewer of them. -/
def afterLineFeeds : Nat → Nat → List Char → Option (Nat × List Char)
  | 0, offset, cs => some (offset, cs)
  | _ + 1, _, [] => none
  | n + 1, offset, c :: cs =>
    if c = '\n' then afterLineFeeds n (offset + c.utf8Size) cs
    else afterLineFeeds (n + 1) (offset + c.utf8Size) cs

/-- The bytes of the first characters of a line, at most `n` of them. -/
def columnOffset : Nat → List Char → Nat
  | 0, _ => 0
  | _ + 1, [] => 0
  | n + 1, c :: cs => if c = '\n' then 0 else c.utf8Size + columnOffset n cs

/-- The byte offset of a position.  A column past the end of its line stops at the line's end, a
line past the end of the text at the end of the text. -/
def toOffset (content : String) (p : Position) : Nat :=
  match afterLineFeeds (p.line.toNat - 1) 0 content.toList with
  | none => content.utf8ByteSize
  | some (start, line) => start + columnOffset (p.column.toNat - 1) line

end Position

/-! ## Lines of a text

Lines are found by counting line feeds in the bytes in front of an offset. -/

/-- The byte offset at which a line starts, when the text has that line. -/
def lineStart? (content : String) (line : UInt32) : Option Nat :=
  if line = 0 then none
  else (Position.afterLineFeeds (line.toNat - 1) 0 content.toList).map Prod.fst

/-- The bytes up to and with the last line feed of a text. -/
def throughLastLineFeed (cs : List Char) : Nat :=
  byteLength (cs.reverse.dropWhile (· ≠ '\n'))

/-- The offset at which the line of a byte offset starts; none inside a character.  An offset past
the end counts as the end. -/
def lineStartOf? (content : String) (offset : Nat) : Option Nat :=
  (cut? (min offset content.utf8ByteSize) content.toList).map fun (front, _) =>
    throughLastLineFeed front

/-- The blanks and tabs in front of the line of a byte offset; none inside a character. -/
def indentationAt? (content : String) (offset : Nat) : Option String := do
  let start ← lineStartOf? content offset
  let (_, rest) ← cut? start content.toList
  return String.ofList (rest.takeWhile fun c => c = ' ' || c = '\t')

/-- The first and the last line that a span touches. -/
def lineRange (content : String) (span : Span) : UInt32 × UInt32 :=
  ((Position.ofOffset content span.start).line,
    (Position.ofOffset content (max (span.stop - 1) span.start)).line)

/-- The number of lines; a final line feed ends a line and starts none. -/
def lineCount (content : String) : Nat :=
  let cs := content.toList
  let feeds := cs.count '\n'
  if cs.isEmpty then 0 else if cs.getLast? = some '\n' then feeds else feeds + 1

end CodeMend
