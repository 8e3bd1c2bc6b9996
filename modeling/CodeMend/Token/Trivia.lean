import CodeMend.Text.Bytes

/-!
# CodeMend — trivia

Blanks, line breaks, comments and directives have no meaning of their own.  They are kept in lists
attached to the tokens around them: a token owns what stands before it and, up to and with the line
break, what follows it.  `Trivia.afterRemoval` decides what stays of the lists of a token that is
taken out.
-/

namespace CodeMend

inductive TriviaKind where
  | whitespace
  | endOfLine
  /-- From two slashes up to the line break. -/
  | singleLineComment
  /-- Between a slash with a star and a star with a slash. -/
  | multiLineComment
  /-- From a hash at the start of a line up to the line break. -/
  | directive
deriving DecidableEq, Repr

/-- One piece of trivia. -/
structure Trivia where
  kind : TriviaKind
  text : String
deriving DecidableEq, Repr

namespace Trivia

def isComment (t : Trivia) : Bool :=
  t.kind == .singleLineComment || t.kind == .multiLineComment

def isWhitespace (t : Trivia) : Bool := t.kind == .whitespace

def isEndOfLine (t : Trivia) : Bool := t.kind == .endOfLine

/-- The text of a list of pieces. -/
def render (ts : List Trivia) : String := String.join (ts.map Trivia.text)

/-- The number of bytes of a list of pieces. -/
def width (ts : List Trivia) : Nat := ts.foldr (fun t n => t.text.utf8ByteSize + n) 0

/-- The list is one blank and nothing else. -/
def isSingleSpace (ts : List Trivia) : Bool := ts == [⟨.whitespace, " "⟩]

def hasComments (ts : List Trivia) : Bool := ts.any isComment

def hasEndOfLine (ts : List Trivia) : Bool := ts.any isEndOfLine

/-- The comments of a list, in order. -/
def comments (ts : List Trivia) : List Trivia := ts.filter isComment

/-- What stands before the next token when a token is taken out: what stood before the removed
token, what followed it unless that was a single blank, and what stood before the next one. -/
def afterRemoval (leading trailing next : List Trivia) : List Trivia :=
  leading ++ (if isSingleSpace trailing then [] else trailing) ++ next

/-- The pieces through the last line break, and those after it. -/
def splitAtLastLine (ts : List Trivia) : List Trivia × List Trivia :=
  let tail := (ts.reverse.takeWhile fun t => !t.isEndOfLine).reverse
  (ts.take (ts.length - tail.length), tail)

/-- What stands before a token, without and with only the indentation of the token's line.  When
more than blanks stand on that line there is no indentation. -/
def splitIndentation (ts : List Trivia) : List Trivia × List Trivia :=
  let (head, tail) := splitAtLastLine ts
  if tail.all isWhitespace then (head, tail) else (ts, [])

/-- The text of the list, or a single blank when it holds blanks only. -/
def orSingleSpace (ts : List Trivia) : String :=
  if ts.all isWhitespace then " " else render ts

end Trivia

end CodeMend
