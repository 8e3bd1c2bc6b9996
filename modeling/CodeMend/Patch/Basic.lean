import CodeMend.Tree.Views

/-!
# CodeMend — patches

A rule changes a node by patches: replacements that all speak of the text of the tree they were made
for.  A patch may ask for the blanks around its text to be tidied afterwards.
-/

namespace CodeMend

/-- Put a text in the place of a span. -/
structure Patch where
  span : Span
  text : String
  /-- The blanks around the new text are tidied afterwards. -/
  tidy : Bool := false
deriving DecidableEq, Repr, Inhabited

namespace Patch

def insert (offset : Nat) (text : String) : Patch := ⟨.empty offset, text, false⟩

/-- A deletion; the gap it leaves is tidied. -/
def delete (span : Span) : Patch := ⟨span, "", true⟩

/-- Take out a token and leave the trivia around it to the next one. -/
def deleteToken? (t : Tree) (i : TokenId) : Option Patch := do
  let removed := t.token i
  let next := t.token (← t.nextToken? i)
  return ⟨⟨removed.fullStart, next.offset⟩,
    Trivia.render (Trivia.afterRemoval removed.leading removed.trailing next.leading), true⟩

end Patch

/-- The line break that a document uses. -/
def lineEnding (source : String) : String :=
  if occursIn ['\r', '\n'] source.toList then "\r\n" else "\n"

end CodeMend
