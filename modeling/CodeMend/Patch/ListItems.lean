import CodeMend.Patch.Basic
import CodeMend.Text.Location

/-!
# CodeMend — taking items out of a list

An item goes together with one comma: the one behind it, or for the items behind the last one that
stays, the one in front.  Where that comma carries more than blanks, what it carries stays and comes
to stand before the closing bracket.
-/

namespace CodeMend.SeparatedList

/-- Join neighbours that touch, in a list ordered by start. -/
def joinTouching : List Span → List Span
  | a :: b :: rest =>
    if a.stop == b.start then joinTouching (⟨a.start, b.stop⟩ :: rest)
    else a :: joinTouching (b :: rest)
  | spans => spans
termination_by spans => spans.length

/-- The last index below a bound that is not removed. -/
def lastKept? (remove : List Nat) : Nat → Option Nat
  | 0 => none
  | n + 1 => if remove.contains n then lastKept? remove n else some n

/-- What goes with the items behind the last one that stays: the comma behind that one and all up to
the closing bracket, or only the items when the comma carries more than blanks. -/
def tailSpans (separator close : Token) : List Span :=
  if separator.trailing.all Trivia.isWhitespace then [⟨separator.fullStart, close.fullStart⟩]
  else [separator.span, ⟨separator.fullStop, close.offset⟩]

/-- The spans that go with the removed items. -/
def removedSpans (t : Tree) (l : SeparatedList) (remove : List Nat) : List Span :=
  let itemStart := fun i => (t.token (t.firstToken (l.items.getD i 0))).fullStart
  let separator := fun i => t.token (l.separators.getD i 0)
  let close := t.token l.close
  match lastKept? remove l.items.length with
  | none => [⟨itemStart 0, close.fullStart⟩]
  | some last =>
    let front := ((List.range last).filter remove.contains).map fun i =>
      (⟨itemStart i, (separator i).fullStop⟩ : Span)
    let back := if last + 1 < l.items.length then tailSpans (separator last) close else []
    joinTouching (sortStable (fun a b => compare a.start b.start) (front ++ back))

/-- The deletions that take the items at some indices out of a list.  There are none for an index
out of range and for a list that is empty or ends in a comma. -/
def removeItems? (t : Tree) (l : SeparatedList) (remove : List Nat) : Option (List Patch) :=
  let count := l.items.length
  if count == 0 || l.separators.length + 1 != count || remove.any (fun i => count ≤ i) then none
  else some ((removedSpans t l remove).map Patch.delete)

end CodeMend.SeparatedList
