/-!
# CodeMend — byte spans

A span is a half-open range of byte offsets of one document.  Two spans that only touch do not
overlap; an empty span overlaps a span only when it lies strictly inside it.
-/

namespace CodeMend

/-- The byte offsets from `start` up to, and without, `stop`. -/
structure Span where
  start : Nat
  stop : Nat
deriving DecidableEq, Repr, Inhabited

namespace Span

/-- A span whose ends are in order; there is none when they are not. -/
def ofBounds? (start stop : Nat) : Option Span :=
  if start ≤ stop then some ⟨start, stop⟩ else none

/-- The span without bytes at an offset. -/
def empty (offset : Nat) : Span := ⟨offset, offset⟩

/-- The number of bytes covered. -/
def length (s : Span) : Nat := s.stop - s.start

def isEmpty (s : Span) : Bool := s.start == s.stop

/-- Two spans overlap when they share a byte.  An empty span overlaps another span when it lies
strictly inside it, and another empty span when both stand at the same offset. -/
def overlaps (a b : Span) : Bool :=
  if a.isEmpty && b.isEmpty then a.start == b.start
  else if a.isEmpty then b.start < a.start && a.start < b.stop
  else if b.isEmpty then a.start < b.start && b.start < a.stop
  else a.start < b.stop && b.start < a.stop

/-- The second span lies within the first. -/
def contains (a b : Span) : Bool := a.start ≤ b.start && b.stop ≤ a.stop

/-- The offset is that of a byte of the span. -/
def containsOffset (s : Span) (offset : Nat) : Bool := s.start ≤ offset && offset < s.stop

/-- The smallest span around both. -/
def cover (a b : Span) : Span := ⟨min a.start b.start, max a.stop b.stop⟩

/-- A span is shown as a half-open interval. -/
def render (s : Span) : String :=
  "[" ++ toString s.start ++ ", " ++ toString s.stop ++ ")"

/-- Spans are ordered by start, then by end. -/
def compare (a b : Span) : Ordering :=
  (Ord.compare a.start b.start).then (Ord.compare a.stop b.stop)

end Span

end CodeMend
