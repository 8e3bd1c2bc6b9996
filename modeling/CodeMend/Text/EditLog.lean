import CodeMend.Text.Edit

/-!
# CodeMend — the log of an edited document

A document is edited step by step, each replacement speaking of the text as it stands.  The log
keeps the text as runs of the base, the text before the first step, and runs that were inserted, so
that it can say at any time what changed with respect to the base: runs of the base never change
their order, and the gaps between them are the changed regions.
-/

namespace CodeMend

/-- A run of the current text. -/
inductive Piece where
  /-- Bytes of the base, from `start` up to `stop`. -/
  | kept (start stop : Nat)
  /-- Text that was put in. -/
  | inserted (text : String)
deriving DecidableEq, Repr

namespace Piece

def length : Piece → Nat
  | .kept start stop => stop - start
  | .inserted text => text.utf8ByteSize

/-- The part of a run between two offsets counted from its start. -/
def slice? (lo hi : Nat) : Piece → Option Piece
  | .kept start _ => some (.kept (start + lo) (start + hi))
  | .inserted text => (extract? text lo hi).map .inserted

end Piece

/-- A document under edit. -/
structure EditLog where
  /-- The text before the first edit. -/
  base : String
  current : String
  pieces : List Piece
deriving DecidableEq, Repr

namespace EditLog

/-- The log of a document that was not edited yet. -/
def ofText (text : String) : EditLog :=
  ⟨text, text, if text.isEmpty then [] else [.kept 0 text.utf8ByteSize]⟩

def isUnchanged (log : EditLog) : Bool := log.current == log.base

/-- The piece that holds a replacement text; an empty text has none. -/
def insertion (text : String) : List Piece :=
  if text.isEmpty then [] else [.inserted text]

/-- Replace a span in a run of pieces that starts at `pos`.  The new text comes after the first
piece that reaches the start of the span; `placed` tells whether it stands already. -/
def splice? (span : Span) (text : String) : Nat → Bool → List Piece → Option (List Piece)
  | _, placed, [] => some (if placed then [] else insertion text)
  | pos, placed, p :: ps => do
    let stop := pos + p.length
    let front ← if pos < span.start then (p.slice? 0 (min p.length (span.start - pos))).map ([·])
      else some []
    -- The new text goes to the first piece that reaches the start of the span, and only once.
    let here := !placed && decide (span.start ≤ stop)
    let back ← if stop > span.stop then
        (p.slice? (max span.stop pos - pos) p.length).map ([·])
      else some []
    let rest ← splice? span text stop (placed || here) ps
    return front ++ (if here then insertion text else []) ++ back ++ rest

/-- Replace a span of the current text. -/
def replace (log : EditLog) (span : Span) (text : String) : Except EditError EditLog := do
  checkSpan log.current span
  match splice? span text 0 false log.pieces,
      replaceSpan? log.current.toList span text.toList with
  | some pieces, some current =>
    return { log with
      pieces := pieces.filter (0 < ·.length)
      current := String.ofList current }
  | _, _ => .error .brokenRecord

/-- The edit that turns a region of the base into `text`: none when nothing changes there. -/
def regionEdit? (base : String) (lo hi : Nat) (text : String) : Option (List TextEdit) := do
  let old ← extract? base lo hi
  return if old = text then [] else [⟨⟨lo, hi⟩, text⟩]

/-- The edits of the regions between the runs of the base, from an offset on.  `pending` is
the text inserted since the last run. -/
def gaps? (base : String) : Nat → Option String → List Piece → Option (List TextEdit)
  | offset, pending, [] =>
    if offset ≠ base.utf8ByteSize || pending.isSome then
      regionEdit? base offset base.utf8ByteSize (pending.getD "")
    else some []
  | offset, pending, .inserted text :: ps =>
    gaps? base offset (some (pending.getD "" ++ text)) ps
  | offset, pending, .kept start stop :: ps => do
    -- A part of the base was passed over, or something was inserted: that is an edit.
    let here ← if start ≠ offset || pending.isSome then
        regionEdit? base offset start (pending.getD "")
      else some []
    let rest ← gaps? base stop none ps
    return here ++ rest

/-- The net change as edits of the base, in ascending order.  A region whose text is what it
was before counts as unchanged. -/
def edits? (log : EditLog) : Option (List TextEdit) :=
  gaps? log.base 0 none log.pieces

/-- Walk the pieces to the one that holds an offset of the current text.  `pos` is where the next
piece starts and `last` the end of the last run of the base. -/
def baseOffsetFrom (offset : Nat) : Nat → Nat → List Piece → Option Nat × Nat
  | _, last, [] => (none, last)
  | pos, last, p :: ps =>
    match p with
    | .kept start stop =>
      if offset < pos + p.length then (some (start + (offset - pos)), stop)
      else baseOffsetFrom offset (pos + p.length) stop ps
    | .inserted _ =>
      if offset < pos + p.length then (some last, last)
      else baseOffsetFrom offset (pos + p.length) last ps

/-- The offset of the base that an offset of the current text stands for.  Inserted text
stands for the start of the region it changed. -/
def baseOffset (log : EditLog) (offset : Nat) : Nat :=
  match baseOffsetFrom offset 0 0 log.pieces with
  | (some o, _) => o
  | (none, last) => max last (min offset log.base.utf8ByteSize)

end EditLog

end CodeMend
