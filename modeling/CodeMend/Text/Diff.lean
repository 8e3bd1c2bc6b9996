import CodeMend.Text.Location

/-!
# CodeMend — unified diffs

The diff of two texts lists every changed line with up to three unchanged lines around it.  Changes
whose surroundings touch share a hunk.  A hunk's header gives, for each side, the first line and the
number of lines; a side without lines names the line before.  A line that ends its side without a
line feed is followed by a marker.

Which lines of the texts are the same is for an aligner to say.  It lays out both texts as chunks
of pieces, a piece being what stands between two line feeds; the diff makes lines of the pieces,
which is not the same where a text ends in a line feed, or is empty.
-/

namespace CodeMend

/-! ## Alignments

How the parts of two texts are matched is left to an aligner, which is handed in.  All that is used
of it is what chunks say: which pieces were kept, removed and added. -/

/-- What becomes of a part of a text. -/
inductive Change where
  | kept
  | removed
  | added
deriving DecidableEq, Repr

/-- Consecutive pieces with the same fate, with line feeds between them. -/
structure Chunk where
  change : Change
  text : String
deriving DecidableEq, Repr

/-- The pieces of a chunk with their fate. -/
def Chunk.entries (c : Chunk) : List (Change × List Char) :=
  (pieces '\n' c.text.toList).map (c.change, ·)

/-- A way to lay out an old and a new text as chunks. -/
abbrev Aligner := String → String → List Chunk

/-! ## Lines

Pieces are what stands between line feeds, and lines end in one.  The last piece of a text is a line
without a line feed, or none at all if it is empty. -/

/-- A line of a diff, with the number of lines of each side that come before it. -/
structure DiffLine where
  change : Change
  text : List Char
  oldBefore : Nat
  newBefore : Nat
  /-- The line ends its side of the diff, and does so without a line feed. -/
  unterminated : Bool
deriving DecidableEq, Repr

/-- One side of a comparison: its number of lines, and whether the last one lacks a line feed. -/
structure DiffSide where
  lines : Nat
  unterminated : Bool
deriving DecidableEq, Repr

def DiffSide.ofText (text : String) : DiffSide :=
  ⟨lineCount text, !text.isEmpty && text.toList.getLast? ≠ some '\n'⟩

/-- The line with this many lines before it ends the side without a line feed. -/
def DiffSide.endsOpen (side : DiffSide) (before : Nat) : Bool :=
  side.unterminated && before + 1 == side.lines

namespace Diff

/-- Unchanged lines shown on either side of a change. -/
def context : Nat := 3

/-- How far the two sides were read: pieces of the alignment and lines of the diff. -/
structure Progress where
  oldPieces : Nat := 0
  newPieces : Nat := 0
  oldLines : Nat := 0
  newLines : Nat := 0

/-- The line for a piece with the given fate. -/
def lineAt (old new : DiffSide) (p : Progress) (change : Change) (text : List Char) : DiffLine :=
  ⟨change, text, p.oldLines, p.newLines,
    match change with
    | .added => new.endsOpen p.newLines
    | _ => old.endsOpen p.oldLines⟩

/-- The lines for one piece.  The empty piece after a final line feed is no line; a kept piece that
ends only one side without a line feed is removed and added again. -/
def step (old new : DiffSide) (p : Progress) (change : Change) (text : List Char) :
    List DiffLine × Progress :=
  let inOld := change ≠ .added && decide (p.oldPieces < old.lines)
  let inNew := change ≠ .removed && decide (p.newPieces < new.lines)
  let p := { p with
    oldPieces := if change = .added then p.oldPieces else p.oldPieces + 1
    newPieces := if change = .removed then p.newPieces else p.newPieces + 1 }
  let pastOld := { p with oldLines := p.oldLines + 1 }
  let pastNew := { p with newLines := p.newLines + 1 }
  let pastBoth := { pastOld with newLines := p.newLines + 1 }
  match inOld, inNew with
  | true, true =>
    -- The same text, but with a line end on one side only, is not the same line.
    if old.endsOpen p.oldLines == new.endsOpen p.newLines then
      ([lineAt old new p .kept text], pastBoth)
    else ([lineAt old new p .removed text, lineAt old new pastOld .added text], pastBoth)
  | true, false => ([lineAt old new p .removed text], pastOld)
  | false, true => ([lineAt old new p .added text], pastNew)
  | false, false => ([], p)

/-- The lines for a list of pieces with their fates. -/
def linesFrom (old new : DiffSide) : Progress → List (Change × List Char) → List DiffLine
  | _, [] => []
  | p, (change, text) :: rest =>
    let (lines, p) := step old new p change text
    lines ++ linesFrom old new p rest

/-- All lines of the comparison of two texts. -/
def lines (align : Aligner) (old new : String) : List DiffLine :=
  linesFrom (.ofText old) (.ofText new) {} ((align old new).flatMap Chunk.entries)

/-! ## Hunks

Changed lines with little between them are shown together, with some lines around them, and each
such hunk has a header with the ranges of both sides. -/

/-- The numbers of the lines that are not kept, counted from `i`. -/
def changedFrom : Nat → List DiffLine → List Nat
  | _, [] => []
  | i, l :: ls => if l.change = .kept then changedFrom (i + 1) ls else i :: changedFrom (i + 1) ls

/-- The line ranges of the hunks, each from its first line up to, and without, its last.  `current`
is the hunk that the next change may still join. -/
def group (total : Nat) : Option (Nat × Nat) → List Nat → List (Nat × Nat)
  | current, [] => current.toList
  | current, i :: rest =>
    let lo := i - context
    let hi := min (i + context + 1) total
    match current with
    | some (start, stop) =>
      if lo ≤ stop then group total (some (start, hi)) rest
      else (start, stop) :: group total (some (lo, hi)) rest
    | none => group total (some (lo, hi)) rest

/-- A side of a hunk header: the first line and the number of lines. -/
def range (before count : Nat) : String :=
  toString (if count = 0 then before else before + 1) ++ "," ++ toString count

def renderLine (l : DiffLine) : String :=
  (match l.change with
    | .kept => " "
    | .removed => "-"
    | .added => "+") ++ String.ofList l.text ++ "\n" ++
  (if l.unterminated then "\\ No newline at end of file\n" else "")

/-- A hunk: its header, then its lines. -/
def renderHunk (hunk : List DiffLine) : String :=
  let oldBefore := (hunk.head?.map DiffLine.oldBefore).getD 0
  let newBefore := (hunk.head?.map DiffLine.newBefore).getD 0
  let old := hunk.countP (·.change ≠ .added)
  let new := hunk.countP (·.change ≠ .removed)
  "@@ -" ++ range oldBefore old ++ " +" ++ range newBefore new ++ " @@\n" ++
    String.join (hunk.map renderLine)

end Diff

/-- The unified diff of a file's content before and after; it is empty when nothing changed. -/
def unifiedDiff (align : Aligner) (path old new : String) : String :=
  if old = new then ""
  else
    let lines := Diff.lines align old new
    let changed := Diff.changedFrom 0 lines
    if changed.isEmpty then ""
    else
      "--- a/" ++ path ++ "\n+++ b/" ++ path ++ "\n" ++
        String.join ((Diff.group lines.length none changed).map fun (lo, hi) =>
          Diff.renderHunk ((lines.drop lo).take (hi - lo)))

/-- A file whose content changes. -/
structure FileChange where
  path : String
  old : String
  new : String
deriving DecidableEq, Repr

/-- The diffs of several files one after the other, ordered by path. -/
def unifiedDiffs (align : Aligner) (files : List FileChange) : String :=
  String.join ((sortStable (fun a b => compare a.path b.path) files).map fun f =>
    unifiedDiff align f.path f.old f.new)

end CodeMend
