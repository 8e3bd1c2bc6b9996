import CodeMend.Text.Diff

/-!
# CodeMend — alignment of two texts by lines

The aligner that the commands make their diffs with.  Nothing else depends on which lines it takes
for the same.

Two texts are compared piece by piece, a piece being what stands between two line feeds.
`commonPieces` reads a longest common run of pieces off the table of `lengths`, from the back; of
several it takes the one that the walk meets, which prefers to leave out a piece of the old text.
`align` lays both texts out as chunks of kept, removed and added pieces.
-/

namespace CodeMend

namespace Alignment

/-- The row of the table for one piece of the old text, given the row before it.  A cell holds the
length reached with the pieces up to its own; the first row and column count a match as one. -/
def row (piece : List Char) (above : Option (Array Nat)) (new : List (List Char)) : Array Nat :=
  (new.foldl (fun (cells, j) other =>
    let cell :=
      match above with
      | none => if piece = other then 1 else if j = 0 then 0 else cells.getD (j - 1) 0
      | some up =>
        if piece = other then (if j = 0 then 1 else up.getD (j - 1) 0 + 1)
        else if j = 0 then up.getD 0 0
        else max (cells.getD (j - 1) 0) (up.getD j 0)
    (cells.push cell, j + 1)) ((#[] : Array Nat), 0)).1

/-- The table, row after row in one array. -/
def lengths (old new : List (List Char)) : Array Nat :=
  (old.foldl (fun (table, above) piece =>
    let r := row piece above new
    (table ++ r, some r)) ((#[] : Array Nat), (none : Option (Array Nat)))).1

/-- Walk back through the table with `n` and `m` pieces left, collecting the common pieces in
front of `found`.  The cell to the left of the first column is the last one of the row above. -/
def walkBack (old new : Array (List Char)) (table : Array Nat) :
    Nat → Nat → List (List Char) → List (List Char)
  | 0, _, found => found
  | _ + 1, 0, found => found
  | i + 1, j + 1, found =>
    if old.getD i [] = new.getD j [] then walkBack old new table i j (old.getD i [] :: found)
    else if i = 0 ∧ j = 0 then found
    else if i = 0 ∨ table.getD (i * new.size + j - 1) 0 > table.getD ((i - 1) * new.size + j) 0 then
      walkBack old new table (i + 1) j found
    else walkBack old new table i (j + 1) found
termination_by n m => n + m

/-- The pieces that the two texts have in common, in order. -/
def commonPieces (old new : List (List Char)) : List (List Char) :=
  walkBack old.toArray new.toArray (lengths old new) old.length new.length []

/-- Here a text of a single empty piece counts as a text without pieces. -/
def settle (pieces : List (List Char)) : List (List Char) :=
  if pieces = [[]] then [] else pieces

/-- The longest run on which all three lists agree, and what is left of each. -/
def takeSame : List (List Char) → List (List Char) → List (List Char) →
    List (List Char) × List (List Char) × List (List Char) × List (List Char)
  | l :: ls, r :: rs, c :: cs =>
    if l = c ∧ r = c then
      let (run, rest) := takeSame ls rs cs
      (l :: run, rest)
    else ([], l :: ls, r :: rs, c :: cs)
  | ls, rs, cs => ([], ls, rs, cs)

/-- The pieces before the next common one, and the rest. -/
def takeDifferent (common : List (List Char)) (side : List (List Char)) :
    List (List Char) × List (List Char) :=
  side.span fun p => some p ≠ common.head?

/-- A chunk with line feeds between the pieces, unless there are none. -/
def chunk (change : Change) (pieces : List (List Char)) : List Chunk :=
  if pieces.isEmpty then [] else [⟨change, String.ofList (['\n'].intercalate pieces)⟩]

/-- Merge the old, the new and the common pieces, at most `fuel` rounds of one kept, one removed
and one added chunk. -/
def merge : Nat → List (List Char) → List (List Char) → List (List Char) → List Chunk
  | 0, _, _, _ => []
  | fuel + 1, old, new, common =>
    if old.isEmpty && new.isEmpty then []
    else
      let (same, old, new, common) := takeSame old new common
      let (gone, old) := takeDifferent common old
      let (fresh, new) := takeDifferent common new
      chunk .kept same ++ chunk .removed gone ++ chunk .added fresh ++ merge fuel old new common

end Alignment

/-- Lay out two texts as chunks.  Every round of the merge takes a piece of one of them. -/
def align : Aligner := fun old new =>
  let o := pieces '\n' old.toList
  let n := pieces '\n' new.toList
  Alignment.merge (o.length + n.length + 1) (Alignment.settle o) (Alignment.settle n)
    (Alignment.settle (Alignment.commonPieces o n))

end CodeMend
