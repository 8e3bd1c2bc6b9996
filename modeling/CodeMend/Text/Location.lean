import CodeMend.Text.Position

/-!
# CodeMend — locations

A location names a place in a file as `path:line:col`.  The path may hold colons: the last two
parts are the numbers.
-/

namespace CodeMend

/-- A natural number of at most 32 bits in decimal, with an optional plus sign in front. -/
def parseUInt32? (cs : List Char) : Option UInt32 :=
  let digits := match cs with
    | '+' :: rest => rest
    | _ => cs
  if digits.isEmpty || !digits.all Char.isDigit then none
  else
    let value := digits.foldl (fun n c => n * 10 + (c.toNat - '0'.toNat)) 0
    if value < UInt32.size then some (.ofNat value) else none

/-- A place in a file, with the bytes it covers when they are known. -/
structure Location where
  file : String
  line : UInt32
  column : UInt32
  byteStart : Option Nat := none
  byteStop : Option Nat := none
deriving DecidableEq, Repr, Inhabited

namespace Location

/-- The location at which a span of a file's content starts. -/
def ofSpan (file content : String) (span : Span) : Location :=
  let p := Position.ofOffset content span.start
  ⟨file, p.line, p.column, some span.start, some span.stop⟩

/-- Read `path:line:col`.  The path is all that stands before the last two colons. -/
def parse? (s : String) : Option Location :=
  match (pieces ':' s.toList).reverse with
  | column :: line :: part :: parts => do
    let column ← parseUInt32? column
    let line ← parseUInt32? line
    let file := parts.foldl (fun text p => p ++ ':' :: text) part
    return ⟨String.ofList file, line, column, none, none⟩
  | _ => none

/-- Locations are ordered by file, line and column; the byte range does not count. -/
def compare (a b : Location) : Ordering :=
  (Ord.compare a.file b.file).then
    ((Ord.compare a.line b.line).then (Ord.compare a.column b.column))

/-- The location as it is written on a command line. -/
def render (l : Location) : String :=
  l.file ++ ":" ++ toString l.line ++ ":" ++ toString l.column

end Location

/-- Put an element in front of the first of a list that may come behind it. -/
def insertSorted {α : Type} (compare : α → α → Ordering) (a : α) : List α → List α
  | [] => [a]
  | b :: rest => if compare a b == .gt then b :: insertSorted compare a rest else a :: b :: rest

/-- Sort by a comparison, keeping the order of elements that compare equal. -/
def sortStable {α : Type} (compare : α → α → Ordering) (items : List α) : List α :=
  items.foldr (insertSorted compare) []

end CodeMend
