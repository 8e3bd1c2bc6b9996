import CodeMend.Json.Number

/-!
# CodeMend — reading JSON

The text of a value, with blanks between its parts, is read from the front.  Each reader gives what
it has read together with the rest of the text, and nothing when the text has another form.  Members
of an object are sorted by name; of two with one name the later one counts.

* **`Json.parse?`** — the value that a text spells.
-/

namespace CodeMend.Json

/-- A reader of something at the front of a text. -/
abbrev Reader (α : Type) := List Char → Option (α × List Char)

/-- The text behind the blanks at its front. -/
def skipBlanks (cs : List Char) : List Char :=
  cs.dropWhile fun c => c = ' ' || c = '\n' || c = '\t' || c = '\r'

/-! ## String literals

A literal is read in two steps: first its pieces, which are characters and code units, and then the
characters that these spell.  Two code units may make one character. -/

/-- A piece of a string literal. -/
inductive Piece where
  | char (c : Char)
  /-- A code unit of 16 bits in hexadecimal. -/
  | unit (n : Nat)
deriving DecidableEq, Repr

/-- The value of a hexadecimal digit. -/
def hexValue? (c : Char) : Option Nat :=
  if c.isDigit then some (c.toNat - '0'.toNat)
  else if 'a' ≤ c && c ≤ 'f' then some (c.toNat - 'a'.toNat + 10)
  else if 'A' ≤ c && c ≤ 'F' then some (c.toNat - 'A'.toNat + 10)
  else none

/-- The code unit that four hexadecimal digits spell. -/
def unit? (a b c d : Char) : Option Piece := do
  return .unit (((← hexValue? a) * 16 + (← hexValue? b)) * 256 + (← hexValue? c) * 16 +
    (← hexValue? d))

/-- The character that a letter behind a backslash stands for. -/
def escaped? (c : Char) : Option Piece :=
  (([('"', '"'), ('\\', '\\'), ('/', '/'), ('b', '\x08'), ('f', '\x0c'), ('n', '\n'), ('r', '\r'),
    ('t', '\t')] : List (Char × Char)).lookup c).map .char

/-- The pieces up to the closing quote, behind those already read. -/
def readPieces (done : List Piece) : Reader (List Piece)
  | [] => none
  | c :: cs =>
    if c = '"' then some (done.reverse, cs)
    else if c = '\\' then
      match cs with
      | 'u' :: u :: v :: w :: x :: rest =>
        match unit? u v w x with
        | some p => readPieces (p :: done) rest
        | none => none
      | e :: rest =>
        match escaped? e with
        | some p => readPieces (p :: done) rest
        | none => none
      | [] => none
    else if c.toNat < 32 then none
    else readPieces (.char c :: done) cs

/-- The code unit is the first half of a pair. -/
def isHighHalf (n : Nat) : Bool := 0xD800 ≤ n && n < 0xDC00

/-- The code unit is the second half of a pair. -/
def isLowHalf (n : Nat) : Bool := 0xDC00 ≤ n && n < 0xE000

/-- The characters of a literal behind those already found.  Two code units that form a pair are one
character, and half of a pair is none. -/
def joinPieces (done : List Char) : List Piece → Option (List Char)
  | [] => some done.reverse
  | .char c :: ps => joinPieces (c :: done) ps
  | .unit n :: ps =>
    if isHighHalf n then
      match ps with
      | .unit m :: ps =>
        if isLowHalf m then
          joinPieces (Char.ofNat (0x10000 + (n - 0xD800) * 0x400 + (m - 0xDC00)) :: done) ps
        else none
      | _ => none
    else if isLowHalf n then none
    else joinPieces (Char.ofNat n :: done) ps

/-- The rest of a string literal behind its opening quote. -/
def readText (cs : List Char) : Option (String × List Char) := do
  let (pieces, cs) ← readPieces [] cs
  return (String.ofList (← joinPieces [] pieces), cs)

/-! ## Values

Lists and objects stand in one another up to a depth.  Within one of them the items are read in a
loop, and the fuel of the loop is the length of the text, which no loop can use up. -/

/-- A value that holds no other values. -/
def readScalar (cs : List Char) : Option (Json × List Char) :=
  match cs with
  | '"' :: cs => (readText cs).map fun (s, cs) => (.str s, cs)
  | 'n' :: 'u' :: 'l' :: 'l' :: cs => some (.null, cs)
  | 't' :: 'r' :: 'u' :: 'e' :: cs => some (.bool true, cs)
  | 'f' :: 'a' :: 'l' :: 's' :: 'e' :: cs => some (.bool false, cs)
  | cs => do
    let (t, cs) ← NumberText.read? cs
    return (← t.value?, cs)

/-- Items with commas between them, behind those already read, up to a closing mark; `fuel` bounds
how many there are. -/
def readItems {α : Type} (item : Reader α) (close : Char) : Nat → List α → Reader (List α)
  | 0, _, _ => none
  | fuel + 1, done, cs =>
    match item cs with
    | none => none
    | some (x, cs) =>
      match skipBlanks cs with
      | [] => none
      | c :: cs =>
        if c = close then some ((x :: done).reverse, cs)
        else if c = ',' then readItems item close fuel (x :: done) cs
        else none

/-- The items of a list or an object behind its opening mark; there may be none. -/
def readSequence {α : Type} (item : Reader α) (close : Char) (fuel : Nat) : Reader (List α) :=
  fun cs =>
    match skipBlanks cs with
    | [] => none
    | c :: rest => if c = close then some ([], rest) else readItems item close fuel [] (c :: rest)

/-- A name, a colon and a value. -/
def readMember (value : Reader Json) : Reader (String × Json) := fun cs =>
  match skipBlanks cs with
  | '"' :: cs => do
    let (name, cs) ← readText cs
    match skipBlanks cs with
    | ':' :: cs =>
      let (v, cs) ← value cs
      return ((name, v), cs)
    | _ => none
  | _ => none

/-- Sorted members together with one more, which takes the place of one with its name. -/
def insertMember (m : String × Json) : List (String × Json) → List (String × Json)
  | [] => [m]
  | x :: xs =>
    match compare m.1 x.1 with
    | .lt => m :: x :: xs
    | .eq => m :: xs
    | .gt => x :: insertMember m xs

/-- The object with members that were read one after the other. -/
def ofMembers (ms : List (String × Json)) : Json :=
  .obj (ms.foldl (fun sorted m => insertMember m sorted) [])

/-- A value with at most `depth` lists and objects inside one another.  None of them has more items
than `fuel`. -/
def readValue (fuel : Nat) : Nat → Reader Json
  | 0, cs => readScalar (skipBlanks cs)
  | depth + 1, cs =>
    match skipBlanks cs with
    | '[' :: cs =>
      (readSequence (readValue fuel depth) ']' fuel cs).map fun (items, cs) => (.arr items, cs)
    | '\x7b' :: cs =>
      (readSequence (readMember (readValue fuel depth)) '\x7d' fuel cs).map fun (ms, cs) =>
        (ofMembers ms, cs)
    | cs => readScalar cs

/-- How many lists and objects may stand inside one another. -/
def deepest : Nat := 127

/-- The value that a text spells. -/
def parse? (text : String) : Option Json := do
  let cs := text.toList
  let (v, rest) ← readValue cs.length deepest cs
  if (skipBlanks rest).isEmpty then some v else none

end CodeMend.Json
