import CodeMend.Json.Shortest

/-!
# CodeMend — JSON values and their indented text

`Json.render` writes a value with two blanks of indentation per level and every element on a line of
its own.  Members stand in the order of their list.
-/

namespace CodeMend

/-- A JSON value.  Members of an object keep the order in which they are written. -/
inductive Json where
  | null
  | bool (value : Bool)
  | int (value : Int)
  | real (value : Binary)
  | str (value : String)
  | arr (items : List Json)
  | obj (members : List (String × Json))
deriving Repr, Inhabited

namespace Json

def ofNat (n : Nat) : Json := .int n

/-- A hexadecimal digit in lower case. -/
def hexDigit (n : Nat) : Char := Nat.digitChar (n % 16)

/-- A character inside a string literal.  Quotes, backslashes and control characters are escaped;
the five control characters with a name use it. -/
def escape (c : Char) : List Char :=
  if c = '"' then ['\\', '"']
  else if c = '\\' then ['\\', '\\']
  else if c = '\n' then ['\\', 'n']
  else if c = '\r' then ['\\', 'r']
  else if c = '\t' then ['\\', 't']
  else if c.toNat = 8 then ['\\', 'b']
  else if c.toNat = 12 then ['\\', 'f']
  else if c.toNat < 32 then ['\\', 'u', '0', '0', hexDigit (c.toNat / 16), hexDigit c.toNat]
  else [c]

/-- A string literal. -/
def quote (s : String) : String :=
  String.ofList ('"' :: (s.toList.flatMap escape ++ ['"']))

/-- A line feed followed by the indentation of a level. -/
def newLine (level : Nat) : String :=
  "\n" ++ String.ofList (List.replicate (2 * level) ' ')

mutual

/-- The text of a value whose first line stands at a level of indentation. -/
def renderAt (level : Nat) : Json → String
  | .null => "null"
  | .bool true => "true"
  | .bool false => "false"
  | .int n => toString n
  | .real x => x.render
  | .str s => quote s
  | .arr [] => "[]"
  | .arr (x :: xs) =>
    "[" ++ newLine (level + 1) ++ renderAt (level + 1) x ++ renderItems (level + 1) xs ++
      newLine level ++ "]"
  | .obj [] => "\x7b\x7d"
  | .obj ((k, v) :: ms) =>
    "\x7b" ++ newLine (level + 1) ++ quote k ++ ": " ++ renderAt (level + 1) v ++
      renderMembers (level + 1) ms ++ newLine level ++ "\x7d"

/-- The elements after the first one, each after a comma. -/
def renderItems (level : Nat) : List Json → String
  | [] => ""
  | x :: xs => "," ++ newLine level ++ renderAt level x ++ renderItems level xs

/-- The members after the first one, each after a comma. -/
def renderMembers (level : Nat) : List (String × Json) → String
  | [] => ""
  | (k, v) :: ms =>
    "," ++ newLine level ++ quote k ++ ": " ++ renderAt level v ++ renderMembers level ms

end

/-- The indented text of a value, without a final line feed. -/
def render (v : Json) : String := renderAt 0 v

end Json

end CodeMend
