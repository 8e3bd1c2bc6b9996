import CodeMend.Grammar.Cursor

/-!
# CodeMend — looking ahead

Types and expressions start alike.  The functions here look at the tokens ahead of a place without
building anything and tell where a type, a name or a balanced group ends.
-/

namespace CodeMend

/-- The keywords that name types. -/
def predefinedTypes : List String := [
  "bool", "byte", "char", "decimal", "double", "float", "int", "long", "object", "sbyte",
  "short", "string", "uint", "ulong", "ushort", "void"]

/-- The token is a keyword that names a type. -/
def Token.isPredefinedType (t : Token) : Bool :=
  t.kind == .keyword && predefinedTypes.contains t.text

namespace Scan

variable (ts : Array Token)

def markAt (i : Nat) (mark : String) : Bool := (tokenAt ts i).isMark mark

/-- Walk to the mark that closes the innermost of `depth + 1` open groups. -/
def closing (opening close : String) : Nat → Nat → Nat → Option Nat
  | 0, _, _ => none
  | fuel + 1, depth, i =>
    let t := tokenAt ts i
    if t.kind == .endOfFile then none
    else if t.isMark opening then closing opening close fuel (depth + 1) (i + 1)
    else if t.isMark close then
      match depth with
      | 0 => some (i + 1)
      | d + 1 => closing opening close fuel d (i + 1)
    else closing opening close fuel depth (i + 1)

/-- The index after the balanced group that opens at an index. -/
def balanced (i : Nat) : Option Nat :=
  let close? := match (tokenAt ts i).text with
    | "(" => some ")"
    | "[" => some "]"
    | "\x7b" => some "\x7d"
    | "<" => some ">"
    | _ => none
  close?.bind fun close => closing ts (tokenAt ts i).text close (ts.size + 1) 0 (i + 1)

/-- The first index, from `i` on, that holds no comma; at most `fuel` commas are skipped. -/
def skipCommas : Nat → Nat → Nat
  | 0, i => i
  | fuel + 1, i => if markAt ts i "," then skipCommas fuel (i + 1) else i

/-- The index after the brackets without sizes that open at an index. -/
def emptyRank? (i : Nat) : Option Nat :=
  let j := skipCommas ts ts.size (i + 1)
  if markAt ts j "]" then some (j + 1) else none

/-- The index after the question marks and brackets behind a type. -/
def suffixes (nullable : Bool) : Nat → Nat → Nat
  | 0, i => i
  | fuel + 1, i =>
    if nullable && markAt ts i "?" then suffixes nullable fuel (i + 1)
    else if markAt ts i "[" then
      match emptyRank? ts i with
      | some j => suffixes nullable fuel j
      | none => i
    else i

mutual

/-- The index after a type. -/
def typeFuel : Nat → Nat → Bool → Option Nat
  | 0, _, _ => none
  | fuel + 1, i, nullable => do
    let t := tokenAt ts i
    let j ←
      if t.isMark "(" then tupleFuel fuel (i + 1) 0
      else if t.isPredefinedType then some (i + 1)
      else nameFuel fuel i
    return suffixes ts nullable (ts.size + 1) j

/-- The index after a tuple type of which some elements were seen. -/
def tupleFuel : Nat → Nat → Nat → Option Nat
  | 0, _, _ => none
  | fuel + 1, i, seen => do
    let j ← typeFuel fuel i true
    let j := if (tokenAt ts j).isIdentifier then j + 1 else j
    if markAt ts j "," then tupleFuel fuel (j + 1) (seen + 1)
    else if markAt ts j ")" && seen + 1 ≥ 2 then some (j + 1)
    else none

/-- The index after a name with its qualifiers and type arguments. -/
def nameFuel : Nat → Nat → Option Nat
  | 0, _ => none
  | fuel + 1, i =>
    if (tokenAt ts i).isIdentifier then
      let j := (argumentsFuel fuel (i + 1)).getD (i + 1)
      if (markAt ts j "." || markAt ts j "::") && (tokenAt ts (j + 1)).isIdentifier then
        nameFuel fuel (j + 1)
      else some j
    else none

/-- The index after type arguments in angle brackets. -/
def argumentsFuel : Nat → Nat → Option Nat
  | 0, _ => none
  | fuel + 1, i => if markAt ts i "<" then argumentListFuel fuel (i + 1) else none

/-- The index after the type arguments that are left and their closing bracket. -/
def argumentListFuel : Nat → Nat → Option Nat
  | 0, _ => none
  | fuel + 1, i => do
    let j ← typeFuel fuel i true
    if markAt ts j "," then argumentListFuel fuel (j + 1)
    else if markAt ts j ">" then some (j + 1)
    else none

end

/-- A bound on the steps of a scan: every token is visited by a few functions. -/
def allowance : Nat := 8 * ts.size + 8

/-- The index after a type.  `nullable` tells whether a question mark belongs to it. -/
def type? (i : Nat) (nullable : Bool) : Option Nat := typeFuel ts (allowance ts) i nullable

/-- The index after a name with its qualifiers and type arguments. -/
def name? (i : Nat) : Option Nat := nameFuel ts (allowance ts) i

/-- The index after type arguments in angle brackets. -/
def typeArguments? (i : Nat) : Option Nat := argumentsFuel ts (allowance ts) i

/-- What may follow a name so that it counts as declared: one of some marks, or a word. -/
structure Followers where
  marks : List String
  words : List String := []

def Followers.allows (f : Followers) (t : Token) : Bool :=
  f.marks.any t.isMark || (f.words.contains t.text && t.kind != .punctuation)

/-- The index of the name when a type and a name stand ahead, followed as given. -/
def typedName? (i : Nat) (followers : Followers) : Option Nat := do
  let j ← type? ts i true
  if (tokenAt ts j).isIdentifier && followers.allows (tokenAt ts (j + 1)) then some j else none

end Scan

end CodeMend
