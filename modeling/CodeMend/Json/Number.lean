import CodeMend.Json.Value

/-!
# CodeMend — JSON numbers as they are spelled

A number without point and exponent is an integer if it fits into 64 bits; every other number is a
float.  A float is found from its leading digits: the significand is the longest run of them that
stays below 2^64, it is rounded to a float, and that float is moved by a power of ten and rounded
again.

* **`NumberText.read?`** — the spelling at the front of a text.
* **`NumberText.value?`** — the number that a spelling means.
-/

namespace CodeMend

/-- The spelling of a number.  There is no point when the fraction has no digits. -/
structure NumberText where
  negative : Bool
  /-- The digits in front of the point. -/
  whole : List Char
  /-- The digits behind the point. -/
  fraction : List Char
  /-- The power of ten, if it is spelled out. -/
  power : Option Int
deriving Repr

namespace NumberText

/-- The number that decimal digits spell. -/
def digitsValue (ds : List Char) : Nat :=
  ds.foldl (fun n c => 10 * n + (c.toNat - '0'.toNat)) 0

/-- The digits at the front, of which there must be one. -/
def readDigits? (cs : List Char) : Option (List Char × List Char) :=
  let ds := cs.takeWhile Char.isDigit
  if ds.isEmpty then none else some (ds, cs.drop ds.length)

/-- The digits behind a point, if there is one. -/
def readFraction? : List Char → Option (List Char × List Char)
  | '.' :: cs => readDigits? cs
  | cs => some ([], cs)

/-- The power of ten behind the letter of an exponent, which may have a sign. -/
def readExponent? (cs : List Char) : Option (Int × List Char) :=
  match cs with
  | '-' :: cs => (readDigits? cs).map fun (ds, cs) => (-(digitsValue ds : Int), cs)
  | '+' :: cs => (readDigits? cs).map fun (ds, cs) => ((digitsValue ds : Int), cs)
  | cs => (readDigits? cs).map fun (ds, cs) => ((digitsValue ds : Int), cs)

/-- The power of ten, if there is one. -/
def readPower? : List Char → Option (Option Int × List Char)
  | 'e' :: cs | 'E' :: cs => (readExponent? cs).map fun (power, cs) => (some power, cs)
  | cs => some (none, cs)

/-- The spelling at the front of a text, and the rest.  No digit follows a leading zero. -/
def read? (cs : List Char) : Option (NumberText × List Char) := do
  let (negative, cs) := match cs with
    | '-' :: cs => (true, cs)
    | cs => (false, cs)
  let (whole, cs) ← readDigits? cs
  if whole.head? = some '0' && 1 < whole.length then none
  let (fraction, cs) ← readFraction? cs
  let (power, cs) ← readPower? cs
  return (⟨negative, whole, fraction, power⟩, cs)

/-- A significand with the digits that still fit behind it, and the digits from the first one on
that does not. -/
def extend : Nat → List Char → Nat × List Char
  | n, [] => (n, [])
  | n, c :: cs =>
    let next := 10 * n + (c.toNat - '0'.toNat)
    if next < UInt64.size then extend next cs else (n, c :: cs)

/-- The float that a spelling means; digits behind the significand only count for its power. -/
def float? (t : NumberText) : Option Binary := do
  let (front, left) := extend 0 t.whole
  let (significand, ignored) := extend front t.fraction
  let power : Int := left.length + ignored.length - t.fraction.length + t.power.getD 0
  let x ← (← Binary.nearest? (.ofNat significand)).scale? power
  return { x with negative := t.negative }

/-- The integer that a spelling means, between -2^63 and 2^64.  A negative zero is a float. -/
def integer? (t : NumberText) : Option Int :=
  let n := digitsValue t.whole
  if !t.fraction.isEmpty || t.power.isSome then none
  else if t.negative then if 0 < n && 2 * n ≤ UInt64.size then some (-n) else none
  else if n < UInt64.size then some n else none

/-- The number that a spelling means, unless it is a float that is too great. -/
def value? (t : NumberText) : Option Json :=
  match t.integer? with
  | some n => some (.int n)
  | none => t.float?.map .real

end NumberText

end CodeMend
