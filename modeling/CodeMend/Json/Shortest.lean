import CodeMend.Json.Binary

/-!
# CodeMend — shortest decimal text of a binary float

A float is written with the fewest digits that read back as the same float, and of those the
nearest.  A float `m · 2^q` and a decimal `d · 10^e` are compared as fractions of natural numbers.

* **`Binary.shortest`** — the shortest decimal.
* **`Binary.render`** — its text: positional near one, with a power of ten elsewhere.
-/

namespace CodeMend

/-- The number `digits · 10^exponent`. -/
structure Decimal where
  digits : Nat
  exponent : Int
deriving DecidableEq, Repr

namespace Decimal

/-- Digits and exponent without trailing zeros among the digits; `fuel` bounds how many go. -/
def trimFuel : Nat → Decimal → Decimal
  | 0, d => d
  | fuel + 1, d =>
    if d.digits % 10 = 0 ∧ d.digits ≠ 0 then trimFuel fuel ⟨d.digits / 10, d.exponent + 1⟩ else d

/-- The same number without trailing zeros; a float has fewer digits than 400. -/
def trim (d : Decimal) : Decimal := trimFuel 400 d

/-- The text of a power of ten, whose sign is always written. -/
def renderPower (power : Int) : List Char :=
  let sign := if power < 0 then '-' else '+'
  'e' :: sign :: Nat.toDigits 10 power.natAbs

/-- The text of a decimal.  Numbers from 10^-5 up to 10^16 are positional with at least one digit on
each side of the point; all others have a power of ten. -/
def render (d : Decimal) : List Char :=
  let ⟨digits, exponent⟩ := d.trim
  let text := Nat.toDigits 10 digits
  let point : Int := text.length + exponent
  if digits = 0 then ['0', '.', '0']
  else if 0 ≤ exponent ∧ point ≤ 16 then
    text ++ List.replicate exponent.toNat '0' ++ ['.', '0']
  else if 0 < point ∧ point ≤ 16 then
    text.take point.toNat ++ '.' :: text.drop point.toNat
  else if -5 < point ∧ point ≤ 0 then
    '0' :: '.' :: (List.replicate (-point).toNat '0' ++ text)
  else
    match text with
    | [c] => c :: renderPower (point - 1)
    | c :: cs => c :: '.' :: (cs ++ renderPower (point - 1))
    | [] => []

end Decimal

/-- The exponent of the leading decimal digit of a positive fraction. -/
def Fraction.leading (x : Fraction) : Int :=
  let guess : Int := ((Nat.toDigits 10 x.num).length : Int) - ((Nat.toDigits 10 x.den).length : Int)
  if ((Fraction.ofNat 1).scale 10 guess).le x then guess else guess - 1

namespace Binary

/-- A decimal with digits on the grid of `10^exponent` that reads back as a magnitude: the nearest
one, or else a neighbour of the magnitude on the grid. -/
def onGrid? (x : Binary) (exponent : Int) : Option Decimal :=
  let scaled := x.magnitude.scale 10 (-exponent)
  let low := scaled.num / scaled.den
  let candidates := [scaled.nearest, low, low + 1]
  let reads (d : Nat) : Bool := x.reads ((Fraction.ofNat d).scale 10 exponent)
  (candidates.find? reads).map fun d => ⟨d, exponent⟩

/-- The shortest decimal that reads back as a magnitude.  Seventeen digits are enough for each. -/
def shortest (x : Binary) : Decimal :=
  if x.isZero then ⟨0, 0⟩
  else
    let top := x.magnitude.leading
    ((List.range 17).findSome? fun (k : Nat) => x.onGrid? (top - k)).getD ⟨0, 0⟩

/-- The text of a float. -/
def render (x : Binary) : String :=
  let body := x.shortest.render
  String.ofList (if x.negative then '-' :: body else body)

end Binary

end CodeMend
