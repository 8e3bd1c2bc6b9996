/-!
# CodeMend — binary floats

A number that is no integer is a finite binary float of 64 bits.  All arithmetic is exact, on
fractions of natural numbers, and then rounded once: to the nearest float, and halfway between two
floats to the one with the even mantissa.

* **`Binary.nearest?`** — the float nearest to a fraction.
* **`Binary.times?`**, **`Binary.over?`** — the rounded product and quotient.
* **`Binary.scale?`** — a float moved by powers of ten, rounded at every step.
* **`Binary.reads`** — the fractions that round to a float.
-/

namespace CodeMend

/-- A fraction of natural numbers. -/
structure Fraction where
  num : Nat
  den : Nat

namespace Fraction

def ofNat (n : Nat) : Fraction := ⟨n, 1⟩

/-- The fraction times a power of a base. -/
def scale (x : Fraction) (base : Nat) (exponent : Int) : Fraction :=
  if 0 ≤ exponent then ⟨x.num * base.pow exponent.toNat, x.den⟩
  else ⟨x.num, x.den * base.pow (-exponent).toNat⟩

/-- The nearest natural number; a half goes to the even neighbour. -/
def nearest (x : Fraction) : Nat :=
  let low := x.num / x.den
  let twice := 2 * (x.num % x.den)
  if twice < x.den || (twice == x.den && low % 2 == 0) then low else low + 1

/-- The first fraction is at most the second. -/
def le (x y : Fraction) : Bool := x.num * y.den ≤ y.num * x.den

/-- The first fraction is less than the second. -/
def lt (x y : Fraction) : Bool := x.num * y.den < y.num * x.den

end Fraction

/-- The number `mantissa · 2^exponent`, or its negative.  The mantissa has 53 bits unless the
exponent is the least one. -/
structure Binary where
  negative : Bool
  mantissa : Nat
  exponent : Int
deriving DecidableEq, Repr, Inhabited

namespace Binary

/-- The least mantissa of 53 bits. -/
def leastFull : Nat := Nat.pow 2 52

/-- The exponent of the floats nearest to zero. -/
def leastExponent : Int := -1074

/-- The exponent of the greatest floats. -/
def greatestExponent : Int := 971

def zero : Binary := ⟨false, 0, leastExponent⟩

def isZero (x : Binary) : Bool := x.mantissa == 0

/-- The number without its sign. -/
def magnitude (x : Binary) : Fraction := (Fraction.ofNat x.mantissa).scale 2 x.exponent

/-- The float nearest to a fraction; there is none beyond the greatest float. -/
def nearest? (x : Fraction) : Option Binary :=
  if x.num = 0 then some zero
  else
    let guess : Int := (Nat.log2 x.num : Int) - (Nat.log2 x.den : Int) - 52
    let small := (x.scale 2 (-guess)).lt (.ofNat leastFull)
    let exponent := max (if small then guess - 1 else guess) leastExponent
    let mantissa := (x.scale 2 (-exponent)).nearest
    let rounded : Binary :=
      if mantissa = 2 * leastFull then ⟨false, leastFull, exponent + 1⟩
      else ⟨false, mantissa, exponent⟩
    if rounded.exponent ≤ greatestExponent then some rounded else none

/-- The product of two magnitudes, if it is not too great. -/
def times? (x y : Binary) : Option Binary :=
  let a := x.magnitude
  let b := y.magnitude
  nearest? ⟨a.num * b.num, a.den * b.den⟩

/-- The quotient of two magnitudes, if it is not too great. -/
def over? (x y : Binary) : Option Binary :=
  let a := x.magnitude
  let b := y.magnitude
  nearest? ⟨a.num * b.den, a.den * b.num⟩

/-- The greatest power of ten that is no greater than the greatest float. -/
def greatestPower : Nat := 308

/-- The float nearest to a power of ten, up to the greatest power. -/
def powerOfTen? (power : Nat) : Option Binary :=
  if power ≤ greatestPower then nearest? (.ofNat (Nat.pow 10 power)) else none

/-- A magnitude divided some times by the greatest power of ten.  Zero stays. -/
def reduce? : Nat → Binary → Option Binary
  | 0, x => some x
  | n + 1, x =>
    if x.isZero then some x else ((powerOfTen? greatestPower).bind x.over?).bind (reduce? n)

/-- A magnitude divided by a power of ten: by the greatest one as long as more is left, and then by
the rest. -/
def scaleDown? (x : Binary) (power : Nat) : Option Binary :=
  let steps := (power - 1) / greatestPower
  (reduce? steps x).bind fun y =>
    (powerOfTen? (power - steps * greatestPower)).bind y.over?

/-- A magnitude times a power of ten, if it is not too great.  Zero stays. -/
def scale? (x : Binary) (power : Int) : Option Binary :=
  if x.isZero then some x
  else if 0 ≤ power then (powerOfTen? power.toNat).bind x.times?
  else x.scaleDown? (-power).toNat

/-- The fractions that lie halfway between a magnitude and its two neighbours. -/
def bounds (x : Binary) : Fraction × Fraction :=
  let low := if x.mantissa = leastFull ∧ leastExponent < x.exponent then 4 * x.mantissa - 1
    else 4 * x.mantissa - 2
  ((Fraction.ofNat low).scale 2 (x.exponent - 2),
    (Fraction.ofNat (4 * x.mantissa + 2)).scale 2 (x.exponent - 2))

/-- A fraction rounds to a magnitude when it lies between the bounds; the bounds themselves go to
the even mantissa. -/
def reads (x : Binary) (value : Fraction) : Bool :=
  let (low, high) := x.bounds
  if x.mantissa % 2 = 0 then low.le value && value.le high else low.lt value && value.lt high

end Binary

end CodeMend
