import DeclTags.Json.Numeral

/-!
# Numbers that are too large

A number may be written with any digits and any exponent, but numbers are
represented in double precision, and one that is too large for that is none.
Which ones are too large depends on how a number is computed, and not on its
exact value alone.

The digits are gathered in a machine word. Those that it has no room for are
left out: before the point each of them still counts as a factor of ten,
behind the point it counts for nothing. The word is rounded to double
precision and multiplied by a power of ten, which is rounded too. Rounding
may add a little, so a number that is written slightly below the greatest
double can turn out to be too large.

The product of two doubles is rounded only once more, and that is never
carried out: the product is too large exactly if it reaches the middle
between the greatest double and the next number of that precision. So all
computations here are on integers and exact.
-/

namespace DeclTags

namespace Json

/-- The number of significant bits in double precision. -/
def doubleBits : Nat := 53

/-- **An integer in double precision**, as if there were no greatest one: the
nearest number with so many significant bits, and of two that are equally
near the one whose last significant bit is zero. -/
def toDouble (n : Nat) : Nat :=
  let unit := Nat.pow 2 (n.log2 + 1 - doubleBits)
  let units := n / unit
  let excess := 2 * (n % unit)
  if unit < excess ∨ unit = excess ∧ units % 2 = 1 then (units + 1) * unit else units * unit

/-- The least number that is rounded beyond the greatest double. -/
def beyondDouble : Nat := Nat.pow 2 1024 - Nat.pow 2 970

/-- The exponent of the greatest power of ten that is a double. -/
def greatestPower : Int := 308

/-- **Digits appended to a number**, as long as it stays a machine word: the
number, and the digits that there is no room for. -/
def gather : Nat → Bytes → Nat × Bytes
  | n, [] => (n, [])
  | n, b :: rest =>
    let m := n * 10 + digitValue b
    if m < UInt64.size then gather m rest else (n, b :: rest)

/-- **A number as it is represented**: a machine word and a power of ten. -/
structure Scaled where
  /-- The digits that there was room for. -/
  significand : Nat
  /-- The exponent of the power of ten. -/
  scale : Int
deriving DecidableEq

/-- The representation of a number. A digit before the point that is left out
raises the power, and one behind the point that is kept lowers it. -/
def Numeral.scaled (n : Numeral) : Scaled :=
  let (whole, left) := gather 0 n.whole
  let (significand, ignored) := gather whole n.fraction
  let kept := n.fraction.length - ignored.length
  ⟨significand, n.exponent + left.length - kept⟩

/-- Is a number too large for double precision? A negative power of ten only
makes a number smaller. -/
def Scaled.isTooLarge (s : Scaled) : Bool :=
  s.significand != 0 && 0 ≤ s.scale &&
    (greatestPower < s.scale ||
      beyondDouble ≤ toDouble s.significand * toDouble (Nat.pow 10 s.scale.toNat))

/-- **Is the number too large** for double precision? -/
def Numeral.isTooLarge (n : Numeral) : Bool := n.scaled.isTooLarge

end Json

end DeclTags
