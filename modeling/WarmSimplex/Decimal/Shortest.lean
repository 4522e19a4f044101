import WarmSimplex.Decimal.Binary64

/-!
# Shortest decimals

The decimal with the fewest digits among those that round to a given binary64 number, and of these
the nearest to it; a tie goes up. The decimals that round to a number form an interval halfway to
its neighbours, which includes its ends exactly if the mantissa is even.

A decimal with a fixed number of places is the nearest one on that grid; a tie goes to the even
digit. All of this is exact arithmetic on natural numbers.
-/

namespace WarmSimplex

/-- The number `digits * 10 ^ exponent`. -/
structure Decimal where
  digits : Nat
  exponent : Int
deriving DecidableEq, Repr

namespace Decimal

/-- A power with an integer exponent, as a numerator and a denominator. -/
def power (base : Nat) (exponent : Int) : Nat × Nat :=
  if 0 ≤ exponent then (base.pow exponent.toNat, 1) else (1, base.pow (-exponent).toNat)

/-- The decimal digits of a number, `['0']` for zero. -/
def digitsOf (n : Nat) : List Char := Nat.toDigits 10 n

/-- The exponent of the leading digit of a positive quotient. -/
def leadingExponent (numerator denominator : Nat) : Int :=
  if denominator ≤ numerator then (digitsOf (numerator / denominator)).length - 1
  else
    let places := (digitsOf (denominator / numerator)).length
    if numerator * Nat.pow 10 (places - 1) = denominator then 1 - places else -places

/-- A number and the interval that rounds to it, all in quarters of the distance between its
mantissa and the next one. -/
structure Target where
  value : Nat
  lower : Nat
  upper : Nat
  /-- Do the ends belong to the interval? -/
  closed : Bool

/-- The target of the number `mantissa * 2 ^ exponent`. -/
def Target.of (mantissa : Nat) (exponent : Int) : Target where
  value := 4 * mantissa
  lower := 4 * mantissa - if Binary64.narrowBelow mantissa exponent then 1 else 2
  upper := 4 * mantissa + 2
  closed := mantissa % 2 == 0

/-- Is a number strictly below another one, or equal to it where ends belong to the interval? -/
def Target.precedes (t : Target) (a b : Nat) : Bool :=
  decide (a < b) || (t.closed && a == b)

/-- The point of the grid of step `10 ^ exponent` that rounds to the target and is nearest to it, if
there is one. A quarter of the target is `quarter.1 / quarter.2`. -/
def Target.onGrid (t : Target) (quarter : Nat × Nat) (exponent : Int) : Option Decimal :=
  let step := power 10 exponent
  let unit := quarter.1 * step.2
  let point := quarter.2 * step.1
  let below := t.value * unit / point
  let rounds (d : Nat) : Bool :=
    t.precedes (t.lower * unit) (d * point) && t.precedes (d * point) (t.upper * unit)
  let nearerAbove :=
    decide ((below + 1) * point - t.value * unit ≤ t.value * unit - below * point)
  if rounds (below + 1) && (nearerAbove || !rounds below) then some ⟨below + 1, exponent⟩
  else if rounds below then some ⟨below, exponent⟩
  else none

/-- The number `mantissa * 2 ^ exponent` with all its digits. -/
def exact (mantissa : Nat) (exponent : Int) : Decimal :=
  if 0 ≤ exponent then ⟨mantissa * Nat.pow 2 exponent.toNat, 0⟩
  else ⟨mantissa * Nat.pow 5 (-exponent).toNat, exponent⟩

/-- Write ten as one. Rounding a leading nine up is the only way to end on a zero. -/
def carry (d : Decimal) : Decimal :=
  if d.digits = 10 then ⟨1, d.exponent + 1⟩ else d

/-- The shortest decimal that rounds to `mantissa * 2 ^ exponent`. Seventeen digits always do. -/
def shortest (mantissa : Nat) (exponent : Int) : Decimal :=
  if mantissa = 0 then ⟨0, 0⟩
  else
    let target := Target.of mantissa exponent
    let quarter := power 2 (exponent - 2)
    let leading := leadingExponent (target.value * quarter.1) quarter.2
    let found := (List.range 17).findSome? fun (extra : Nat) => target.onGrid quarter (leading - extra)
    (found.getD (exact mantissa exponent)).carry

/-- A quotient rounded to the nearest natural number, a half to the even one. -/
def roundHalfEven (numerator denominator : Nat) : Nat :=
  let quotient := numerator / denominator
  let twice := 2 * (numerator % denominator)
  if denominator < twice || (twice == denominator && quotient % 2 == 1) then quotient + 1
  else quotient

/-- The number `mantissa * 2 ^ exponent`, rounded to the given number of decimal places. -/
def toPlaces (places mantissa : Nat) (exponent : Int) : Decimal :=
  let scale := power 2 exponent
  ⟨roundHalfEven (mantissa * scale.1 * Nat.pow 10 places) scale.2, -places⟩

end Decimal

end WarmSimplex
