import WarmSimplex.Decimal.Shortest

/-!
# Decimal notations

How a number is written. Plain notation never has an exponent: a whole number is written with all
its zeros and without a point. Scientific notation has one digit before the point, which is left out
if nothing follows it, and an exponent without padding. Fixed notation has a given number of places.

The sign of a zero is written.
-/

namespace WarmSimplex

namespace Decimal

/-- All digits, with a point if there are places after it. -/
def plain (d : Decimal) : String :=
  let digits := digitsOf d.digits
  if 0 ≤ d.exponent then .ofList (digits ++ List.replicate d.exponent.toNat '0')
  else
    let places := (-d.exponent).toNat
    let padded := List.replicate (places + 1 - digits.length) '0' ++ digits
    let whole := padded.length - places
    .ofList (padded.take whole ++ '.' :: padded.drop whole)

/-- One digit before the point, and the power of ten that it counts. -/
def scientific (d : Decimal) : String :=
  let exponent := "e" ++ toString (d.exponent + (digitsOf d.digits).length - 1)
  match digitsOf d.digits with
  | [] => exponent
  | [digit] => .ofList [digit] ++ exponent
  | digit :: rest => .ofList (digit :: '.' :: rest) ++ exponent

end Decimal

/-- A sign in front of a text. -/
def signed (negative : Bool) (text : String) : String :=
  if negative then "-" ++ text else text

/-- A number in a notation for finite magnitudes. -/
def Binary64.write (magnitude : Nat → Int → String) : Binary64 → String
  | .undefined => "NaN"
  | .infinite negative => signed negative "inf"
  | .finite negative mantissa exponent => signed negative (magnitude mantissa exponent)

/-- The shortest text that reads back as the number, without an exponent. -/
def plainText (x : Float) : String :=
  (Binary64.ofFloat x).write fun m q => (Decimal.shortest m q).plain

/-- The shortest digits that read back as the number, with an exponent. -/
def scientificText (x : Float) : String :=
  (Binary64.ofFloat x).write fun m q => (Decimal.shortest m q).scientific

/-- The number rounded to the given number of places. -/
def fixedText (places : Nat) (x : Float) : String :=
  (Binary64.ofFloat x).write fun m q => (Decimal.toPlaces places m q).plain

end WarmSimplex
