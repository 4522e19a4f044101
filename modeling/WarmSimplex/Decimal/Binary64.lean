/-!
# Binary64 numbers taken apart

A binary64 number is undefined, infinite, or a sign, a natural mantissa and a power of two. Printing
works on these parts in exact arithmetic.

The sign and payload of an undefined number are not kept.
-/

namespace WarmSimplex

/-- The parts of a binary64 number; a finite one is `mantissa * 2 ^ exponent` up to its sign. -/
inductive Binary64 where
  | undefined
  | infinite (negative : Bool)
  | finite (negative : Bool) (mantissa : Nat) (exponent : Int)
deriving DecidableEq, Repr

namespace Binary64

/-- The weight of the implicit leading bit of a mantissa. -/
def leadingBit : Nat := 0x10000000000000

/-- The parts of the number with the given 64 bits: a sign bit, 11 bits of biased exponent and 52
bits of fraction. A biased exponent of zero marks the numbers without an implicit leading bit. -/
def ofBits (bits : Nat) : Binary64 :=
  let negative := bits.testBit 63
  let biased : Nat := bits / leadingBit % 2048
  let fraction : Nat := bits % leadingBit
  if biased = 2047 then if fraction = 0 then .infinite negative else .undefined
  else if biased = 0 then .finite negative fraction (-1074)
  else .finite negative (leadingBit + fraction) (biased - 1075)

/-- The parts of a number. -/
def ofFloat (x : Float) : Binary64 := ofBits x.toBits.toNat

/-- Is the gap to the next lower magnitude half the gap to the next higher one? This is so at the
powers of two, except where the spacing has reached its smallest value. -/
def narrowBelow (mantissa : Nat) (exponent : Int) : Bool :=
  mantissa == leadingBit && decide (-1074 < exponent)

end Binary64

end WarmSimplex
