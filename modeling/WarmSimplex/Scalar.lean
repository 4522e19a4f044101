/-!
# Scalars

The solvers are written once, over any type with the operations below. Filled with rationals they
compute exactly; filled with binary64 numbers they run, with every operation rounded in the order
in which it is written.

The class assumes no law. A statement that holds for every `Scalar` therefore holds whatever
rounding, overflow or undefined values do.
-/

namespace WarmSimplex

/-- The operations that a tableau needs of its entries. -/
class Scalar (α : Type) extends
    Zero α, One α, Neg α, Add α, Sub α, Mul α, Div α, LT α, LE α, BEq α where
  /-- The strict order can be tested. -/
  decideLT : (a b : α) → Decidable (a < b)
  /-- The order can be tested. -/
  decideLE : (a b : α) → Decidable (a ≤ b)
  /-- The magnitude. -/
  abs : α → α
  /-- The result of an operation that has no value, such as zero over zero. -/
  isNaN : α → Bool
  /-- A number, neither infinite nor undefined. -/
  isFinite : α → Bool
  /-- A total order that refines `≤`, for sorting. -/
  totalLE : α → α → Bool
  /-- The tolerance of a tableau for which none was chosen. -/
  defaultTolerance : α

namespace Scalar

variable {α : Type} [Scalar α]

/-- Strict comparisons of scalars are decidable. -/
instance (a b : α) : Decidable (a < b) := Scalar.decideLT a b

/-- Comparisons of scalars are decidable. -/
instance (a b : α) : Decidable (a ≤ b) := Scalar.decideLE a b

/-- The larger of two scalars, or the defined one if the other is undefined. -/
def larger (a b : α) : α :=
  if isNaN a || a < b then b else a

/-- The smaller of two scalars, or the defined one if the other is undefined. -/
def smaller (a b : α) : α :=
  if isNaN a || b < a then b else a

/-- The sum of the products of two lists, over the length of the shorter one. The sum of no
products is the negative of zero, which adding leaves every number as it is. -/
def dot (coefficients values : List α) : α :=
  (List.zipWith (· * ·) coefficients values).foldl (· + ·) (-0)

end Scalar

/-- Exact arithmetic: every operation has a finite value. -/
instance : Scalar Rat where
  toZero := Zero.ofOfNat0
  toOne := One.ofOfNat1
  decideLT _ _ := inferInstance
  decideLE _ _ := inferInstance
  abs a := if a < 0 then -a else a
  isNaN _ := false
  isFinite _ := true
  totalLE a b := decide (a ≤ b)
  defaultTolerance := 1 / 1000000000

/-- The position of a binary64 number in the total order of all of them: negative zero directly
below zero, and the undefined values outside the infinities. -/
def totalOrderKey (x : Float) : Int :=
  let bits := x.toBits.toNat
  let signBit := 0x8000000000000000
  if bits < signBit then bits else (signBit - 1 : Int) - bits

/-- Binary64 arithmetic, rounded to nearest. -/
instance : Scalar Float where
  zero := 0.0
  one := 1.0
  decideLT _ _ := inferInstance
  decideLE _ _ := inferInstance
  abs := Float.abs
  isNaN := Float.isNaN
  isFinite := Float.isFinite
  totalLE a b := decide (totalOrderKey a ≤ totalOrderKey b)
  defaultTolerance := 1e-9

end WarmSimplex
