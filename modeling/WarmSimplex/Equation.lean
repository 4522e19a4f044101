import WarmSimplex.Scalar

/-!
# Equations

A row of a tableau is an equation: coefficients over the columns, and a right-hand side. The
objective row has the same form, with reduced costs as coefficients and the objective value on the
right.

Elimination works on whole equations. The entry that an elimination clears is set to an exact zero
afterwards, so that rounding cannot leave a remainder there.
-/

namespace WarmSimplex

/-- Coefficients over the columns, and the right-hand side that they add up to. -/
structure Equation (α : Type) where
  coefficients : List α
  rhs : α
deriving DecidableEq

namespace Equation

variable {α : Type}

/-- All entries: the coefficients, then the right-hand side. -/
def entries (e : Equation α) : List α :=
  e.coefficients ++ [e.rhs]

/-- Replace the coefficient of one column. -/
def setCoefficient (e : Equation α) (column : Nat) (value : α) : Equation α :=
  { e with coefficients := e.coefficients.set column value }

/-- Add one column at the end, with the given coefficient. -/
def addColumn (e : Equation α) (value : α) : Equation α :=
  { e with coefficients := e.coefficients ++ [value] }

/-- Replacing a coefficient keeps the width. -/
@[simp] theorem length_setCoefficient (e : Equation α) (column : Nat) (value : α) :
    (e.setCoefficient column value).coefficients.length = e.coefficients.length := by
  simp [setCoefficient]

/-- Replacing a coefficient keeps the right-hand side. -/
@[simp] theorem rhs_setCoefficient (e : Equation α) (column : Nat) (value : α) :
    (e.setCoefficient column value).rhs = e.rhs :=
  rfl

/-- A new column widens an equation by one. -/
@[simp] theorem length_addColumn (e : Equation α) (value : α) :
    (e.addColumn value).coefficients.length = e.coefficients.length + 1 := by
  simp [addColumn]

variable [Scalar α]

/-- The coefficient of a column, zero past the last one. -/
def coefficient (e : Equation α) (column : Nat) : α :=
  e.coefficients.getD column 0

/-- The entry at an index: a coefficient, or the right-hand side at the index after the last one. -/
def entry (e : Equation α) (index : Nat) : α :=
  e.entries.getD index 0

/-- The equation that says nothing, over the given number of columns. -/
def zero (columns : Nat) : Equation α :=
  ⟨List.replicate columns 0, 0⟩

/-- Divide every entry by a number. -/
def divide (e : Equation α) (divisor : α) : Equation α :=
  ⟨e.coefficients.map (· / divisor), e.rhs / divisor⟩

/-- Subtract a multiple of another equation from every entry. -/
def subtractMultiple (target : Equation α) (factor : α) (e : Equation α) : Equation α :=
  ⟨List.zipWith (fun t a => t - factor * a) target.coefficients e.coefficients,
    target.rhs - factor * e.rhs⟩

/-- Clear a column with an equation whose coefficient there is one. An equation that does not
mention the column is left as it is. -/
def eliminate (target e : Equation α) (column : Nat) : Equation α :=
  let factor := target.coefficient column
  if factor == 0 then target else (target.subtractMultiple factor e).setCoefficient column 0

/-- Divide by the coefficient of a column, which becomes exactly one. -/
def normalize (e : Equation α) (column : Nat) : Equation α :=
  (e.divide (e.coefficient column)).setCoefficient column 1

/-! ## Widths and single entries -/

/-- Below the last column, an entry is a coefficient. -/
theorem entry_of_lt {e : Equation α} {column : Nat} (h : column < e.coefficients.length) :
    e.entry column = e.coefficient column := by
  simp [entry, entries, coefficient, List.getD, List.getElem?_append_left h]

/-- The zero equation has the width that was asked for. -/
@[simp] theorem length_zero (columns : Nat) :
    (zero columns : Equation α).coefficients.length = columns := by
  simp [zero]

/-- A coefficient that was replaced reads back. -/
theorem coefficient_setCoefficient_self {e : Equation α} {column : Nat} (value : α)
    (h : column < e.coefficients.length) :
    (e.setCoefficient column value).coefficient column = value := by
  simp [setCoefficient, coefficient, List.getD, h]

/-- Replacing a coefficient leaves the other columns alone. -/
theorem coefficient_setCoefficient_of_ne (e : Equation α) {column other : Nat} (value : α)
    (h : column ≠ other) :
    (e.setCoefficient column value).coefficient other = e.coefficient other := by
  simp [setCoefficient, coefficient, List.getD, List.getElem?_set_ne h]

/-- Division keeps the width. -/
@[simp] theorem length_divide (e : Equation α) (divisor : α) :
    (e.divide divisor).coefficients.length = e.coefficients.length := by
  simp [divide]

/-- Normalizing keeps the width. -/
@[simp] theorem length_normalize (e : Equation α) (column : Nat) :
    (e.normalize column).coefficients.length = e.coefficients.length := by
  simp [normalize]

/-- A difference is as wide as the narrower equation. -/
@[simp] theorem length_subtractMultiple (target : Equation α) (factor : α) (e : Equation α) :
    (target.subtractMultiple factor e).coefficients.length =
      min target.coefficients.length e.coefficients.length := by
  simp [subtractMultiple]

/-- Elimination with an equation of the same width keeps the width. -/
theorem length_eliminate {target e : Equation α} (column : Nat)
    (h : e.coefficients.length = target.coefficients.length) :
    (target.eliminate e column).coefficients.length = target.coefficients.length := by
  simp only [eliminate]
  split
  · rfl
  · simp [h]

/-- A normalized column is exactly one. -/
theorem coefficient_normalize_self {e : Equation α} {column : Nat}
    (h : column < e.coefficients.length) :
    (e.normalize column).coefficient column = 1 :=
  coefficient_setCoefficient_self 1 (by simpa using h)

end Equation

end WarmSimplex
