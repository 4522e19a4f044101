import WarmSimplex.Tableau.Build
import WarmSimplex.Tableau.Pivot

/-!
# Adding constraints to a tableau

A new constraint becomes the last row, with a new slack as its basic column and the last column.
Its row is reduced against the current basis, so the tableau stays solved for its basis and a later
solve can start from there. Coefficients are given over the current columns, decision variables
first; missing ones are zero.

Nothing is added when the input is refused. An equation is added as two constraints, both or none.
-/

namespace WarmSimplex

variable {α : Type} [Scalar α]

namespace Tableau

/-- A new constraint over the current columns and its own slack, before reduction. -/
def newEquation (t : Tableau α) (coefficients : List α) (rhs : α) : Equation α :=
  ⟨coefficients ++ List.replicate (t.columnCount - coefficients.length) 0 ++ [1], rhs⟩

/-- Add a column of zeros after the last one. -/
def addZeroColumn (t : Tableau α) : Tableau α :=
  { t with
    rows := t.rows.map fun r => { r with toEquation := r.addColumn 0 }
    objective := t.objective.addColumn 0 }

/-- The tableau with one more constraint, whatever its entries are. -/
def appendStored (t : Tableau α) (c : StoredConstraint α) : Tableau α :=
  let wider := t.addZeroColumn
  { wider with
    rows := wider.rows ++ [{
      toEquation := (t.newEquation c.coefficients c.label.rhs).reduce wider.rows
      basic := t.columnCount
      label := c.label }] }

/-- The first fault of a constraint to be added: its length, its coefficients, its right-hand side. -/
def appendFault? (t : Tableau α) (c : StoredConstraint α) : Option (TableauError α) :=
  if t.columnCount < c.coefficients.length then
    some (.tooManyCoefficients c.coefficients.length t.columnCount)
  else nonFinite? .newConstraint c.coefficients <|> nonFinite? .newRightHandSide [c.label.rhs]

/-- Add a constraint that is already in `≤` form. -/
def append (t : Tableau α) (c : StoredConstraint α) : Except (TableauError α) (Tableau α) :=
  match t.appendFault? c with
  | some fault => .error fault
  | none => .ok (t.appendStored c)

/-- The name of the next constraint if the caller gives none. -/
def nextConstraintName (t : Tableau α) : String := defaultConstraintName t.rowCount

/-- Add `coefficients · v ≤ rhs` under the next default name. -/
def appendRow (t : Tableau α) (coefficients : List α) (rhs : α) :
    Except (TableauError α) (Tableau α) :=
  t.append ⟨coefficients, ⟨t.nextConstraintName, .le, rhs⟩⟩

/-- Add a constraint, `≥` in its negated form. Equations are refused. -/
def addConstraint (t : Tableau α) (c : Constraint α) : Except (TableauError α) (Tableau α) :=
  match c.stored? with
  | none => .error (.unsupportedRelation c.relation)
  | some stored => t.append stored

/-- Add an equation as a `≤` constraint followed by a `≥` constraint. -/
def addEquality (t : Tableau α) (name : String) (coefficients : List α) (rhs : α) :
    Except (TableauError α) (Tableau α) :=
  if t.columnCount < coefficients.length then
    .error (.tooManyCoefficients coefficients.length t.columnCount)
  else
    match t.addConstraint ⟨name ++ "_le", coefficients, .le, rhs⟩ with
    | .error fault => .error fault
    | .ok upper => upper.addConstraint ⟨name ++ "_ge", coefficients, .ge, rhs⟩

/-- A constraint that is accepted makes one more row. -/
@[simp] theorem rowCount_appendStored (t : Tableau α) (c : StoredConstraint α) :
    (t.appendStored c).rowCount = t.rowCount + 1 := by
  simp [appendStored, addZeroColumn, rowCount]

/-- A constraint that is accepted makes one more column. -/
@[simp] theorem columnCount_appendStored (t : Tableau α) (c : StoredConstraint α) :
    (t.appendStored c).columnCount = t.columnCount + 1 := by
  simp [appendStored, addZeroColumn, columnCount]

/-- The new slack is basic in the new row, and the rest of the basis stays. -/
@[simp] theorem basis_appendStored (t : Tableau α) (c : StoredConstraint α) :
    (t.appendStored c).basis = t.basis ++ [t.columnCount] := by
  simp [appendStored, addZeroColumn, basis]

/-- A constraint is added exactly if it has no fault. -/
theorem append_eq_ok_iff {t next : Tableau α} {c : StoredConstraint α} :
    t.append c = .ok next ↔ t.appendFault? c = none ∧ next = t.appendStored c := by
  simp only [append]
  split
  · rename_i fault
    simp [fault]
  · rename_i accepted
    simp [accepted, eq_comm (a := next)]

end Tableau

end WarmSimplex
