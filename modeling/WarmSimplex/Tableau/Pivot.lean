import WarmSimplex.Tableau
import WarmSimplex.Tableau.Error

/-!
# Pivots

A pivot solves one row for another column and eliminates that column everywhere else. A pivot that
is undefined or smaller than the pivot tolerance is refused, and a refused pivot changes nothing.

Repricing does the same for the objective alone: it eliminates every basic column from it.
-/

namespace WarmSimplex

variable {α : Type} [Scalar α]

namespace Row

/-- The row solved for another column. -/
def solveFor (r : Row α) (column : Nat) : Row α :=
  { r with toEquation := r.normalize column, basic := column }

/-- Clear a column of the row with an equation that is solved for it. -/
def clear (r : Row α) (e : Equation α) (column : Nat) : Row α :=
  { r with toEquation := r.eliminate e column }

end Row

/-- Clear the basic column of each row from an equation, one row after the other. -/
def Equation.reduce (e : Equation α) (rows : List (Row α)) : Equation α :=
  rows.foldl (fun target r => target.eliminate r.toEquation r.basic) e

namespace Tableau

/-- The tableau after a pivot, whatever the size of the pivot. -/
def pivotAt (t : Tableau α) (row column : Nat) : Tableau α :=
  match t.rows[row]? with
  | none => t
  | some r =>
    let solved := r.solveFor column
    { t with
      rows := t.rows.mapIdx fun i other =>
        if i = row then solved else other.clear solved.toEquation column
      objective := t.objective.eliminate solved.toEquation column }

/-- Can a number of this size not be divided by? -/
def isDegenerate (t : Tableau α) (pivot : α) : Bool :=
  Scalar.isNaN pivot || decide (Scalar.abs pivot < t.pivotTolerance)

/-- Pivot on a row and a column. -/
def pivot (t : Tableau α) (row column : Nat) : Except (TableauError α) (Tableau α) :=
  if row < t.rowCount ∧ column < t.columnCount then
    let value := t.coefficient row column
    if t.isDegenerate value then .error (.degeneratePivot row column value t.pivotTolerance)
    else .ok (t.pivotAt row column)
  else .error (.pivotOutside row column t.rowCount t.columnCount)

/-- Put another objective row in place of the current one. -/
def withObjective (t : Tableau α) (objective : Equation α) : Tableau α :=
  { t with objective := objective }

/-- Write the objective in terms of the current basis. -/
def reprice (t : Tableau α) : Tableau α :=
  t.withObjective (t.objective.reduce t.rows)

/-- A pivot keeps the number of rows. -/
@[simp] theorem rowCount_pivotAt (t : Tableau α) (row column : Nat) :
    (t.pivotAt row column).rowCount = t.rowCount := by
  simp only [pivotAt]
  split <;> simp [rowCount]

/-- A pivot keeps the decision variables. -/
@[simp] theorem decisions_pivotAt (t : Tableau α) (row column : Nat) :
    (t.pivotAt row column).decisions = t.decisions := by
  simp only [pivotAt]
  split <;> rfl

/-- A pivot on a row inside the tableau puts its column in that place of the basis. -/
theorem basis_pivotAt (t : Tableau α) (row column : Nat) :
    (t.pivotAt row column).basis = t.basis.set row column := by
  simp only [pivotAt, basis]
  split
  · rename_i h
    rw [List.set_eq_of_length_le]
    simpa using List.getElem?_eq_none_iff.1 h
  · apply List.ext_getElem
    · simp
    · intro i _ _
      by_cases hi : i = row
      · subst hi
        simp [Row.solveFor]
      · simp [Row.clear, hi, Ne.symm hi]

/-- A pivot succeeds exactly inside the tableau and at an entry that is not degenerate. -/
theorem pivot_eq_ok_iff {t next : Tableau α} {row column : Nat} :
    t.pivot row column = .ok next ↔
      row < t.rowCount ∧ column < t.columnCount ∧
        t.isDegenerate (t.coefficient row column) = false ∧ next = t.pivotAt row column := by
  simp only [pivot]
  split
  · rename_i inside
    split
    · rename_i degenerate
      simp [degenerate]
    · rename_i usable
      simp [inside, usable, eq_comm (a := next)]
  · rename_i outside
    refine ⟨fun refused => ?_, fun made => absurd ⟨made.1, made.2.1⟩ outside⟩
    cases refused

end Tableau

end WarmSimplex
