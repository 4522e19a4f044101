import WarmSimplex.Solve
import WarmSimplex.Tableau.Append

/-!
# Edits

Everything that can change a tableau, as data: a list of edits is a history. Performing an edit
gives the new tableau and a reply, or the reason why the edit was refused.

A refused edit changes nothing, and a history goes on after it.
-/

namespace WarmSimplex

/-- A change to a tableau. -/
inductive Edit (α : Type) where
  /-- Replace the tolerances that are given. -/
  | setTolerances (tolerance pivotTolerance : Option α)
  /-- Add a `≤` constraint over the current columns. -/
  | appendRow (coefficients : List α) (rhs : α)
  /-- Add a constraint, under the next default name if none is given. -/
  | addConstraint (name : Option String) (coefficients : List α) (relation : Relation) (rhs : α)
  /-- Add an equation as two constraints, with names made from the given or the next default one. -/
  | addEquality (name : Option String) (coefficients : List α) (rhs : α)
  /-- Pivot on a row and a column. -/
  | pivot (row column : Nat)
  /-- Solve within limits. -/
  | solve (options : SolveOptions)

/-- What an edit reports back. -/
inductive Reply (α : Type) where
  | done
  /-- The index of the new constraint. -/
  | added (constraint : Nat)
  /-- The indices of the two constraints of an equation. -/
  | addedPair (upper lower : Nat)
  | solved (report : Report α)

namespace Tableau

variable {α : Type} [Scalar α]

/-- Perform an edit. New constraints are numbered on from the last one. -/
def perform (t : Tableau α) : Edit α → Except (TableauError α) (Tableau α × Reply α)
  | .setTolerances tolerance pivotTolerance => .ok (t.withTolerances tolerance pivotTolerance, .done)
  | .appendRow coefficients rhs => (t.appendRow coefficients rhs).map (·, .added t.rowCount)
  | .addConstraint name coefficients relation rhs =>
    (t.addConstraint ⟨name.getD t.nextConstraintName, coefficients, relation, rhs⟩).map
      (·, .added t.rowCount)
  | .addEquality name coefficients rhs =>
    (t.addEquality (name.getD t.nextConstraintName) coefficients rhs).map
      (·, .addedPair t.rowCount (t.rowCount + 1))
  | .pivot row column => (t.pivot row column).map (·, .done)
  | .solve options =>
    let (report, solved) := t.solve options
    .ok (solved, .solved report)

/-- The tableau after an edit, the same one if the edit is refused. -/
def afterEdit (t : Tableau α) (e : Edit α) : Tableau α :=
  match t.perform e with
  | .ok (next, _) => next
  | .error _ => t

/-- The tableau after a history of edits. -/
def afterEdits (t : Tableau α) (history : List (Edit α)) : Tableau α :=
  history.foldl afterEdit t

end Tableau

end WarmSimplex
