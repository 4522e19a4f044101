import WarmSimplex.Equation
import WarmSimplex.Program

/-!
# Tableaus

A simplex tableau holds a linear program in the form "maximize, subject to `≤` rows", rewritten in
terms of its current basis. Its columns are the decision variables followed by one slack for each
row, so the slack of constraint `i` is column `structuralCount + i` and constraint `i` is row `i`.
Constraints are only ever added at the end, which keeps every index valid.

A row carries its basic column and its label, and a decision variable its name and its cost. `Plain` has
these as lists of their own.

Accessors that end in a question mark return nothing outside the tableau. An index equal to the
number of columns is inside: it reads the right-hand side of a row, or the objective value.
-/

namespace WarmSimplex

/-- A decision variable with its objective coefficient as the caller wrote it. -/
structure Decision (α : Type) where
  name : String
  cost : α
deriving DecidableEq

/-- What a row stands for: a constraint, and the right-hand side of its `≤` form. -/
structure Label (α : Type) where
  name : String
  relation : Relation
  rhs : α
deriving DecidableEq

/-- One constraint of a tableau, solved for its basic column. -/
structure Row (α : Type) extends Equation α where
  basic : Nat
  label : Label α
deriving DecidableEq

/-- A linear program in terms of a basis. -/
structure Tableau (α : Type) where
  decisions : List (Decision α)
  rows : List (Row α)
  /-- Reduced costs, and the objective value in maximization form. -/
  objective : Equation α
  sense : Sense
  /-- Slack that the feasibility and optimality tests allow. -/
  tolerance : α
  /-- The smallest magnitude accepted as a pivot. -/
  pivotTolerance : α
deriving DecidableEq

/-- Whether a column is a decision variable or the slack of a constraint. -/
inductive ColumnKind where
  | structural
  | slack (constraint : Nat)
deriving DecidableEq, Repr

/-- Whether a column is basic, and in which row. -/
inductive ColumnStatus where
  | basic (row : Nat)
  | nonBasic
deriving DecidableEq, Repr

/-- A column as seen from outside the tableau. -/
structure Column where
  index : Nat
  kind : ColumnKind
  status : ColumnStatus
deriving DecidableEq, Repr

/-- Does the column belong to the basis? -/
def Column.isBasic (c : Column) : Bool :=
  match c.status with
  | .basic _ => true
  | .nonBasic => false

namespace Tableau

variable {α : Type} [Scalar α]

/-- The number of constraints. -/
def rowCount (t : Tableau α) : Nat := t.rows.length

/-- The number of columns, slacks included. -/
def columnCount (t : Tableau α) : Nat := t.objective.coefficients.length

/-- The number of decision variables. -/
def structuralCount (t : Tableau α) : Nat := t.decisions.length

/-- The column of the slack of a constraint. -/
def slackColumn (t : Tableau α) (constraint : Nat) : Nat := t.structuralCount + constraint

/-- The basic column of each row. -/
def basis (t : Tableau α) : List Nat := t.rows.map (·.basic)

/-- The reduced cost of each column. -/
def reducedCosts (t : Tableau α) : List α := t.objective.coefficients

/-- The reduced cost of a column. -/
def reducedCost (t : Tableau α) (column : Nat) : α := t.objective.coefficient column

/-- The objective value in maximization form. -/
def objectiveValue (t : Tableau α) : α := t.objective.rhs

/-- The right-hand side of each row. -/
def rightHandSides (t : Tableau α) : List α := t.rows.map (·.rhs)

/-- The entry of a row in a column, zero outside the tableau. -/
def coefficient (t : Tableau α) (row column : Nat) : α :=
  match t.rows[row]? with
  | some r => r.coefficient column
  | none => 0

/-- The first row that a column is basic in. -/
def basicRow? (t : Tableau α) (column : Nat) : Option Nat :=
  t.rows.findIdx? (·.basic == column)

/-- Is the column basic in some row? -/
def isBasic (t : Tableau α) (column : Nat) : Bool :=
  t.rows.any (·.basic == column)

/-- The value of a column at the current basic solution: the right-hand side of its row if it is
basic, zero otherwise. -/
def value (t : Tableau α) (column : Nat) : α :=
  match t.rows.find? (·.basic == column) with
  | some r => r.rhs
  | none => 0

/-- The coefficients of a row. -/
def row? (t : Tableau α) (row : Nat) : Option (List α) :=
  t.rows[row]?.map (·.coefficients)

/-- The entry of a row in a column. -/
def coefficient? (t : Tableau α) (row column : Nat) : Option α :=
  t.rows[row]?.bind (·.entries[column]?)

/-- The right-hand side of a row. -/
def rhs? (t : Tableau α) (row : Nat) : Option α :=
  t.rows[row]?.map (·.rhs)

/-- The reduced cost of a column. -/
def reducedCost? (t : Tableau α) (column : Nat) : Option α :=
  t.objective.entries[column]?

/-- What a column is, and whether it is basic. -/
def column? (t : Tableau α) (column : Nat) : Option Column :=
  if column < t.columnCount then
    some {
      index := column
      kind := if column < t.structuralCount then .structural else .slack (column - t.structuralCount)
      status := match t.basicRow? column with
        | some row => .basic row
        | none => .nonBasic }
  else none

/-- The name of a constraint. -/
def constraintName? (t : Tableau α) (constraint : Nat) : Option String :=
  t.rows[constraint]?.map (·.label.name)

/-- The relation of a constraint as the caller wrote it. -/
def constraintRelation? (t : Tableau α) (constraint : Nat) : Option Relation :=
  t.rows[constraint]?.map (·.label.relation)

/-- The name of a column: a variable's own, or one made from the constraint of a slack. -/
def columnName? (t : Tableau α) (column : Nat) : Option String :=
  if column < t.structuralCount then t.decisions[column]?.map (·.name)
  else (t.constraintName? (column - t.structuralCount)).map ("slack_" ++ ·)

/-- Replace the tolerances that are given. -/
def withTolerances (t : Tableau α) (tolerance pivotTolerance : Option α) : Tableau α :=
  { t with
    tolerance := tolerance.getD t.tolerance
    pivotTolerance := pivotTolerance.getD t.pivotTolerance }

/-- No right-hand side is below zero by more than the tolerance. -/
def isPrimalFeasible (t : Tableau α) : Bool :=
  t.rows.all fun r => decide (-t.tolerance ≤ r.rhs)

/-- No reduced cost is below zero by more than the tolerance. -/
def isDualFeasible (t : Tableau α) : Bool :=
  t.reducedCosts.all fun d => decide (-t.tolerance ≤ d)

/-- Feasible in both senses. -/
def isOptimal (t : Tableau α) : Bool :=
  t.isPrimalFeasible && t.isDualFeasible

/-- Is a column, up to the tolerance, one in the given row and zero in every other row? -/
def isUnitColumn (t : Tableau α) (row column : Nat) : Bool :=
  t.rows.zipIdx.all fun (r, i) =>
    !decide (t.tolerance < Scalar.abs (r.coefficient column - if i = row then 1 else 0))

/-- Are the basic columns distinct, and up to the tolerance unit columns of reduced cost zero? -/
def verifyBasis (t : Tableau α) : Bool :=
  decide t.basis.Nodup && t.basis.zipIdx.all fun (column, row) =>
    decide (column < t.columnCount) && t.isUnitColumn row column &&
      !decide (t.tolerance < Scalar.abs (t.reducedCost column))

end Tableau

end WarmSimplex
