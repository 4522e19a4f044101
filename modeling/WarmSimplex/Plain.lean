import WarmSimplex.Access
import WarmSimplex.Tableau.Append

/-!
# Tableaus on plain lists

A tableau as it lies in memory: rows of numbers with the right-hand side last, the objective row with its
value last, and lists of their own for the basic columns, the labels, the names and the costs. Nothing ties
these lists together but the computations on them, which write to each of them on its own.

Every index that is computed is checked: a computation that reads, writes or inserts outside of a list has
no result. One that is refused has the reason as its result.
-/

namespace WarmSimplex

/-- A tableau on plain lists. -/
structure Plain (α : Type) where
  /-- The rows, each with its right-hand side last. -/
  rows : List (List α)
  /-- The reduced costs, with the objective value last. -/
  objective : List α
  /-- The basic column of each row. -/
  basis : List Nat
  structuralCount : Nat
  tolerance : α
  pivotTolerance : α
  sense : Sense
  /-- The cost of each decision variable. -/
  costs : List α
  variableNames : List String
  /-- The label of each row. -/
  labels : List (Label α)

variable {α : Type} [Scalar α]

namespace Plain

/-! ## Reading -/

/-- The number of columns, slacks included. -/
def columnCount (p : Plain α) : Option Nat := predecessor p.objective.length

/-- A row without its right-hand side. -/
def coefficients (p : Plain α) (row : Nat) : Option (List α) := do
  let entries ← p.rows[row]?
  let last ← predecessor entries.length
  some (entries.take last)

/-- The entry of a row in a column. -/
def coefficient (p : Plain α) (row column : Nat) : Option α := do
  let entries ← p.rows[row]?
  entries[column]?

/-- The right-hand side of a row. -/
def rhs (p : Plain α) (row : Nat) : Option α := do
  let entries ← p.rows[row]?
  let last ← predecessor entries.length
  entries[last]?

/-- The reduced cost of a column. -/
def reducedCost (p : Plain α) (column : Nat) : Option α := p.objective[column]?

/-- The reduced cost of each column. -/
def reducedCosts (p : Plain α) : Option (List α) := p.columnCount.map p.objective.take

/-- The objective value in maximization form. -/
def objectiveValue (p : Plain α) : Option α := do
  let columns ← p.columnCount
  p.objective[columns]?

/-- The column of the slack of a constraint. -/
def slackColumn (p : Plain α) (constraint : Nat) : Nat := p.structuralCount + constraint

/-- The first row that a column is basic in. -/
def basicRow? (p : Plain α) (column : Nat) : Option Nat := p.basis.findIdx? (· == column)

/-- The value of a column: the right-hand side of its row if it is basic, zero otherwise. -/
def value (p : Plain α) (column : Nat) : Option α :=
  match p.basicRow? column with
  | some row => p.rhs row
  | none => some 0

/-- The name of a column: a variable's own, or one made from the constraint of a slack. -/
def columnName (p : Plain α) (column : Nat) : Option String :=
  if column < p.structuralCount then p.variableNames[column]?
  else p.labels[column - p.structuralCount]?.map fun label => "slack_" ++ label.name

/-- No right-hand side is below zero by more than the tolerance. -/
def isPrimalFeasible (p : Plain α) : Option Bool :=
  (List.range p.rows.length).allM fun i => (p.rhs i).map fun b => decide (-p.tolerance ≤ b)

/-- No reduced cost is below zero by more than the tolerance. -/
def isDualFeasible (p : Plain α) : Option Bool :=
  p.reducedCosts.map fun costs => costs.all fun d => decide (-p.tolerance ≤ d)

/-! ## Elimination -/

/-- Subtract a multiple of a row from another one, as far as both go. -/
def subtract (factor : α) : List α → List α → List α
  | t :: target, a :: source => (t - factor * a) :: subtract factor target source
  | target, _ => target

/-- Clear a column with a row that is one there. The entry is set to an exact zero. -/
def eliminate (target source : List α) (column : Nat) : Option (List α) := do
  let factor ← target[column]?
  if factor == 0 then some target else write (subtract factor target source) column 0

/-- Clear the basic column of each row, one row after the other. -/
def reduce (target : List α) (rows : List (List α)) (basis : List Nat) : Option (List α) :=
  (rows.zip basis).foldlM (fun target (row, basic) => eliminate target row basic) target

/-! ## Building -/

/-- A row of the first tableau: its coefficients, one in the column of its slack, and its right-hand
side. -/
def slackRow (columns slack : Nat) (coefficients : List α) (rhs : α) : Option (List α) := do
  let row := coefficients.take (columns + 1) ++ List.replicate (columns + 1 - coefficients.length) 0
  let row ← write row slack 1
  write row columns rhs

/-- The tableau of "maximize `c · x` subject to `a x ≤ b`". -/
def build (a : List (List α)) (b c : List α) : Option (Except (TableauError α) (Plain α)) :=
  match shapeFault? a b c with
  | some fault => some (.error fault)
  | none => do
    let columns := c.length + b.length
    let rows ← (a.zip b).zipIdx.mapM fun ((row, rhs), i) => slackRow columns (c.length + i) row rhs
    let objective ← writeAll (List.replicate (columns + 1) 0) (c.map (-·))
    some (.ok
      { rows := rows
        objective := objective
        basis := List.range' c.length b.length
        structuralCount := c.length
        tolerance := Scalar.defaultTolerance
        pivotTolerance := Scalar.defaultTolerance
        sense := .maximize
        costs := c
        variableNames := (List.range c.length).map Tableau.defaultVariableName
        labels := b.zipIdx.map fun (rhs, i) => ⟨Tableau.defaultConstraintName i, .le, rhs⟩ })

/-- The same, for non-negative right-hand sides. -/
def ofMatrix (a : List (List α)) (b c : List α) : Option (Except (TableauError α) (Plain α)) :=
  match negativeRightHandSide? b with
  | some fault => some (.error fault)
  | none => build a b c

/-- The rows, right-hand sides and labels of constraints in `≤` form. -/
structure Gathered (α : Type) where
  rows : List (List α)
  rhs : List α
  labels : List (Label α)

/-- Gather one more constraint, or its first fault. -/
def Gathered.next (width : Nat) (g : Gathered α) (c : Constraint α) :
    Except (TableauError α) (Gathered α) :=
  (c.store width).map fun stored =>
    ⟨g.rows ++ [stored.coefficients], g.rhs ++ [stored.label.rhs], g.labels ++ [stored.label]⟩

/-- Gather all constraints, or the first fault. -/
def gather (width : Nat) (constraints : List (Constraint α)) : Except (TableauError α) (Gathered α) :=
  constraints.foldlM (Gathered.next width) ⟨[], [], []⟩

/-- The tableau of a program without equations. Names, labels and costs are put in after it was built. -/
def ofProgram (p : LinearProgram α) : Option (Except (TableauError α) (Plain α)) :=
  if p.objective.coefficients.length ≠ p.variableCount then
    some (.error (.objectiveWidth p.objective.coefficients.length p.variableCount))
  else
    match gather p.variableCount p.constraints with
    | .error fault => some (.error fault)
    | .ok gathered => (build gathered.rows gathered.rhs p.costs).map fun built => built.map fun q =>
      { q with
        variableNames := p.variableNames
        labels := gathered.labels
        sense := p.objective.sense
        costs := p.objective.coefficients }

/-! ## Changes -/

/-- Replace the tolerances that are given. -/
def withTolerances (p : Plain α) (tolerance pivotTolerance : Option α) : Plain α :=
  { p with
    tolerance := tolerance.getD p.tolerance
    pivotTolerance := pivotTolerance.getD p.pivotTolerance }

/-- Put another objective row in place of the current one. -/
def withObjective (p : Plain α) (objective : List α) : Plain α :=
  { p with objective := objective }

/-- Can a number of this size not be divided by? -/
def isDegenerate (p : Plain α) (pivot : α) : Bool :=
  Scalar.isNaN pivot || decide (Scalar.abs pivot < p.pivotTolerance)

/-- Pivot on a row and a column. The row is taken out while it is solved, and an empty one stands in its
place. -/
def pivot (p : Plain α) (row column : Nat) : Option (Except (TableauError α) (Plain α)) := do
  let columns ← p.columnCount
  if row < p.rows.length ∧ column < columns then
    let value ← p.coefficient row column
    if p.isDegenerate value then some (.error (.degeneratePivot row column value p.pivotTolerance))
    else
      let taken ← p.rows[row]?
      let rows ← write p.rows row []
      let solved ← write (taken.map (· / value)) column 1
      let rows ← update rows.length
        (fun i target => if i = row then some target else eliminate target solved column) rows
      let objective ← eliminate p.objective solved column
      let rows ← write rows row solved
      let basis ← write p.basis row column
      some (.ok { p with rows := rows, objective := objective, basis := basis })
  else some (.error (.pivotOutside row column p.rows.length columns))

/-- Add a constraint in `≤` form: a column of zeros before the right-hand sides, then its row, reduced. -/
def append (p : Plain α) (c : StoredConstraint α) : Option (Except (TableauError α) (Plain α)) := do
  let columns ← p.columnCount
  if columns < c.coefficients.length then
    some (.error (.tooManyCoefficients c.coefficients.length columns))
  else
    match nonFinite? .newConstraint c.coefficients <|> nonFinite? .newRightHandSide [c.label.rhs] with
    | some fault => some (.error fault)
    | none =>
      let row ← writeAll (List.replicate (columns + 2) 0) c.coefficients
      let row ← write row columns 1
      let row ← write row (columns + 1) c.label.rhs
      let rows ← p.rows.mapM (insertAt · columns 0)
      let objective ← insertAt p.objective columns 0
      let row ← reduce row rows p.basis
      some (.ok
        { p with
          rows := rows ++ [row]
          objective := objective
          basis := p.basis ++ [columns]
          labels := p.labels ++ [c.label] })

/-- Write the objective in terms of the current basis. -/
def reprice (p : Plain α) : Option (Plain α) :=
  (reduce p.objective p.rows p.basis).map p.withObjective

end Plain

end WarmSimplex
