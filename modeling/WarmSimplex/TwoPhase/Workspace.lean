import WarmSimplex.Equation
import WarmSimplex.Program
import WarmSimplex.Selection

/-!
# The workspace of the two-phase method

A full resolve works on rows of its own. Every row has a non-negative right-hand side: a row that
does not is negated first. A `≤` row starts with its slack as basic column; a `≥` row has a surplus
column and starts with an artificial column, as does an equation. The columns are the variables,
then slacks and surpluses, then artificials.

A pivot leaves rounding remainders in the column that it eliminates, unlike one of a `Tableau`.
Coefficient lists may have any length: missing coefficients are zero and those past the last
variable are dropped.
-/

namespace WarmSimplex.TwoPhase

variable {α : Type} [Scalar α]

/-- An equation with the column that it is solved for. -/
structure BasicRow (α : Type) extends Equation α where
  basic : Nat

/-- The state of a resolve. -/
structure Workspace (α : Type) where
  rows : List (BasicRow α)
  /-- Reduced costs and objective value of the current phase. -/
  objective : Equation α
  variableCount : Nat
  /-- The first artificial column. -/
  artificialStart : Nat
  /-- The pivots made so far. -/
  iterations : Nat

/-- The relation of a constraint once its right-hand side is non-negative. -/
def orientedRelation (c : Constraint α) : Relation :=
  if c.rhs < 0 then
    match c.relation with
    | .le => .ge
    | .ge => .le
    | .eq => .eq
  else c.relation

/-- The first `length` entries of a list, filled up with zeros. -/
def fit (length : Nat) (values : List α) : List α :=
  values.take length ++ List.replicate (length - values.length) 0

/-- The number of slack and surplus columns of a list of constraints. -/
def slackCount (constraints : List (Constraint α)) : Nat :=
  constraints.countP fun c => decide (orientedRelation c ≠ .eq)

/-- The number of artificial columns of a list of constraints. -/
def artificialCount (constraints : List (Constraint α)) : Nat :=
  constraints.countP fun c => decide (orientedRelation c ≠ .le)

/-- A constraint over `width` variables, with zeros in all other columns. -/
def orientedEquation (width columns : Nat) (c : Constraint α) : Equation α :=
  let sign : α := if c.rhs < 0 then -1 else 1
  ⟨fit width (c.coefficients.map (sign * ·)) ++ List.replicate (columns - width) 0, sign * c.rhs⟩

/-- The rows of a list of constraints, given the next free slack column and artificial column. -/
def initialRows (width columns : Nat) : Nat → Nat → List (Constraint α) → List (BasicRow α)
  | _, _, [] => []
  | slack, artificial, c :: rest =>
    let e := orientedEquation width columns c
    match orientedRelation c with
    | .le =>
      { toEquation := e.setCoefficient slack 1, basic := slack } ::
        initialRows width columns (slack + 1) artificial rest
    | .ge =>
      { toEquation := (e.setCoefficient slack (-1)).setCoefficient artificial 1, basic := artificial } ::
        initialRows width columns (slack + 1) (artificial + 1) rest
    | .eq =>
      { toEquation := e.setCoefficient artificial 1, basic := artificial } ::
        initialRows width columns slack (artificial + 1) rest

/-- Subtract the multiple of an equation that clears a column in which it is one. -/
def clearWith (target e : Equation α) (column : Nat) : Equation α :=
  let factor := target.coefficient column
  if factor == 0 then target else target.subtractMultiple factor e

namespace Workspace

/-- The workspace of a program, before the first phase. -/
def ofProgram (p : LinearProgram α) : Workspace α :=
  let width := p.variableCount
  let artificialStart := width + slackCount p.constraints
  let columns := artificialStart + artificialCount p.constraints
  { rows := initialRows width columns width artificialStart p.constraints
    objective :=
      ⟨fit width (p.objective.coefficients.map (-p.objective.sense.sign * ·)) ++
        List.replicate (columns - width) 0, 0⟩
    variableCount := width
    artificialStart := artificialStart
    iterations := 0 }

/-- The number of columns, artificial ones included. -/
def columnCount (w : Workspace α) : Nat := w.objective.coefficients.length

/-- Solve a row for a column and eliminate that column everywhere else. -/
def pivot (w : Workspace α) (row column : Nat) : Workspace α :=
  match w.rows[row]? with
  | none => w
  | some r =>
    let solved := r.divide (r.coefficient column)
    { w with
      rows := w.rows.mapIdx fun i other =>
        if i = row then { toEquation := solved, basic := column }
        else { other with toEquation := clearWith other.toEquation solved column }
      objective := clearWith w.objective solved column
      iterations := w.iterations + 1 }

/-- The lowest column of negative reduced cost before the given one. -/
def enteringColumn? (w : Workspace α) (tolerance : α) (before : Nat) : Option Nat :=
  (w.objective.coefficients.take before).findIdx? fun d => decide (d < -tolerance)

/-- A row that bounds the increase of a column. -/
structure Bound (α : Type) where
  row : Nat
  basic : Nat
  ratio : α

/-- Is one bound tighter than another by more than the tolerance, or as tight with a lower basic
column? -/
def Bound.beats (tolerance : α) (next held : Bound α) : Bool :=
  decide (next.ratio < held.ratio - tolerance) ||
    (decide (next.ratio ≤ held.ratio + tolerance) && decide (next.basic < held.basic))

/-- The rows that bound the increase of a column. -/
def bounds (w : Workspace α) (tolerance : α) (column : Nat) : List (Bound α) :=
  w.rows.zipIdx.filterMap fun (r, i) =>
    let a := r.coefficient column
    if tolerance < a then some ⟨i, r.basic, Scalar.larger r.rhs 0 / a⟩ else none

/-- The row that leaves the basis for a column; among equally tight ones, that of the lowest basic
column. -/
def leavingRow? (w : Workspace α) (tolerance : α) (column : Nat) : Option Nat :=
  (scan (Bound.beats tolerance) (w.bounds tolerance column)).map (·.row)

/-- The value of each variable: of several rows that a variable is basic in, the last one counts. -/
def values (w : Workspace α) : List α :=
  (List.range w.variableCount).map fun column =>
    match w.rows.reverse.find? (·.basic == column) with
    | some r => r.rhs
    | none => 0

end Workspace

end WarmSimplex.TwoPhase
