import WarmSimplex.TwoPhase.Workspace
import WarmSimplex.Solution

/-!
# The two-phase method

A full resolve of a linear program with any mix of relations, independent of `Tableau`. The first
phase maximizes the negated sum of the artificial columns and then removes them from the basis; the
second phase maximizes the objective over the other columns. Both choose the lowest eligible index,
which rules out cycling in exact arithmetic.

The limit on pivots is per phase. Removing artificial columns is not counted against it.
-/

namespace WarmSimplex

namespace TwoPhase

variable {α : Type} [Scalar α]

/-- Limits of a resolve. -/
structure Options (α : Type) [Scalar α] where
  maxIterations : Nat := 10000
  tolerance : α := Scalar.defaultTolerance

/-- How a phase ended. -/
inductive PhaseEnd where
  | optimal
  | unbounded
  | iterationLimit
deriving DecidableEq, Repr

/-- The outcome of a resolve. -/
structure Outcome (α : Type) where
  status : Status
  /-- The value of each variable, none unless optimal. -/
  values : List α
  objectiveValue : ObjectiveValue α
  /-- The pivots of both phases. -/
  iterations : Nat

namespace Workspace

/-- Pivot with the columns before the given one until no column improves the objective. -/
def runPhase (tolerance : α) (before : Nat) : Nat → Workspace α → Workspace α × PhaseEnd
  | 0, w =>
    match w.enteringColumn? tolerance before with
    | none => (w, .optimal)
    | some _ => (w, .iterationLimit)
  | budget + 1, w =>
    match w.enteringColumn? tolerance before with
    | none => (w, .optimal)
    | some column =>
      match w.leavingRow? tolerance column with
      | none => (w, .unbounded)
      | some row => runPhase tolerance before budget (w.pivot row column)

/-- The objective of the first phase: one for each artificial column, reduced by the rows that are
solved for one. -/
def artificialObjective (w : Workspace α) : Equation α :=
  let ones : Equation α :=
    ⟨List.replicate w.artificialStart 0 ++ List.replicate (w.columnCount - w.artificialStart) 1, 0⟩
  w.rows.foldl (fun e r =>
    if r.basic < w.artificialStart then e else e.subtractMultiple 1 r.toEquation) ones

/-- The first column that is not artificial and that a row can be solved for. -/
def replacement? (w : Workspace α) (tolerance : α) (r : BasicRow α) : Option Nat :=
  (r.coefficients.take w.artificialStart).findIdx? fun a => decide (tolerance < Scalar.abs a)

/-- Take the artificial columns out of the basis, from the given row on for the given number of
rows. A row without another column to be solved for is redundant and is dropped. -/
def dropArtificials (tolerance : α) : Nat → Nat → Workspace α → Workspace α
  | 0, _, w => w
  | remaining + 1, row, w =>
    match w.rows[row]? with
    | none => w
    | some r =>
      if r.basic < w.artificialStart then dropArtificials tolerance remaining (row + 1) w
      else
        match w.replacement? tolerance r with
        | some column => dropArtificials tolerance remaining (row + 1) (w.pivot row column)
        | none => dropArtificials tolerance remaining row { w with rows := w.rows.eraseIdx row }

/-- Write an objective in terms of the current basis. -/
def reprice (w : Workspace α) (objective : Equation α) : Workspace α :=
  { w with objective := w.rows.foldl (fun e r => clearWith e r.toEquation r.basic) objective }

/-- The first phase. Returns the status if the resolve ends with it. -/
def firstPhase (options : Options α) (w : Workspace α) : Workspace α × Option Status :=
  match runPhase options.tolerance w.columnCount options.maxIterations
      { w with objective := w.artificialObjective } with
  | (reached, .unbounded) => (reached, some .infeasible)
  | (reached, .iterationLimit) => (reached, some .iterationLimit)
  | (reached, .optimal) =>
    if reached.objective.rhs < -options.tolerance then (reached, some .infeasible)
    else
      ((dropArtificials options.tolerance reached.rows.length 0 reached).reprice w.objective, none)

/-- The second phase. -/
def secondPhase (options : Options α) (w : Workspace α) : Workspace α × Status :=
  match runPhase options.tolerance w.artificialStart options.maxIterations w with
  | (reached, .optimal) => (reached, .optimal)
  | (reached, .unbounded) => (reached, .unbounded)
  | (reached, .iterationLimit) => (reached, .iterationLimit)

/-- Both phases; the first one only if there are artificial columns. -/
def run (options : Options α) (w : Workspace α) : Workspace α × Status :=
  if w.artificialStart < w.columnCount then
    match w.firstPhase options with
    | (reached, some status) => (reached, status)
    | (reached, none) => reached.secondPhase options
  else w.secondPhase options

end Workspace

end TwoPhase

/-- Resolve a program from scratch. -/
def LinearProgram.resolve {α : Type} [Scalar α] (p : LinearProgram α)
    (options : TwoPhase.Options α) : TwoPhase.Outcome α :=
  match (TwoPhase.Workspace.ofProgram p).run options with
  | (w, .optimal) => ⟨.optimal, w.values, .attained (p.evaluate w.values), w.iterations⟩
  | (w, status) => ⟨status, [], .withoutOptimum status p.objective.sense, w.iterations⟩

end WarmSimplex
