import WarmSimplex.Plain
import WarmSimplex.Solve

/-!
# Solving on plain lists

The solver on a tableau on plain lists. Right-hand sides, entries and reduced costs are read where they are
needed, each with its index checked, and the pivots of a call are counted.
-/

namespace WarmSimplex

/-- A refused pivot, as the refusal names it. A position outside the tableau is not one. -/
def TableauError.rejected? {α : Type} : TableauError α → Option (RejectedPivot α)
  | .degeneratePivot row column value _ => some ⟨row, column, value⟩
  | _ => none

namespace Plain

/-- A solve on its way. -/
structure Run (α : Type) where
  tableau : Plain α
  iterations : Nat
  rejected : List (RejectedPivot α)

/-- What a solve reports. -/
structure Report (α : Type) where
  status : Status
  iterations : Nat
  certificate : Option (Certificate α)
  /-- The refused pivots and the tableau as the solve left it, if it stopped without an answer. -/
  diagnostics : Option (List (RejectedPivot α) × Plain α)

variable {α : Type} [Scalar α]

/-! ## Choosing a pivot -/

/-- The row with the most negative right-hand side. -/
def leavingRow (p : Plain α) : Option (Option Nat) := do
  let found ← (List.range p.rows.length).mapM fun i =>
    (p.rhs i).map fun b => if b < -p.tolerance then some (⟨i, b⟩ : Ranked α) else none
  some ((scan (Ranked.below p.tolerance) (found.filterMap id)).map (·.index))

/-- The candidate for a dual pivot in a column with the given coefficient, if it is one. -/
def candidate (p : Plain α) (a : α) (column : Nat) : Option (Option (EnteringCandidate α)) :=
  if a < -p.tolerance then (p.reducedCost column).map fun d => some ⟨column, Scalar.abs (d / a), a⟩
  else some none

/-- The candidates for a dual pivot on a row, best first. -/
def enteringCandidates (p : Plain α) (row : Nat) : Option (List (EnteringCandidate α)) := do
  let coefficients ← p.coefficients row
  let found ← coefficients.zipIdx.mapM fun (a, column) => p.candidate a column
  let candidates := found.filterMap id
  some (rankCandidates p.tolerance candidates.length candidates)

/-- The column that enters on a primal pivot. -/
def primalEntering (p : Plain α) (rule : EnteringRule) : Option (Option Nat) := do
  let costs ← p.reducedCosts
  let improving := costs.zipIdx.filterMap fun (d, column) =>
    if d < -p.tolerance then some (⟨column, d⟩ : Ranked α) else none
  match rule with
  | .bland => some (improving.head?.map (·.index))
  | .dantzig => some ((scan (Ranked.notAbove p.tolerance) improving).map (·.index))

/-- The increase of a column that a row allows, if it bounds it. -/
def boundingRow (p : Plain α) (column i : Nat) : Option (Option (Ranked α)) := do
  let a ← p.coefficient i column
  if Scalar.larger p.tolerance p.pivotTolerance < a then
    (p.rhs i).map fun b => some ⟨i, Scalar.larger b 0 / a⟩
  else some none

/-- The row that bounds the increase of a column most tightly. -/
def primalLeaving (p : Plain α) (column : Nat) : Option (Option Nat) := do
  let found ← (List.range p.rows.length).mapM (p.boundingRow column)
  some ((scan (Ranked.below p.tolerance) (found.filterMap id)).map (·.index))

/-- A row as evidence of infeasibility. -/
def certificate (p : Plain α) (row : Nat) : Option (Certificate α) := do
  let basic ← p.basis[row]?
  let coefficients ← p.coefficients row
  let rhs ← p.rhs row
  some ⟨row, basic, coefficients, rhs⟩

/-! ## Moves -/

/-- The move that repairs a row. -/
def dualMove (p : Plain α) (row : Nat) : Option (Move α) := do
  match ← p.enteringCandidates row with
  | [] => (p.certificate row).map fun c => .stop (.infeasible c)
  | best :: others => some (.pivot .dual row ((best :: others).map (·.column)))

/-- The move that improves the objective in a column. -/
def primalMove (p : Plain α) (column : Nat) : Option (Move α) := do
  match ← p.primalLeaving column with
  | none => some (.stop .unbounded)
  | some row => some (.pivot .primal row [column])

/-- The next move: repair a row, else improve the objective, else stop. -/
def nextMove (p : Plain α) (rule : EnteringRule) : Option (Move α) := do
  match ← p.leavingRow with
  | some row => p.dualMove row
  | none =>
    match ← p.primalEntering rule with
    | none => some (.stop .optimal)
    | some column => p.primalMove column

/-- Pivot on a row in the first column that is not refused. -/
def pivotFirst (p : Plain α) (row : Nat) :
    List Nat → Option (List (RejectedPivot α) × Option (Plain α))
  | [] => some ([], none)
  | column :: rest => do
    match ← p.pivot row column with
    | .ok next => some ([], some next)
    | .error fault =>
      let (rejected, made) ← p.pivotFirst row rest
      some (fault.rejected?.toList ++ rejected, made)

/-- Make moves until one of them stops, with a budget of pivots. -/
def Run.iterate (rule : EnteringRule) (deadline : Deadline) (budget : Nat) (r : Run α) :
    Option (Run α × Verdict α) :=
  match r.tableau.nextMove rule, budget with
  | none, _ => none
  | some (.stop verdict), _ => some (r, verdict)
  | some (.pivot ..), 0 => some (r, .iterationLimit)
  | some (.pivot _ row columns), budget + 1 =>
    if deadline.isOver r.iterations then some (r, .timeLimit)
    else
      match r.tableau.pivotFirst row columns with
      | none => none
      | some (rejected, none) => some ({ r with rejected := r.rejected ++ rejected }, .iterationLimit)
      | some (rejected, some next) =>
        Run.iterate rule deadline budget ⟨next, r.iterations + 1, r.rejected ++ rejected⟩
termination_by structural budget

/-! ## Solves -/

/-- Restore primal feasibility against a zero objective, and put the objective back. -/
def restoreFeasibility (p : Plain α) (options : SolveOptions) : Option (Run α × Verdict α) := do
  let columns ← p.columnCount
  let idle := p.withObjective (List.replicate (columns + 1) 0)
  let (r, verdict) ← Run.iterate options.rule options.deadline options.maxIterations ⟨idle, 0, []⟩
  let priced ← (r.tableau.withObjective p.objective).reprice
  some ({ r with tableau := priced }, verdict)

/-- Pivot to a verdict, with a feasibility phase first if the tableau needs one. -/
def run (p : Plain α) (options : SolveOptions) : Option (Run α × Verdict α) := do
  let primal ← p.isPrimalFeasible
  let dual ← p.isDualFeasible
  if primal || dual then
    Run.iterate options.rule options.deadline options.maxIterations ⟨p, 0, []⟩
  else
    match ← p.restoreFeasibility options with
    | (r, .optimal) => r.iterate options.rule options.deadline (options.maxIterations - r.iterations)
    | stopped => some stopped

/-- The report on a finished run. -/
def Report.ofRun (r : Run α) (verdict : Verdict α) : Report α where
  status := verdict.status
  iterations := r.iterations
  certificate := verdict.certificate?
  diagnostics := match verdict with
    | .iterationLimit => some (r.rejected, r.tableau)
    | .timeLimit => some (r.rejected, r.tableau)
    | _ => none

/-- Solve a tableau. -/
def solve (p : Plain α) (options : SolveOptions) : Option (Report α × Plain α) := do
  let (r, verdict) ← p.run options
  some (.ofRun r verdict, r.tableau)

end Plain

end WarmSimplex
