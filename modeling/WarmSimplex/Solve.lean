import WarmSimplex.Selection
import WarmSimplex.Tableau.Pivot

/-!
# Solving a tableau

The solver pivots until the tableau is both primal and dual feasible, or until it knows that this
cannot happen. A row with a negative right-hand side calls for a dual pivot, which is the warm start
after a constraint was added; otherwise a negative reduced cost calls for a primal pivot. If the
tableau is feasible in neither sense, the objective is set aside and dual pivots against a zero
objective come first.

The number of pivots of one call is limited, and a deadline is looked at before each of them. The
clock does not enter: a deadline that passes during a solve passes before one of its pivots, and it
is given by the number of pivots made until then.
-/

namespace WarmSimplex

/-- How a solve ended. -/
inductive Status where
  /-- Primal and dual feasible. -/
  | optimal
  /-- The constraints cannot be met. -/
  | infeasible
  /-- The objective grows without bound. -/
  | unbounded
  /-- The pivots ran out, or no usable pivot was left. -/
  | iterationLimit
  /-- The deadline passed. -/
  | timeLimit
deriving DecidableEq, Repr

/-- The row that shows infeasibility: a negative right-hand side and no negative coefficient. -/
structure Certificate (α : Type) where
  row : Nat
  basicColumn : Nat
  coefficients : List α
  rhs : α

/-- A pivot that was refused, with its size. -/
structure RejectedPivot (α : Type) where
  row : Nat
  column : Nat
  value : α

/-- What a pivot repairs: a negative right-hand side, or a negative reduced cost. -/
inductive PivotKind where
  | dual
  | primal
deriving DecidableEq, Repr

/-- A pivot that was made. -/
structure Pivot where
  kind : PivotKind
  row : Nat
  column : Nat
deriving DecidableEq, Repr

/-- Where the end of the time for a solve lies. -/
inductive Deadline where
  | none
  /-- Over as soon as this many pivots were made. -/
  | after (pivots : Nat)
  | ahead
deriving DecidableEq, Repr

namespace Deadline

/-- Is the time over once this many pivots were made? -/
def isOver (deadline : Deadline) (pivots : Nat) : Bool :=
  match deadline with
  | .after limit => decide (limit ≤ pivots)
  | _ => false

/-- The deadline of a time limit in seconds, for a solve that takes no time itself. -/
def ofSeconds (limit : Nat) : Deadline :=
  if limit = 0 then .after 0 else .ahead

end Deadline

/-- Limits and rule of one solve. -/
structure SolveOptions where
  maxIterations : Nat := 10000
  deadline : Deadline := .none
  rule : EnteringRule := .dantzig
deriving DecidableEq, Repr

/-- Why the loop stopped. -/
inductive Verdict (α : Type) where
  | optimal
  | infeasible (certificate : Certificate α)
  | unbounded
  | iterationLimit
  | timeLimit

/-- The status that a verdict is reported as. -/
def Verdict.status {α : Type} : Verdict α → Status
  | .optimal => .optimal
  | .infeasible _ => .infeasible
  | .unbounded => .unbounded
  | .iterationLimit => .iterationLimit
  | .timeLimit => .timeLimit

/-- The certificate that comes with a verdict of infeasibility. -/
def Verdict.certificate? {α : Type} : Verdict α → Option (Certificate α)
  | .infeasible certificate => some certificate
  | _ => none

/-- What the loop does on a tableau. -/
inductive Move (α : Type) where
  /-- Nothing more, for the given reason. -/
  | stop (verdict : Verdict α)
  /-- A pivot on a row, in the first of the columns that is usable. -/
  | pivot (kind : PivotKind) (row : Nat) (columns : List Nat)

/-- A tableau on its way, and what happened so far. -/
structure Progress (α : Type) where
  tableau : Tableau α
  pivots : Array Pivot
  rejected : Array (RejectedPivot α)

/-- What is left of a solve that stopped without an answer. -/
structure Diagnostics (α : Type) where
  rejectedPivots : List (RejectedPivot α)
  /-- The tableau as the solve left it. -/
  snapshot : Tableau α

/-- The outcome of one solve. -/
structure Report (α : Type) where
  status : Status
  /-- The pivots in the order in which they were made. -/
  pivots : List Pivot
  certificate : Option (Certificate α)
  diagnostics : Option (Diagnostics α)

/-- The number of pivots that the solve made. -/
def Report.iterations {α : Type} (r : Report α) : Nat := r.pivots.length

variable {α : Type} [Scalar α]

namespace Tableau

/-- A row as evidence of infeasibility. -/
def certificate (t : Tableau α) (row : Nat) : Certificate α where
  row := row
  basicColumn := t.basis.getD row 0
  coefficients := (t.row? row).getD []
  rhs := (t.rhs? row).getD 0

/-- The next move: repair a row, else improve the objective, else stop. -/
def nextMove (t : Tableau α) (rule : EnteringRule) : Move α :=
  match t.leavingRow? with
  | some row =>
    match t.enteringCandidates row with
    | [] => .stop (.infeasible (t.certificate row))
    | best :: others => .pivot .dual row ((best :: others).map (·.column))
  | none =>
    match t.primalEntering? rule with
    | none => .stop .optimal
    | some column =>
      match t.primalLeaving? column with
      | none => .stop .unbounded
      | some row => .pivot .primal row [column]

/-- Pivot on a row in the first column that is not refused. Returns the refused pivots before it,
and the column with the new tableau if there is one. -/
def pivotFirst (t : Tableau α) (row : Nat) :
    List Nat → List (RejectedPivot α) × Option (Nat × Tableau α)
  | [] => ([], none)
  | column :: rest =>
    match t.pivot row column with
    | .ok next => ([], some (column, next))
    | .error _ =>
      let (rejected, made) := t.pivotFirst row rest
      (⟨row, column, t.coefficient row column⟩ :: rejected, made)

end Tableau

namespace Progress

/-- A solve before its first pivot. -/
def start (t : Tableau α) : Progress α := ⟨t, #[], #[]⟩

/-- Note pivots that were refused. -/
def reject (p : Progress α) (rejected : List (RejectedPivot α)) : Progress α :=
  { p with rejected := p.rejected ++ rejected.toArray }

/-- Note a pivot that was made, with the tableau that it led to. -/
def advance (p : Progress α) (made : Pivot) (next : Tableau α) : Progress α :=
  { p with tableau := next, pivots := p.pivots.push made }

/-- Change the tableau, without a pivot. -/
def mapTableau (p : Progress α) (f : Tableau α → Tableau α) : Progress α :=
  { p with tableau := f p.tableau }

end Progress

/-- Make moves until one of them stops, with a budget of pivots. A verdict about the tableau comes
before the limits: they are looked at only if there is a pivot to make. -/
def Progress.iterate (rule : EnteringRule) (deadline : Deadline) (budget : Nat) (p : Progress α) :
    Progress α × Verdict α :=
  match p.tableau.nextMove rule, budget with
  | .stop verdict, _ => (p, verdict)
  | .pivot .., 0 => (p, .iterationLimit)
  | .pivot kind row columns, budget + 1 =>
    if deadline.isOver p.pivots.size then (p, .timeLimit)
    else
      match p.tableau.pivotFirst row columns with
      | (rejected, none) => (p.reject rejected, .iterationLimit)
      | (rejected, some (column, next)) =>
        ((p.reject rejected).advance ⟨kind, row, column⟩ next).iterate rule deadline budget
termination_by structural budget

namespace Tableau

/-- Restore primal feasibility against a zero objective. The objective comes back afterwards, in
terms of the basis that was reached, whatever the verdict. -/
def restoreFeasibility (t : Tableau α) (options : SolveOptions) : Progress α × Verdict α :=
  let idle := t.withObjective (Equation.zero t.columnCount)
  let (p, verdict) := (Progress.start idle).iterate options.rule options.deadline options.maxIterations
  (p.mapTableau fun reached => (reached.withObjective t.objective).reprice, verdict)

/-- Pivot to a verdict, with a feasibility phase first if the tableau needs one. -/
def run (t : Tableau α) (options : SolveOptions) : Progress α × Verdict α :=
  if t.isPrimalFeasible || t.isDualFeasible then
    (Progress.start t).iterate options.rule options.deadline options.maxIterations
  else
    match t.restoreFeasibility options with
    | (p, .optimal) => p.iterate options.rule options.deadline (options.maxIterations - p.pivots.size)
    | stopped => stopped

end Tableau

/-- The report on a finished run. -/
def Report.ofRun (p : Progress α) (verdict : Verdict α) : Report α where
  status := verdict.status
  pivots := p.pivots.toList
  certificate := verdict.certificate?
  diagnostics := match verdict with
    | .iterationLimit => some ⟨p.rejected.toList, p.tableau⟩
    | .timeLimit => some ⟨p.rejected.toList, p.tableau⟩
    | _ => none

/-- Solve a tableau. Whatever the status, the tableau that comes back keeps a basis and can be
extended and solved again. -/
def Tableau.solve (t : Tableau α) (options : SolveOptions) : Report α × Tableau α :=
  let (p, verdict) := t.run options
  (.ofRun p verdict, p.tableau)

end WarmSimplex
