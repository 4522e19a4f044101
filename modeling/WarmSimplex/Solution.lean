import WarmSimplex.Solve
import WarmSimplex.Solution.Sensitivity

/-!
# Solutions

What a finished tableau says about its program: the values of the variables, the objective value in
the program's own sense, the price of each constraint, and the ranges in which these stay valid.

Only an optimal tableau has values. For any other status the solution carries the status, the
objective value that stands for it, and the certificate of infeasibility if there is one.
-/

namespace WarmSimplex

variable {α : Type} [Scalar α]

/-- An objective value, or what stands in its place. -/
inductive ObjectiveValue (α : Type) where
  | attained (value : α)
  | plusInfinity
  | minusInfinity
  | unknown

/-- The objective value of a program without an optimum: the worst one if nothing is feasible, the
best one if it is unbounded, and unknown if the solve gave up. -/
def ObjectiveValue.withoutOptimum (status : Status) (sense : Sense) : ObjectiveValue α :=
  match status, sense with
  | .infeasible, .maximize => .minusInfinity
  | .infeasible, .minimize => .plusInfinity
  | .unbounded, .maximize => .plusInfinity
  | .unbounded, .minimize => .minusInfinity
  | _, _ => .unknown

/-- What one more unit on the right-hand side does to the objective. -/
inductive PriceEffect (α : Type) where
  | nonBinding
  | increases (amount : α)
  | decreases (amount : α)

/-- The effect of a price, where a price within the tolerance of zero has none. -/
def PriceEffect.ofPrice (tolerance price : α) : PriceEffect α :=
  if Scalar.abs price < tolerance then .nonBinding
  else if 0 < price then .increases price
  else .decreases (-price)

/-- The price of a constraint: the change of the objective for one more unit on the right-hand side,
both as the caller wrote them. -/
structure ShadowPrice (α : Type) where
  constraint : String
  relation : Relation
  value : α
  effect : PriceEffect α

/-- A decision variable at the optimum. -/
structure VariableReport (α : Type) where
  variableName : String
  value : α
  reducedCost : α
  isBasic : Bool

/-- Prices and ranges at an optimum. -/
structure Analysis (α : Type) where
  shadowPrices : List (ShadowPrice α) := []
  decisions : List (VariableReport α) := []
  /-- The constraints without slack. -/
  bindingConstraints : List String := []
  costRanges : List (SensitivityRange α) := []
  rhsRanges : List (SensitivityRange α) := []

/-- The result of a solve, in terms of the program. -/
structure Solution (α : Type) where
  status : Status
  iterations : Nat
  /-- The value of each basic column, by rising column. -/
  basicValues : List (Nat × α)
  /-- The value of each decision variable. -/
  values : List α
  objectiveValue : ObjectiveValue α
  /-- The reduced cost of each constraint's slack. -/
  shadowPrices : List (Nat × α)
  analysis : Analysis α
  certificate : Option (Certificate α)

/-- The value of a column, zero if it is not basic. -/
def Solution.value (s : Solution α) (column : Nat) : α :=
  (s.basicValues.lookup column).getD 0

/-- The tableau is not optimal, with the number of rows and of reduced costs that show it. -/
structure NotOptimal where
  infeasibleRows : Nat
  negativeCosts : Nat
deriving DecidableEq, Repr

namespace Tableau

/-- The price of a constraint. -/
def shadowPrice (t : Tableau α) (constraint : Nat) (label : Label α) : ShadowPrice α :=
  let orientation : α := if label.relation = .ge then -1 else 1
  let price := t.sense.sign * orientation * t.reducedCost (t.slackColumn constraint)
  ⟨label.name, label.relation, price, .ofPrice t.tolerance price⟩

/-- A decision variable at the current basis. -/
def variableReport (t : Tableau α) (column : Nat) (d : Decision α) : VariableReport α where
  variableName := d.name
  value := t.value column
  reducedCost := if t.isBasic column then 0 else t.reducedCost column
  isBasic := t.isBasic column

/-- Is the slack of a constraint zero, up to the tolerance? -/
def isBinding (t : Tableau α) (constraint : Nat) : Bool :=
  decide (Scalar.abs (t.value (t.slackColumn constraint)) ≤ t.tolerance)

/-- Prices and ranges at the current basis. -/
def analysis (t : Tableau α) : Analysis α where
  shadowPrices := t.rows.mapIdx fun i r => t.shadowPrice i r.label
  decisions := t.decisions.mapIdx t.variableReport
  bindingConstraints := t.rows.zipIdx.filterMap fun (r, i) =>
    if t.isBinding i then some r.label.name else none
  costRanges := t.decisions.mapIdx t.costRange
  rhsRanges := t.rows.mapIdx fun i r => t.rhsRange i r.label

/-- The value of each basic column, by rising column. If a column is basic in several rows, the last
of them counts. -/
def basicValues (t : Tableau α) : List (Nat × α) :=
  (List.range t.columnCount).filterMap fun column =>
    (t.rows.reverse.find? (·.basic == column)).map fun r => (column, r.rhs)

/-- The solution at the current basis, taken to be optimal. -/
def readSolution (t : Tableau α) (iterations : Nat) : Solution α where
  status := .optimal
  iterations := iterations
  basicValues := t.basicValues
  values := (List.range t.structuralCount).map fun column => (t.basicValues.lookup column).getD 0
  objectiveValue := .attained (t.sense.sign * t.objectiveValue)
  shadowPrices := (List.range t.rowCount).map fun i => (i, t.reducedCost (t.slackColumn i))
  analysis := t.analysis
  certificate := none

/-- The solution that a report on the tableau stands for. -/
def extract (t : Tableau α) (report : Report α) : Solution α :=
  if report.status = .optimal then t.readSolution report.iterations
  else
    { status := report.status
      iterations := report.iterations
      basicValues := []
      values := []
      objectiveValue := .withoutOptimum report.status t.sense
      shadowPrices := []
      analysis := {}
      certificate := report.certificate }

/-- The solution of a tableau that is optimal as it stands. -/
def solution (t : Tableau α) : Except NotOptimal (Solution α) :=
  if t.isOptimal then .ok (t.readSolution 0)
  else .error {
    infeasibleRows := t.rows.countP fun r => decide (r.rhs < -t.tolerance)
    negativeCosts := t.reducedCosts.countP fun d => decide (d < -t.tolerance) }

end Tableau

end WarmSimplex
