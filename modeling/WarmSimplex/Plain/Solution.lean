import WarmSimplex.Plain.Solve
import WarmSimplex.Solution

/-!
# Solutions on plain lists

A solution read off a tableau on plain lists. The values of basic columns are gathered as a map, in which a
later row overwrites an earlier one. Names, costs and labels are read from their own lists, by the index of
the variable or the constraint.
-/

namespace WarmSimplex.Plain

variable {α : Type} [Scalar α]

/-- The value under a key, of several the last one. -/
def lastValue? (pairs : List (Nat × α)) (key : Nat) : Option α :=
  (pairs.reverse.find? (·.1 == key)).map (·.2)

/-- The least number above all keys. -/
def keyBound (pairs : List (Nat × α)) : Nat :=
  pairs.foldr (fun pair bound => max (pair.1 + 1) bound) 0

/-- The keys with their values, by rising key. -/
def sortedMap (pairs : List (Nat × α)) : List (Nat × α) :=
  (List.range (keyBound pairs)).filterMap fun key => (lastValue? pairs key).map (key, ·)

/-- The value of each basic column, by rising column. -/
def basicValues (p : Plain α) : Option (List (Nat × α)) := do
  let pairs ← p.basis.zipIdx.mapM fun (column, row) => (p.rhs row).map (column, ·)
  some (sortedMap pairs)

/-- The price of a constraint. -/
def shadowPrice (p : Plain α) (constraint : Nat) : Option (ShadowPrice α) := do
  let label ← p.labels[constraint]?
  let orientation : α := if label.relation = .ge then -1 else 1
  let d ← p.reducedCost (p.slackColumn constraint)
  let price := p.sense.sign * orientation * d
  some ⟨label.name, label.relation, price, .ofPrice p.tolerance price⟩

/-- A decision variable at the current basis. -/
def variableReport (p : Plain α) (column : Nat) : Option (VariableReport α) := do
  let isBasic := (p.basicRow? column).isSome
  let name ← p.columnName column
  let value ← p.value column
  let cost ← if isBasic then some 0 else p.reducedCost column
  some ⟨name, value, cost, isBasic⟩

/-- The name of a constraint whose slack is zero, up to the tolerance. -/
def bindingName (p : Plain α) (constraint : Nat) : Option (Option String) := do
  let slack ← p.value (p.slackColumn constraint)
  if Scalar.abs slack ≤ p.tolerance then p.labels[constraint]?.map fun label => some label.name
  else some none

/-- The changes of a basic cost that keep the reduced cost of one more column. -/
def keepCost (p : Plain α) (column : Nat) (i : Interval α) (a : α) (k : Nat) : Option (Interval α) :=
  if k = column || (p.basicRow? k).isSome then some i
  else (p.reducedCost k).map fun d => i.keepNonNegative p.tolerance d a

/-- The changes of a column's cost that keep every reduced cost from turning negative. -/
def costChanges (p : Plain α) (column : Nat) : Option (Interval α) :=
  match p.basicRow? column with
  | none => (p.reducedCost column).map fun d => ⟨none, some d⟩
  | some row => do
    let coefficients ← p.coefficients row
    coefficients.zipIdx.foldlM (fun i (a, k) => p.keepCost column i a k) .all

/-- The range of the objective coefficient of a decision variable. -/
def costRange (p : Plain α) (column : Nat) : Option (SensitivityRange α) := do
  let current ← p.costs[column]?
  let changes ← p.costChanges column
  let name ← p.columnName column
  some ⟨name, current, match p.sense with
    | .maximize => changes.addTo current
    | .minimize => changes.subtractFrom current⟩

/-- The changes of a constraint's right-hand side that one more row allows. -/
def keepRhs (p : Plain α) (slack : Nat) (i : Interval α) (row : Nat) : Option (Interval α) := do
  let rate ← p.coefficient row slack
  let b ← p.rhs row
  some (i.keepNonNegative p.tolerance b rate)

/-- The range of the right-hand side of a constraint. -/
def rhsRange (p : Plain α) (constraint : Nat) : Option (SensitivityRange α) := do
  let label ← p.labels[constraint]?
  let changes ← (List.range p.rows.length).foldlM (p.keepRhs (p.slackColumn constraint)) .all
  let stored := changes.addTo label.rhs
  some (match label.relation with
    | .ge => ⟨label.name, -label.rhs, stored.negate⟩
    | _ => ⟨label.name, label.rhs, stored⟩)

/-- Prices and ranges at the current basis. -/
def analysis (p : Plain α) : Option (Analysis α) := do
  let shadowPrices ← (List.range p.rows.length).mapM p.shadowPrice
  let decisions ← (List.range p.structuralCount).mapM p.variableReport
  let binding ← (List.range p.rows.length).mapM p.bindingName
  let costRanges ← (List.range p.structuralCount).mapM p.costRange
  let rhsRanges ← (List.range p.rows.length).mapM p.rhsRange
  some ⟨shadowPrices, decisions, binding.filterMap id, costRanges, rhsRanges⟩

/-- The solution at the current basis, taken to be optimal. -/
def readSolution (p : Plain α) (iterations : Nat) : Option (Solution α) := do
  let basicValues ← p.basicValues
  let shadowPrices ← (List.range p.rows.length).mapM fun i =>
    (p.reducedCost (p.slackColumn i)).map (i, ·)
  let value ← p.objectiveValue
  let analysis ← p.analysis
  some
    { status := .optimal
      iterations := iterations
      basicValues := basicValues
      values := (List.range p.structuralCount).map fun column => (basicValues.lookup column).getD 0
      objectiveValue := .attained (p.sense.sign * value)
      shadowPrices := shadowPrices
      analysis := analysis
      certificate := none }

/-- The solution that a report on the tableau stands for. -/
def extract (p : Plain α) (report : Report α) : Option (Solution α) :=
  if report.status = .optimal then p.readSolution report.iterations
  else some
    { status := report.status
      iterations := report.iterations
      basicValues := []
      values := []
      objectiveValue := .withoutOptimum report.status p.sense
      shadowPrices := []
      analysis := {}
      certificate := report.certificate }

/-- The solution of a tableau that is optimal as it stands. -/
def solution (p : Plain α) : Option (Except NotOptimal (Solution α)) := do
  let primal ← p.isPrimalFeasible
  let dual ← p.isDualFeasible
  if primal && dual then (p.readSolution 0).map .ok
  else
    let rhs ← (List.range p.rows.length).mapM p.rhs
    let costs ← p.reducedCosts
    some (.error {
      infeasibleRows := rhs.countP fun b => decide (b < -p.tolerance)
      negativeCosts := costs.countP fun d => decide (d < -p.tolerance) })

end WarmSimplex.Plain
