import WarmSimplex.Proofs.Access
import WarmSimplex.Proofs.Shape
import WarmSimplex.Solution

/-!
# Reading inside the tableau

The solver and everything that reads a solution off, once more with every index checked: a computation
that reads or writes outside of a row, of the objective row or of the rows has no result. On a tableau
that fits together each of them has one, and it is that of the unchecked computation. So nothing is
ever read that is not there.

Only indices that are computed are checked. A walk along a list stays inside of it by itself.
-/

namespace WarmSimplex

variable {α : Type} [Scalar α]

namespace Checked

/-! ## Pivots -/

/-- Clear a column with an equation whose coefficient there is one. -/
def eliminate (target e : Equation α) (column : ℕ) : Option (Equation α) :=
  target.entries[column]?.map fun factor =>
    if factor == 0 then target else (target.subtractMultiple factor e).setCoefficient column 0

/-- Divide by the coefficient of a column. -/
def normalize (e : Equation α) (column : ℕ) : Option (Equation α) :=
  e.entries[column]?.map fun pivot => (e.divide pivot).setCoefficient column 1

/-- Clear the basic column of each row from an equation, one row after the other. -/
def reduce (e : Equation α) (rows : List (Row α)) : Option (Equation α) :=
  rows.foldlM (fun target r => eliminate target r.toEquation r.basic) e

/-- A row after a pivot: the one that was solved, or another one with the column cleared. -/
def pivotRow (solved : Row α) (row column i : ℕ) (other : Row α) : Option (Row α) :=
  if i = row then some solved
  else (eliminate other.toEquation solved.toEquation column).map fun e =>
    { other with toEquation := e }

/-- Pivot on a row and a column. A position outside the tableau is refused before anything is read. -/
def pivot (t : Tableau α) (row column : ℕ) : Option (Except (TableauError α) (Tableau α)) :=
  if row < t.rowCount ∧ column < t.columnCount then do
    let value ← t.coefficient? row column
    if t.isDegenerate value then some (.error (.degeneratePivot row column value t.pivotTolerance))
    else
      let r ← t.rows[row]?
      let e ← normalize r.toEquation column
      let solved : Row α := { r with toEquation := e, basic := column }
      let rows ← t.rows.zipIdx.mapM fun pair => pivotRow solved row column pair.2 pair.1
      let objective ← eliminate t.objective e column
      some (.ok { t with rows := rows, objective := objective })
  else some (.error (.pivotOutside row column t.rowCount t.columnCount))

/-! ## Moves -/

/-- The candidate for a dual pivot in a column with the given coefficient, if it is one. -/
def candidate (t : Tableau α) (a : α) (column : ℕ) : Option (Option (EnteringCandidate α)) :=
  if a < -t.tolerance then
    (t.reducedCost? column).map fun d => some ⟨column, Scalar.abs (d / a), a⟩
  else some none

/-- The candidates for a dual pivot on a row, best first. -/
def enteringCandidates (t : Tableau α) (row : ℕ) : Option (List (EnteringCandidate α)) := do
  let coefficients ← t.row? row
  let found ← coefficients.zipIdx.mapM fun pair => candidate t pair.1 pair.2
  some (rankCandidates t.tolerance found.reduceOption.length found.reduceOption)

/-- The increase of a column that a row allows, if it bounds it. -/
def boundingRow (t : Tableau α) (column : ℕ) (r : Row α) (i : ℕ) : Option (Option (Ranked α)) :=
  r.entries[column]?.map fun a =>
    if t.ratioThreshold < a then some ⟨i, Scalar.larger r.rhs 0 / a⟩ else none

/-- The row that bounds the increase of a column most tightly, if there is one. -/
def primalLeaving (t : Tableau α) (column : ℕ) : Option (Option ℕ) := do
  let found ← t.rows.zipIdx.mapM fun pair => boundingRow t column pair.1 pair.2
  some ((scan (Ranked.below t.tolerance) found.reduceOption).map (·.index))

/-- A row as evidence of infeasibility. -/
def certificate (t : Tableau α) (row : ℕ) : Option (Certificate α) := do
  let basic ← t.basis[row]?
  let coefficients ← t.row? row
  let rhs ← t.rhs? row
  some ⟨row, basic, coefficients, rhs⟩

/-- The move that repairs a row. -/
def dualMove (t : Tableau α) (row : ℕ) : Option (Move α) := do
  match ← enteringCandidates t row with
  | [] => (certificate t row).map fun c => .stop (.infeasible c)
  | best :: others => some (.pivot .dual row ((best :: others).map (·.column)))

/-- The move that improves the objective in a column. -/
def primalMove (t : Tableau α) (column : ℕ) : Option (Move α) := do
  match ← primalLeaving t column with
  | none => some (.stop .unbounded)
  | some row => some (.pivot .primal row [column])

/-- The next move. -/
def nextMove (t : Tableau α) (rule : EnteringRule) : Option (Move α) :=
  match t.leavingRow? with
  | some row => dualMove t row
  | none =>
    match t.primalEntering? rule with
    | none => some (.stop .optimal)
    | some column => primalMove t column

/-- Pivot on a row in the first column that is not refused. -/
def pivotFirst (t : Tableau α) (row : ℕ) :
    List ℕ → Option (List (RejectedPivot α) × Option (ℕ × Tableau α))
  | [] => some ([], none)
  | column :: rest => do
    match ← pivot t row column with
    | .ok next => some ([], some (column, next))
    | .error _ =>
      let value ← t.coefficient? row column
      let (rejected, made) ← pivotFirst t row rest
      some (⟨row, column, value⟩ :: rejected, made)

/-! ## Solves -/

/-- Make moves until one of them stops. -/
def iterate (rule : EnteringRule) (deadline : Deadline) (budget : ℕ) (p : Progress α) :
    Option (Progress α × Verdict α) :=
  match nextMove p.tableau rule, budget with
  | none, _ => none
  | some (.stop verdict), _ => some (p, verdict)
  | some (.pivot ..), 0 => some (p, .iterationLimit)
  | some (.pivot kind row columns), budget + 1 =>
    if deadline.isOver p.pivots.size then some (p, .timeLimit)
    else
      match pivotFirst p.tableau row columns with
      | none => none
      | some (rejected, none) => some (p.reject rejected, .iterationLimit)
      | some (rejected, some (column, next)) =>
        iterate rule deadline budget ((p.reject rejected).advance ⟨kind, row, column⟩ next)
termination_by structural budget

/-- Restore primal feasibility against a zero objective, and put the objective back. -/
def restoreFeasibility (t : Tableau α) (options : SolveOptions) :
    Option (Progress α × Verdict α) := do
  let idle := t.withObjective (Equation.zero t.columnCount)
  let (p, verdict) ← iterate options.rule options.deadline options.maxIterations (.start idle)
  let objective ← reduce t.objective p.tableau.rows
  some (p.mapTableau fun reached => reached.withObjective objective, verdict)

/-- Pivot to a verdict, with a feasibility phase first if the tableau needs one. -/
def run (t : Tableau α) (options : SolveOptions) : Option (Progress α × Verdict α) :=
  if t.isPrimalFeasible || t.isDualFeasible then
    iterate options.rule options.deadline options.maxIterations (.start t)
  else do
    match ← restoreFeasibility t options with
    | (p, .optimal) => iterate options.rule options.deadline (options.maxIterations - p.pivots.size) p
    | stopped => some stopped

/-- Solve a tableau. -/
def solve (t : Tableau α) (options : SolveOptions) : Option (Report α × Tableau α) := do
  let (p, verdict) ← run t options
  some (.ofRun p verdict, p.tableau)

/-! ## Solutions -/

/-- The price of a constraint. -/
def shadowPrice (t : Tableau α) (constraint : ℕ) (label : Label α) : Option (ShadowPrice α) := do
  let orientation : α := if label.relation = .ge then -1 else 1
  let d ← t.reducedCost? (t.slackColumn constraint)
  let price := t.sense.sign * orientation * d
  some ⟨label.name, label.relation, price, .ofPrice t.tolerance price⟩

/-- A decision variable at the current basis. -/
def variableReport (t : Tableau α) (column : ℕ) (d : Decision α) : Option (VariableReport α) := do
  let cost ← if t.isBasic column then some 0 else t.reducedCost? column
  some ⟨d.name, t.value column, cost, t.isBasic column⟩

/-- The changes of a basic cost that keep the reduced cost of one more column. -/
def keepCost (t : Tableau α) (column : ℕ) (i : Interval α) (a : α) (k : ℕ) : Option (Interval α) :=
  if k = column || t.isBasic k then some i
  else (t.reducedCost? k).map fun d => i.keepNonNegative t.tolerance d a

/-- The changes of a column's cost that keep every reduced cost from turning negative. -/
def costChanges (t : Tableau α) (column : ℕ) : Option (Interval α) :=
  match t.rows.find? (·.basic == column) with
  | none => (t.reducedCost? column).map fun d => ⟨none, some d⟩
  | some r => r.coefficients.zipIdx.foldlM (fun i pair => keepCost t column i pair.1 pair.2) .all

/-- The range of the objective coefficient of a decision variable. -/
def costRange (t : Tableau α) (column : ℕ) (d : Decision α) : Option (SensitivityRange α) := do
  let changes ← costChanges t column
  some ⟨d.name, d.cost, match t.sense with
    | .maximize => changes.addTo d.cost
    | .minimize => changes.subtractFrom d.cost⟩

/-- The changes of a constraint's right-hand side that keep every basic variable from turning
negative. -/
def rhsChanges (t : Tableau α) (constraint : ℕ) : Option (Interval α) :=
  t.rows.foldlM (fun i r =>
    r.entries[t.slackColumn constraint]?.map fun rate => i.keepNonNegative t.tolerance r.rhs rate) .all

/-- The range of the right-hand side of a constraint. -/
def rhsRange (t : Tableau α) (constraint : ℕ) (label : Label α) : Option (SensitivityRange α) := do
  let changes ← rhsChanges t constraint
  let stored := changes.addTo label.rhs
  some (match label.relation with
    | .ge => ⟨label.name, -label.rhs, stored.negate⟩
    | _ => ⟨label.name, label.rhs, stored⟩)

/-- Prices and ranges at the current basis. -/
def analysis (t : Tableau α) : Option (Analysis α) := do
  let shadowPrices ← t.rows.zipIdx.mapM fun pair => shadowPrice t pair.2 pair.1.label
  let decisions ← t.decisions.zipIdx.mapM fun pair => variableReport t pair.2 pair.1
  let costRanges ← t.decisions.zipIdx.mapM fun pair => costRange t pair.2 pair.1
  let rhsRanges ← t.rows.zipIdx.mapM fun pair => rhsRange t pair.2 pair.1.label
  some ⟨shadowPrices, decisions, t.analysis.bindingConstraints, costRanges, rhsRanges⟩

/-- The solution at the current basis. The objective value is read after the last reduced cost. -/
def readSolution (t : Tableau α) (iterations : ℕ) : Option (Solution α) := do
  let value ← t.reducedCost? t.columnCount
  let shadowPrices ← (List.range t.rowCount).mapM fun i =>
    (t.reducedCost? (t.slackColumn i)).map (i, ·)
  let analysis ← analysis t
  some { t.readSolution iterations with
    objectiveValue := .attained (t.sense.sign * value)
    shadowPrices := shadowPrices
    analysis := analysis }

/-- The solution that a report on the tableau stands for. Without an optimum nothing is read. -/
def extract (t : Tableau α) (report : Report α) : Option (Solution α) :=
  if report.status = .optimal then readSolution t report.iterations else some (t.extract report)

/-- The solution of a tableau that is optimal as it stands. -/
def solution (t : Tableau α) : Option (Except NotOptimal (Solution α)) :=
  if t.isOptimal then (readSolution t 0).map .ok else some t.solution

end Checked

/-- Dropping what was not found is a filter. -/
theorem reduceOption_map {β γ : Type} (f : β → Option γ) (entries : List β) :
    (entries.map f).reduceOption = entries.filterMap f := by
  change (entries.map f).filterMap id = _
  rw [List.filterMap_map]
  rfl

namespace Equation

variable {e target : Equation α} {column : ℕ}

/-- A column that is there can be cleared. -/
theorem checked_eliminate (e : Equation α) (h : column < target.coefficients.length) :
    Checked.eliminate target e column = some (target.eliminate e column) := by
  rw [Checked.eliminate, getElem?_entries h]
  rfl

/-- A column that is there can be divided by. -/
theorem checked_normalize (h : column < e.coefficients.length) :
    Checked.normalize e column = some (e.normalize column) := by
  rw [Checked.normalize, getElem?_entries h]
  rfl

/-- Basic columns that are there can be cleared. -/
theorem checked_reduce {rows : List (Row α)} (hbasic : ∀ r ∈ rows, r.basic < e.coefficients.length)
    (hwidth : ∀ r ∈ rows, r.coefficients.length = e.coefficients.length) :
    Checked.reduce e rows = some (e.reduce rows) := by
  refine foldlM_eq_some_foldl
    (I := fun target => target.coefficients.length = e.coefficients.length)
    (fun r hr target htarget => ⟨?_, ?_⟩) rfl
  · exact checked_eliminate _ (htarget ▸ hbasic r hr)
  · rw [length_eliminate r.basic ((hwidth r hr).trans htarget.symm), htarget]

end Equation

namespace Tableau

variable {t : Tableau α} {n m : ℕ}

namespace HasShape

/-! ## Pivots and moves -/

/-- The reduced cost of a column that is there. -/
theorem reducedCost?_eq (ht : t.HasShape n m) {column : ℕ} (hcolumn : column < n + m) :
    t.reducedCost? column = some (t.reducedCost column) :=
  Equation.getElem?_entries (hcolumn.trans_eq ht.columns.symm)

/-- The entry of a row and a column that are there. -/
theorem coefficient?_eq (ht : t.HasShape n m) {row column : ℕ} (hrow : row < m)
    (hcolumn : column < n + m) : t.coefficient? row column = some (t.coefficient row column) := by
  obtain ⟨r, hr, hread⟩ := exists_row_of_lt (ht.rowCount.symm ▸ hrow)
  rw [coefficient?, hr, hread]
  exact Equation.getElem?_entries (hcolumn.trans_eq (ht.width r (List.mem_of_getElem? hr)).symm)

/-- A pivot reads and writes inside the tableau, wherever it is attempted. -/
theorem checked_pivot (ht : t.HasShape n m) (row column : ℕ) :
    Checked.pivot t row column = some (t.pivot row column) := by
  rw [Checked.pivot, Tableau.pivot]
  split
  · rename_i hinside
    obtain ⟨hrow, hcolumn⟩ := hinside
    rw [ht.columns] at hcolumn
    rw [ht.coefficient?_eq (ht.rowCount ▸ hrow) hcolumn, Option.bind_eq_bind, Option.bind_some]
    dsimp only
    split
    · rfl
    · obtain ⟨r, hr, _⟩ := exists_row_of_lt hrow
      have hwidth := ht.width r (List.mem_of_getElem? hr)
      have hobjective : t.objective.coefficients.length = n + m := ht.columns
      have hsolved := Equation.checked_normalize (hwidth.symm ▸ hcolumn)
      have hrows : (t.rows.zipIdx.mapM fun pair =>
          Checked.pivotRow (r.solveFor column) row column pair.2 pair.1) =
            some (t.rows.mapIdx fun i other =>
              if i = row then r.solveFor column
              else other.clear (r.solveFor column).toEquation column) := by
        rw [List.mapIdx_eq_zipIdx_map]
        refine mapM_eq_some_map fun pair hpair => ?_
        have hother := ht.width pair.1 (List.fst_mem_of_mem_zipIdx hpair)
        simp only [Checked.pivotRow, Equation.checked_eliminate _ (hother.symm ▸ hcolumn)]
        split
        · rfl
        · rfl
      rw [Row.solveFor] at hrows
      simp only [hr, hsolved, hrows, Equation.checked_eliminate _ (hobjective.symm ▸ hcolumn),
        Option.bind_eq_bind, Option.bind_some]
      rw [Tableau.pivotAt, hr]
      rfl
  · rfl

/-- The candidates of a row that is there are found inside the tableau. -/
theorem checked_enteringCandidates (ht : t.HasShape n m) {row : ℕ} (hrow : row < m) :
    Checked.enteringCandidates t row = some (t.enteringCandidates row) := by
  obtain ⟨r, hr, _⟩ := exists_row_of_lt (ht.rowCount.symm ▸ hrow)
  have hwidth := ht.width r (List.mem_of_getElem? hr)
  have hfound : (r.coefficients.zipIdx.mapM fun pair => Checked.candidate t pair.1 pair.2) =
      some (r.coefficients.zipIdx.map fun pair =>
        if pair.1 < -t.tolerance then
          some ⟨pair.2, Scalar.abs (t.reducedCost pair.2 / pair.1), pair.1⟩
        else none) := by
    refine mapM_eq_some_map fun pair hpair => ?_
    have hin : pair.2 < n + m := hwidth ▸ List.snd_lt_of_mem_zipIdx hpair
    rw [Checked.candidate, ht.reducedCost?_eq hin]
    split
    · rfl
    · rfl
  have hcandidates : t.dualCandidates row = t.candidatesIn r.toEquation := by
    rw [dualCandidates, hr]
  simp only [Checked.enteringCandidates, row?, hr, Option.map_some, Option.bind_eq_bind,
    Option.bind_some, hfound, reduceOption_map]
  rw [Tableau.enteringCandidates, hcandidates]
  rfl

/-- The ratio test of a column that is there stays inside the tableau. -/
theorem checked_primalLeaving (ht : t.HasShape n m) {column : ℕ} (hcolumn : column < n + m) :
    Checked.primalLeaving t column = some (t.primalLeaving? column) := by
  have hfound : (t.rows.zipIdx.mapM fun pair => Checked.boundingRow t column pair.1 pair.2) =
      some (t.rows.zipIdx.map fun pair =>
        if t.ratioThreshold < pair.1.entry column then
          some ⟨pair.2, Scalar.larger pair.1.rhs 0 / pair.1.entry column⟩
        else none) := by
    refine mapM_eq_some_map fun pair hpair => ?_
    have hin : column < pair.1.coefficients.length :=
      (ht.width pair.1 (List.fst_mem_of_mem_zipIdx hpair)).symm ▸ hcolumn
    rw [Checked.boundingRow, Equation.getElem?_entries hin, Equation.entry_of_lt hin]
    rfl
  simp only [Checked.primalLeaving, hfound, Option.bind_eq_bind, Option.bind_some, reduceOption_map]
  rfl

/-- The certificate of a row that is there. -/
theorem checked_certificate (ht : t.HasShape n m) {row : ℕ} (hrow : row < m) :
    Checked.certificate t row = some (t.certificate row) := by
  obtain ⟨r, hr, _⟩ := exists_row_of_lt (ht.rowCount.symm ▸ hrow)
  have hbasis : t.basis[row]? = some r.basic := by rw [basis, List.getElem?_map, hr]; rfl
  simp [Checked.certificate, certificate, row?, rhs?, hr, hbasis]

/-- The next move is found inside the tableau. -/
theorem checked_nextMove (ht : t.HasShape n m) (rule : EnteringRule) :
    Checked.nextMove t rule = some (t.nextMove rule) := by
  rw [Checked.nextMove, nextMove]
  cases hleaving : t.leavingRow? with
  | some row =>
    obtain ⟨r, hr, _⟩ := leavingRow?_eq_some hleaving
    have hrow : row < m := ht.rowCount ▸ (List.getElem?_eq_some_iff.mp hr).1
    simp only [Checked.dualMove, ht.checked_enteringCandidates hrow, Option.bind_eq_bind,
      Option.bind_some]
    cases t.enteringCandidates row with
    | nil => rw [ht.checked_certificate hrow]; rfl
    | cons best others => rfl
  | none =>
    dsimp only
    cases hentering : t.primalEntering? rule with
    | none => rfl
    | some column =>
      have hcolumn : column < n + m := ht.columns ▸ (primalEntering?_eq_some hentering).1
      simp only [Checked.primalMove, ht.checked_primalLeaving hcolumn, Option.bind_eq_bind,
        Option.bind_some]
      cases t.primalLeaving? column with
      | none => rfl
      | some row => rfl

/-- The pivots that a move offers are inside the tableau. -/
theorem inside_of_nextMove (ht : t.HasShape n m) {rule : EnteringRule} {kind : PivotKind} {row : ℕ}
    {columns : List ℕ} (h : t.nextMove rule = .pivot kind row columns) :
    row < m ∧ ∀ column ∈ columns, column < n + m := by
  have hallows := t.allows_nextMove rule
  rw [h] at hallows
  cases hallows with
  | dualPivot hr _ hcolumns =>
    have hwidth := ht.width _ (List.mem_of_getElem? hr)
    exact ⟨ht.rowCount ▸ (List.getElem?_eq_some_iff.mp hr).1,
      fun column hcolumn => hwidth ▸ (hcolumns column hcolumn).1⟩
  | primalPivot _ hcolumn _ hr _ =>
    exact ⟨ht.rowCount ▸ (List.getElem?_eq_some_iff.mp hr).1,
      List.forall_mem_singleton.mpr (ht.columns ▸ hcolumn)⟩

/-- Attempts to pivot inside the tableau stay inside it. -/
theorem checked_pivotFirst (ht : t.HasShape n m) {row : ℕ} (hrow : row < m) {columns : List ℕ}
    (hcolumns : ∀ column ∈ columns, column < n + m) :
    Checked.pivotFirst t row columns = some (t.pivotFirst row columns) := by
  induction columns with
  | nil => rfl
  | cons column rest ih =>
    obtain ⟨hcolumn, hrest⟩ := List.forall_mem_cons.mp hcolumns
    rw [Checked.pivotFirst, pivotFirst, ht.checked_pivot, Option.bind_eq_bind, Option.bind_some]
    cases t.pivot row column with
    | ok next => rfl
    | error fault =>
      simp only [ht.coefficient?_eq hrow hcolumn, ih hrest, Option.bind_eq_bind, Option.bind_some]

/-- The first pivot that is accepted keeps the shape. -/
theorem of_pivotFirst (ht : t.HasShape n m) {row : ℕ} {columns : List ℕ}
    (hcolumns : ∀ column ∈ columns, column < n + m) {rejected : List (RejectedPivot α)}
    {made : ℕ × Tableau α} (h : t.pivotFirst row columns = (rejected, some made)) :
    made.2.HasShape n m := by
  obtain ⟨hmem, hpivot⟩ := pivotFirst_eq_some h
  obtain ⟨_, _, _, hmade⟩ := pivot_eq_ok_iff.mp hpivot
  exact hmade ▸ ht.pivotAt row (hcolumns made.1 hmem)

/-! ## Solves -/

/-- The loop stays inside the tableau until it stops. -/
theorem checked_iterate {p : Progress α} (hp : p.tableau.HasShape n m) (rule : EnteringRule)
    (deadline : Deadline) (budget : ℕ) :
    Checked.iterate rule deadline budget p = some (p.iterate rule deadline budget) := by
  induction budget generalizing p with
  | zero =>
    unfold Checked.iterate Progress.iterate
    rw [hp.checked_nextMove]
    cases p.tableau.nextMove rule with
    | stop verdict => rfl
    | pivot kind row columns => rfl
  | succ budget ih =>
    unfold Checked.iterate Progress.iterate
    rw [hp.checked_nextMove]
    cases hmove : p.tableau.nextMove rule with
    | stop verdict => rfl
    | pivot kind row columns =>
      obtain ⟨hrow, hcolumns⟩ := hp.inside_of_nextMove hmove
      simp only [hp.checked_pivotFirst hrow hcolumns]
      split
      · rfl
      · cases hfirst : p.tableau.pivotFirst row columns with
        | mk rejected made =>
          cases made with
          | none => rfl
          | some result =>
            exact ih (p := (p.reject rejected).advance ⟨kind, row, result.1⟩ result.2)
              (hp.of_pivotFirst hcolumns hfirst)

/-- The feasibility phase stays inside the tableau, and the objective that comes back fits it. -/
theorem checked_restoreFeasibility (ht : t.HasShape t.structuralCount t.rowCount)
    (options : SolveOptions) :
    Checked.restoreFeasibility t options = some (t.restoreFeasibility options) := by
  have hidle : (t.withObjective (Equation.zero t.columnCount)).HasShape t.structuralCount t.rowCount :=
    ht.withObjective (by rw [Equation.length_zero, ht.columns])
  have hreached := (OnTheWay.idleEnd ht options).shape
  have hobjective : t.objective.coefficients.length = t.structuralCount + t.rowCount := ht.columns
  have hreduce : Checked.reduce t.objective (t.idleEnd options).1.tableau.rows =
      some (t.objective.reduce (t.idleEnd options).1.tableau.rows) :=
    Equation.checked_reduce (hobjective.symm ▸ hreached.basic_lt) (hobjective.symm ▸ hreached.width)
  have hiterate := checked_iterate (p := .start (t.withObjective (Equation.zero t.columnCount))) hidle
    options.rule options.deadline options.maxIterations
  rw [Checked.restoreFeasibility, hiterate, Option.bind_eq_bind, Option.bind_some]
  change (Checked.reduce t.objective (t.idleEnd options).1.tableau.rows).bind _ = _
  rw [hreduce]
  rfl

/-- A solve stays inside the tableau. -/
theorem checked_solve (ht : t.HasShape t.structuralCount t.rowCount) (options : SolveOptions) :
    Checked.solve t options = some (t.solve options) := by
  have hrun : Checked.run t options = some (t.run options) := by
    rw [Checked.run, Tableau.run]
    split
    · exact checked_iterate (p := .start t) ht _ _ _
    · have hshape := (OnTheWay.restoreFeasibility ht options).shape
      rw [ht.checked_restoreFeasibility, Option.bind_eq_bind, Option.bind_some]
      cases hrestored : t.restoreFeasibility options with
      | mk p verdict =>
        rw [hrestored] at hshape
        cases verdict with
        | optimal => exact checked_iterate hshape _ _ _
        | infeasible certificate => rfl
        | unbounded => rfl
        | iterationLimit => rfl
        | timeLimit => rfl
  rw [Checked.solve, hrun]
  rfl

/-! ## Solutions -/

/-- The price of a constraint is a reduced cost that is there. -/
theorem checked_shadowPrice (ht : t.HasShape n m) {i : ℕ} (hi : i < m) (label : Label α) :
    Checked.shadowPrice t i label = some (t.shadowPrice i label) := by
  rw [Checked.shadowPrice, ht.reducedCost?_eq (ht.slackColumn_lt hi)]
  rfl

/-- The report on a decision variable reads its reduced cost only if it is not basic. -/
theorem checked_variableReport (ht : t.HasShape n m) {column : ℕ} (hcolumn : column < n + m)
    (d : Decision α) : Checked.variableReport t column d = some (t.variableReport column d) := by
  rw [Checked.variableReport, variableReport, ht.reducedCost?_eq hcolumn]
  cases t.isBasic column with
  | true => rfl
  | false => rfl

/-- The range of a cost walks along one row, which is as wide as the objective row. -/
theorem checked_costRange (ht : t.HasShape n m) {column : ℕ} (hcolumn : column < n + m)
    (d : Decision α) : Checked.costRange t column d = some (t.costRange column d) := by
  have hchanges : Checked.costChanges t column = some (t.costChanges column) := by
    rw [Checked.costChanges, costChanges]
    cases hfind : t.rows.find? (·.basic == column) with
    | none =>
      rw [ht.reducedCost?_eq hcolumn]
      rfl
    | some r =>
      have hwidth := ht.width r (List.mem_of_find?_eq_some hfind)
      refine foldlM_eq_some_foldl (I := fun _ => True) (fun pair hpair i _ => ⟨?_, trivial⟩) trivial
      have hin : pair.2 < n + m := hwidth ▸ List.snd_lt_of_mem_zipIdx hpair
      obtain ⟨a, k⟩ := pair
      rw [Checked.keepCost, ht.reducedCost?_eq hin]
      dsimp only
      split
      · rfl
      · rfl
  rw [Checked.costRange, hchanges]
  rfl

/-- The range of a right-hand side reads one column in every row. -/
theorem checked_rhsRange (ht : t.HasShape n m) {i : ℕ} (hi : i < m) (label : Label α) :
    Checked.rhsRange t i label = some (t.rhsRange i label) := by
  have hchanges : Checked.rhsChanges t i = some (t.rhsChanges i) := by
    refine foldlM_eq_some_foldl (I := fun _ => True) (fun r hr changes _ => ⟨?_, trivial⟩) trivial
    rw [Equation.getElem?_entries ((ht.slackColumn_lt hi).trans_eq (ht.width r hr).symm)]
    rfl
  rw [Checked.rhsRange, hchanges, rhsRange]
  cases label.relation with
  | le => rfl
  | ge => rfl
  | eq => rfl

/-- Prices and ranges are read inside the tableau. -/
theorem checked_analysis (ht : t.HasShape n m) : Checked.analysis t = some t.analysis := by
  have hrow : ∀ pair ∈ t.rows.zipIdx, pair.2 < m := fun pair hpair =>
    ht.rowCount ▸ List.snd_lt_of_mem_zipIdx hpair
  have hdecision : ∀ pair ∈ t.decisions.zipIdx, pair.2 < n + m := by
    intro pair hpair
    have hin : pair.2 < t.structuralCount := List.snd_lt_of_mem_zipIdx hpair
    rw [ht.structural] at hin
    exact hin.trans_le (Nat.le_add_right n m)
  have hprices := mapM_eq_some_map fun pair hpair =>
    ht.checked_shadowPrice (hrow pair hpair) pair.1.label
  have hreports := mapM_eq_some_map fun pair hpair =>
    ht.checked_variableReport (hdecision pair hpair) pair.1
  have hcosts := mapM_eq_some_map fun pair hpair =>
    ht.checked_costRange (hdecision pair hpair) pair.1
  have hrhs := mapM_eq_some_map fun pair hpair =>
    ht.checked_rhsRange (hrow pair hpair) pair.1.label
  simp only [Checked.analysis, hprices, hreports, hcosts, hrhs, Option.bind_eq_bind, Option.bind_some]
  rw [analysis, List.mapIdx_eq_zipIdx_map, List.mapIdx_eq_zipIdx_map, List.mapIdx_eq_zipIdx_map,
    List.mapIdx_eq_zipIdx_map]

/-- Every slack has a reduced cost. -/
theorem mapM_slackCosts (ht : t.HasShape n m) :
    ((List.range t.rowCount).mapM fun i => (t.reducedCost? (t.slackColumn i)).map (i, ·)) =
      some ((List.range t.rowCount).map fun i => (i, t.reducedCost (t.slackColumn i))) := by
  refine mapM_eq_some_map fun i hi => ?_
  rw [ht.reducedCost?_eq (ht.slackColumn_lt (ht.rowCount ▸ List.mem_range.mp hi))]
  rfl

/-- A solution is read inside the tableau. -/
theorem checked_readSolution (ht : t.HasShape n m) (iterations : ℕ) :
    Checked.readSolution t iterations = some (t.readSolution iterations) := by
  have hvalue : t.reducedCost? t.columnCount = some t.objectiveValue := by
    simp [reducedCost?, Equation.entries, columnCount, objectiveValue]
  simp only [Checked.readSolution, hvalue, ht.mapM_slackCosts, ht.checked_analysis, Option.bind_eq_bind,
    Option.bind_some]
  rfl

/-- A solution is extracted without reading outside the tableau, whatever solve the report is of. -/
theorem checked_extract (ht : t.HasShape n m) (report : Report α) :
    Checked.extract t report = some (t.extract report) := by
  rw [Checked.extract, extract, ht.checked_readSolution]
  split
  · rfl
  · rfl

/-- The solution of a tableau as it stands is read inside of it. -/
theorem checked_solution (ht : t.HasShape n m) : Checked.solution t = some t.solution := by
  rw [Checked.solution, solution, ht.checked_readSolution]
  split
  · rfl
  · rfl

end HasShape

/-- Whatever the arithmetic does and whatever is refused on the way, a tableau that was built fits
together after any history: sizes and ranges are right, old indices keep their meaning, a new constraint
has the next slack, and pivots, solves and solutions read nothing outside of it. An equation of which
only the first half is accepted counts as the constraint that this half is. -/
theorem IsInitial.fits_afterEdits (ht : t.IsInitial) (history : List (Edit α)) :
    let reached := t.afterEdits history
    reached.WellShaped ∧
      (∀ further, reached.KeepsIndices (reached.afterEdits further) ∧
        ∀ column < reached.columnCount,
          (reached.afterEdits further).columnName? column = reached.columnName? column) ∧
      (∀ c next, reached.append c = .ok next → reached.GainsConstraint next) ∧
      (∀ row column, Checked.pivot reached row column = some (reached.pivot row column)) ∧
      (∀ options, Checked.solve reached options = some (reached.solve options)) ∧
      (∀ report, Checked.extract reached report = some (reached.extract report)) ∧
      Checked.solution reached = some reached.solution := by
  obtain ⟨n, k, hstart⟩ := ht.hasShape
  obtain ⟨m, hshape⟩ := (hstart.afterEdits history).shape
  refine ⟨hshape.wellShaped, fun further => ?_, fun c next happend => hshape.gainsConstraint happend,
    hshape.checked_pivot, hshape.self.checked_solve, hshape.checked_extract, hshape.checked_solution⟩
  have hindices := (hshape.afterEdits further).indices
  exact ⟨hindices, fun column hcolumn => hshape.columnName_eq hindices hcolumn⟩

/-- A negative tolerance, a pivot on a zero, refused edits, and the report of a solve before them. -/
theorem fits_after_pivot_on_zero :
    let p : LinearProgram ℚ :=
      ⟨["x", "y"], ⟨[1, 2], .minimize⟩, [⟨"demand", [1, 1], .ge, 2⟩, ⟨"limit", [1, 0], .le, 3⟩]⟩
    let history : List (Edit ℚ) :=
      [.setTolerances (some (-1)) (some 0), .pivot 1 1, .pivot 5 0, .appendRow [1, 1, 1, 1, 1] 0,
        .addEquality (some "cut") [1, -1] 1, .solve {}]
    ∃ t : Tableau ℚ, p.toTableau = .ok t ∧
      let reached := t.afterEdits history
      reached.WellShaped ∧ Checked.solve reached {} = some (reached.solve {}) ∧
        Checked.extract reached (t.solve {}).1 = some (reached.extract (t.solve {}).1) ∧
        Checked.solution reached = some reached.solution := by
  intro p history
  obtain ⟨t, ht⟩ : ∃ t, p.toTableau = .ok t := ⟨p.slackTableau, by with_unfolding_all rfl⟩
  obtain ⟨hshape, _, _, _, hsolve, hextract, hsolution⟩ :=
    IsInitial.fits_afterEdits (.inr ⟨p, ht⟩) history
  exact ⟨t, ht, hshape, hsolve {}, hextract _, hsolution⟩

end Tableau

end WarmSimplex
