import WarmSimplex.Proofs.Basis
import WarmSimplex.Proofs.Resuming

/-!
# What a new constraint changes

A new constraint leaves everything that was there as it was: rows, reduced costs, basis, labels and the
values of the columns. Its slack is basic, and has as its value what the basic solution leaves of the
right-hand side. So an optimum that leaves enough stays the optimum, and a solve sees so without a pivot.
An optimum that does not leave enough stays dual feasible, and the new row is the one to repair.

The coefficients range over all columns there are, slacks included.
-/

namespace WarmSimplex

namespace Tableau

/-- What the basic solution leaves of a right-hand side. -/
def room (t : Tableau ℚ) (coefficients : List ℚ) (rhs : ℚ) : ℚ :=
  rhs - ∑ j ∈ Finset.range coefficients.length, coefficients.getD j 0 * t.value j

/-- The second tableau is the first one with one more row, under the given label. What was there is as it
was, apart from a zero for the new slack. -/
structure ExtendedBy (t next : Tableau ℚ) (label : Label ℚ) : Prop where
  rows : ∀ i < t.rowCount, next.row? i = (t.row? i).map (· ++ [0])
  rightHandSides : ∀ i < t.rowCount, next.rhs? i = t.rhs? i
  reducedCosts : next.reducedCosts = t.reducedCosts ++ [0]
  objectiveValue : next.objectiveValue = t.objectiveValue
  basis : next.basis = t.basis ++ [t.columnCount]
  labels : next.rows.map (·.label) = t.rows.map (·.label) ++ [label]
  settings : next.settings = t.settings
  values : ∀ column < t.columnCount, next.value column = t.value column

section AppendStored

variable {t : Tableau ℚ} {c : StoredConstraint ℚ} {costs : List ℚ} {given : List (StoredConstraint ℚ)}

/-- The rows that were there get a zero for the new slack. -/
theorem getElem?_appendStored_rows {i : ℕ} {r : Row ℚ} (hr : t.rows[i]? = some r) :
    (t.appendStored c).rows[i]? = some { r with toEquation := r.addColumn 0 } := by
  have hi : i < t.addZeroColumn.rows.length := by
    rw [addZeroColumn, List.length_map]
    exact (List.getElem?_eq_some_iff.mp hr).1
  change (t.addZeroColumn.rows ++ _)[i]? = _
  rw [List.getElem?_append_left hi, addZeroColumn, List.getElem?_map, hr]
  rfl

/-- The columns that were there keep their values. -/
theorem value_appendStored {column : ℕ} (hcolumn : column < t.columnCount) :
    (t.appendStored c).value column = t.value column := by
  have hnew : ¬t.columnCount = column := hcolumn.ne'
  have hfind : (t.appendStored c).rows.find? (·.basic == column) =
      (t.rows.find? (·.basic == column)).map fun r => { r with toEquation := r.addColumn 0 } := by
    simp only [appendStored, addZeroColumn, List.find?_append, List.find?_map, List.find?_singleton,
      beq_iff_eq, hnew, if_false, Option.or_none]
    rfl
  rw [value, value, hfind]
  cases t.rows.find? (·.basic == column) <;> rfl

/-- A new constraint extends the tableau. -/
theorem extendedBy_appendStored (t : Tableau ℚ) (c : StoredConstraint ℚ) :
    t.ExtendedBy (t.appendStored c) c.label where
  rows i hi := by
    obtain ⟨r, hr, _⟩ := exists_row_of_lt hi
    rw [row?, row?, getElem?_appendStored_rows hr, hr]
    rfl
  rightHandSides i hi := by
    obtain ⟨r, hr, _⟩ := exists_row_of_lt hi
    rw [rhs?, rhs?, getElem?_appendStored_rows hr, hr]
    rfl
  reducedCosts := rfl
  objectiveValue := rfl
  basis := basis_appendStored t c
  labels := by simp [appendStored, addZeroColumn]
  settings := rfl
  values _ hcolumn := value_appendStored hcolumn

/-- The last row is solved for the new slack. -/
theorem exists_last_row_appendStored (t : Tableau ℚ) (c : StoredConstraint ℚ) :
    ∃ r, (t.appendStored c).rows[t.rowCount]? = some r ∧ r.basic = t.columnCount := by
  have hlength : t.addZeroColumn.rows.length = t.rowCount := List.length_map _
  refine ⟨⟨(t.newEquation c.coefficients c.label.rhs).reduce t.addZeroColumn.rows, t.columnCount,
    c.label⟩, ?_, rfl⟩
  rw [appendStored]
  change (t.addZeroColumn.rows ++ [_])[t.rowCount]? = _
  rw [List.getElem?_append_right hlength.le, hlength, Nat.sub_self]
  rfl

/-- The value of the new slack is what the basic solution leaves of the right-hand side, and it is the
right-hand side of the new row. -/
theorem Encodes.slack_appendStored (ht : t.Encodes costs given)
    (hc : c.coefficients.length ≤ t.columnCount) :
    (t.appendStored c).value t.columnCount = t.room c.coefficients c.label.rhs ∧
      (t.appendStored c).rhs? t.rowCount = some (t.room c.coefficients c.label.rhs) := by
  have hnext := ht.appendStored hc
  have hvalue : (t.appendStored c).value t.columnCount = t.room c.coefficients c.label.rhs := by
    have hholds := holds_dictionary.mp (Dictionary.holds_basicPoint hnext.canonical)
    have hlast := (slackForm_concat.mp ((hnext.holds_iff _).mp hholds)).2
    have hcolumn : (t.appendStored c).structuralCount + given.length = t.columnCount := ht.columns.symm
    rw [StoredConstraint.HoldsWith, hcolumn, ← value_eq_basicPoint] at hlast
    have heval : c.equation.eval (t.appendStored c).dictionary.basicPoint =
        ∑ j ∈ Finset.range c.coefficients.length, c.coefficients.getD j 0 * t.value j := by
      apply Finset.sum_congr rfl
      intro j hj
      rw [← value_eq_basicPoint, value_appendStored ((Finset.mem_range.mp hj).trans_le hc)]
      rfl
    rw [room, ← heval]
    linarith
  refine ⟨hvalue, ?_⟩
  obtain ⟨r, hr, hbasic⟩ := exists_last_row_appendStored t c
  have hpoint := Dictionary.basicPoint_basic hnext.canonical
    (List.mem_of_getElem? (getElem?_dictionary_rows hr))
  change (t.appendStored c).dictionary.basicPoint r.basic = r.rhs at hpoint
  rw [rhs?, hr, ← hvalue, value_eq_basicPoint, ← hbasic, hpoint]
  rfl

end AppendStored

/-! ## Solving after an optimum -/

section Optimal

variable {t next : Tableau ℚ} {label : Label ℚ} {costs : List ℚ} {given : List (StoredConstraint ℚ)}

/-- The right-hand sides of an optimal tableau. -/
theorem rhs_of_isOptimal (ht : t.isOptimal = true) : ∀ r ∈ t.rows, ¬r.rhs < -t.tolerance := by
  simp only [isOptimal, Bool.and_eq_true, isPrimalFeasible, List.all_eq_true, decide_eq_true_eq] at ht
  exact fun r hr => not_lt.mpr (ht.1 r hr)

/-- The reduced costs of an optimal tableau. -/
theorem reducedCosts_of_isOptimal (ht : t.isOptimal = true) :
    ∀ d ∈ t.reducedCosts, ¬d < -t.tolerance := by
  simp only [isOptimal, Bool.and_eq_true, isDualFeasible, List.all_eq_true, decide_eq_true_eq] at ht
  exact fun d hd => not_lt.mpr (ht.2 d hd)

/-- A solve sees at once that an optimal tableau is optimal, whatever its limits are. -/
theorem solve_of_isOptimal (ht : t.isOptimal = true) (options : SolveOptions) :
    (t.solve options).1.status = .optimal ∧ (t.solve options).1.iterations = 0 ∧
      (t.solve options).2 = t := by
  have hleaving : t.leavingRow? = none := leavingRow?_eq_none_iff.mpr (rhs_of_isOptimal ht)
  have hentering : t.primalEntering? options.rule = none :=
    primalEntering?_eq_none_iff.mpr (reducedCosts_of_isOptimal ht)
  have hmove : t.nextMove options.rule = .stop .optimal := by rw [nextMove, hleaving, hentering]
  have hfeasible : t.isPrimalFeasible = true := (Bool.and_eq_true_iff.mp ht).1
  have hends : t.SolveEnds options (Progress.start t) .optimal := .direct (.inl hfeasible) (.stop hmove)
  exact ⟨hends.status_eq, hends.iterations_eq, by rw [hends.solve_eq]; rfl⟩

namespace ExtendedBy

/-- A row of the extended tableau is the last one, or has the right-hand side of an older one. -/
theorem rhs_cases (h : t.ExtendedBy next label) {i : ℕ} {s : Row ℚ} (hs : next.rows[i]? = some s) :
    i = t.rowCount ∨ ∃ r ∈ t.rows, s.rhs = r.rhs := by
  have hcount : next.rowCount = t.rowCount + 1 := by
    have hlength := congrArg List.length h.basis
    simpa [Tableau.basis, rowCount] using hlength
  have hinside : i < next.rowCount := (List.getElem?_eq_some_iff.mp hs).1
  rw [hcount] at hinside
  rcases Nat.lt_succ_iff_lt_or_eq.mp hinside with hi | rfl
  · obtain ⟨r, hr, _⟩ := exists_row_of_lt hi
    have hrhs := h.rightHandSides i hi
    rw [rhs?, rhs?, hs, hr] at hrhs
    exact .inr ⟨r, List.mem_of_getElem? hr, Option.some.inj hrhs⟩
  · exact .inl rfl

/-- The new slack has no reduced cost, so dual feasibility stays. -/
theorem isDualFeasible (h : t.ExtendedBy next label) (htolerance : 0 ≤ t.tolerance)
    (hdual : t.isDualFeasible = true) : next.isDualFeasible = true := by
  have hsame : next.tolerance = t.tolerance := (settings_eq_iff.mp h.settings).2.2.1
  rw [Tableau.isDualFeasible, h.reducedCosts, hsame, List.all_append, Bool.and_eq_true]
  exact ⟨hdual, by simpa using htolerance⟩

/-- A new right-hand side that is not below zero by more than the tolerance leaves an optimum. -/
theorem isOptimal (h : t.ExtendedBy next label) (htolerance : 0 ≤ t.tolerance)
    (hoptimal : t.isOptimal = true) {slack : ℚ} (hlast : next.rhs? t.rowCount = some slack)
    (hslack : -t.tolerance ≤ slack) : next.isOptimal = true := by
  have hsame : next.tolerance = t.tolerance := (settings_eq_iff.mp h.settings).2.2.1
  rw [Tableau.isOptimal, h.isDualFeasible htolerance (Bool.and_eq_true_iff.mp hoptimal).2,
    Bool.and_true, isPrimalFeasible, List.all_eq_true]
  intro s hs
  rw [decide_eq_true_eq, hsame]
  obtain ⟨i, hi⟩ := List.mem_iff_getElem?.mp hs
  rcases h.rhs_cases hi with rfl | ⟨r, hr, hrhs⟩
  · rw [rhs?, hi] at hlast
    exact hslack.trans (Option.some.inj hlast).ge
  · exact hrhs ▸ not_lt.mp (rhs_of_isOptimal hoptimal r hr)

/-- A new right-hand side below zero by more than the tolerance makes the last row the one to leave, as
no other one is infeasible. -/
theorem leavingRow?_eq (h : t.ExtendedBy next label) (hoptimal : t.isOptimal = true) {slack : ℚ}
    (hlast : next.rhs? t.rowCount = some slack) (hslack : slack < -t.tolerance) :
    next.leavingRow? = some t.rowCount := by
  have hsame : next.tolerance = t.tolerance := (settings_eq_iff.mp h.settings).2.2.1
  obtain ⟨s, hs, hrhs⟩ := Option.map_eq_some_iff.mp hlast
  cases hleaving : next.leavingRow? with
  | none =>
    refine absurd ?_ (leavingRow?_eq_none_iff.mp hleaving s (List.mem_of_getElem? hs))
    rwa [hrhs, hsame]
  | some row =>
    obtain ⟨found, hfound, hneg⟩ := leavingRow?_eq_some hleaving
    rcases h.rhs_cases hfound with rfl | ⟨r, hr, hold⟩
    · rfl
    · rw [hold, hsame] at hneg
      exact absurd hneg (rhs_of_isOptimal hoptimal r hr)

/-- Solutions of the two tableaus agree on what was there. -/
theorem solutions_agree (h : t.ExtendedBy next label) (ht : t.Encodes costs given)
    (hnext : next.IdentityBasis) {before after : Solution ℚ} (hbefore : t.GivesSolution before)
    (hafter : next.GivesSolution after) :
    after.values = before.values ∧ after.objectiveValue = before.objectiveValue ∧
      ∀ column < t.columnCount, after.value column = before.value column := by
  have hold := (identityBasis ht.canonical).valuesAgree hbefore
  have hnew := hnext.valuesAgree hafter
  obtain ⟨hdecisions, hsense, _⟩ := settings_eq_iff.mp h.settings
  have hcount : next.structuralCount = t.structuralCount := congrArg List.length hdecisions
  refine ⟨?_, ?_, fun column hcolumn => ?_⟩
  · rw [hnew.values, hold.values, hcount]
    apply List.map_congr_left
    intro column hcolumn
    apply h.values
    rw [ht.columns]
    exact (List.mem_range.mp hcolumn).trans_le (Nat.le_add_right _ _)
  · obtain ⟨_, rfl⟩ := hbefore.exists_iterations
    obtain ⟨_, rfl⟩ := hafter.exists_iterations
    change ObjectiveValue.attained _ = ObjectiveValue.attained _
    rw [hsense, h.objectiveValue]
  · rw [hnew.value, hold.value, h.values column hcolumn]

end ExtendedBy

end Optimal

/-- A constraint over the current columns is always accepted. -/
theorem appendRow_eq_ok_iff {t next : Tableau ℚ} {coefficients : List ℚ} {rhs : ℚ} :
    t.appendRow coefficients rhs = .ok next ↔ coefficients.length ≤ t.columnCount ∧
      next = t.appendStored ⟨coefficients, ⟨t.nextConstraintName, .le, rhs⟩⟩ := by
  have hfinite : ∀ (place : Place) (values : List ℚ), nonFinite? place values = none := by
    intro place values
    simp [nonFinite?, Scalar.isFinite]
  rw [appendRow, append_eq_ok_iff, appendFault?]
  refine and_congr_left fun _ => ?_
  split
  · rename_i hlong
    simpa using hlong
  · rename_i hshort
    simpa [hfinite] using hshort

end Tableau

/-- A constraint over the current columns is accepted and leaves everything that was there as it was. Its
slack has as its value what the basic solution leaves of the right-hand side. If the tableau was optimal
and the slack is feasible, a further solve makes no pivot and gives the solution from before; if the
slack is not feasible, the tableau is still dual feasible and the new row is the one to leave. -/
theorem Origin.appendRow_conservative {o : Origin} {t : Tableau ℚ} (ht : o.tableau = .ok t)
    {history : List (Edit ℚ)} (hcareful : t.Careful history) (coefficients : List ℚ) (rhs : ℚ) :
    let reached := t.afterEdits history
    let slack := reached.room coefficients rhs
    ((∃ next, reached.appendRow coefficients rhs = .ok next) ↔
        coefficients.length ≤ reached.columnCount) ∧
      ∀ next, reached.appendRow coefficients rhs = .ok next →
        reached.ExtendedBy next ⟨reached.nextConstraintName, .le, rhs⟩ ∧
        next.value reached.columnCount = slack ∧ next.rhs? reached.rowCount = some slack ∧
        (reached.isOptimal = true →
          (-reached.tolerance ≤ slack → ∀ options : SolveOptions,
              let report := (next.solve options).1
              let after := (next.solve options).2.extract report
              report.status = .optimal ∧ report.iterations = 0 ∧
                ∀ before, reached.GivesSolution before →
                  after.values = before.values ∧ after.objectiveValue = before.objectiveValue ∧
                    ∀ column < reached.columnCount, after.value column = before.value column) ∧
            (slack < -reached.tolerance →
              next.isDualFeasible = true ∧ next.leavingRow? = some reached.rowCount)) := by
  intro reached slack
  obtain ⟨hencodes, htolerance⟩ :=
    Origin.encodes_of_pivotsOffZero ht hcareful.tolerance hcareful.offZero
  refine ⟨⟨fun hmade => ?_, fun hwidth => ⟨_, Tableau.appendRow_eq_ok_iff.mpr ⟨hwidth, rfl⟩⟩⟩, ?_⟩
  · obtain ⟨next, hnext⟩ := hmade
    exact (Tableau.appendRow_eq_ok_iff.mp hnext).1
  · intro next hnext
    obtain ⟨hwidth, rfl⟩ := Tableau.appendRow_eq_ok_iff.mp hnext
    let c : StoredConstraint ℚ := ⟨coefficients, ⟨reached.nextConstraintName, .le, rhs⟩⟩
    have hextended := reached.extendedBy_appendStored c
    have hbasis := Tableau.identityBasis (hencodes.appendStored (c := c) hwidth).canonical
    obtain ⟨hvalue, hlast⟩ := hencodes.slack_appendStored (c := c) hwidth
    refine ⟨hextended, hvalue, hlast, fun hoptimal => ⟨fun hslack options => ?_, fun hslack => ?_⟩⟩
    · have hstays := hextended.isOptimal htolerance hoptimal hlast hslack
      obtain ⟨hstatus, hiterations, hsame⟩ := Tableau.solve_of_isOptimal hstays options
      refine ⟨hstatus, hiterations, fun before hbefore => ?_⟩
      exact hextended.solutions_agree hencodes hbasis hbefore (.inl ⟨_, hstatus, by rw [hsame]⟩)
    · exact ⟨hextended.isDualFeasible htolerance (Bool.and_eq_true_iff.mp hoptimal).2,
        hextended.leavingRow?_eq hoptimal hlast hslack⟩

/-- A constraint over a variable and a slack, after a solve: one that the optimum meets, and one that it
does not meet. -/
theorem appendRow_over_slack :
    let o : Origin := .matrix [[1, 1], [1, 3]] [4, 6] [3, 2]
    let t := o.start.slackTableau
    let history : List (Edit ℚ) := [.solve {}]
    let reached := t.afterEdits history
    o.tableau = .ok t ∧ t.Careful history ∧ reached.isOptimal = true ∧
      (∃ next, reached.appendRow [1, 0, 0, 1] 7 = .ok next ∧
        next.rhs? 2 = some (reached.room [1, 0, 0, 1] 7) ∧ -reached.tolerance ≤ reached.room [1, 0, 0, 1] 7 ∧
        (next.solve { maxIterations := 0 }).1.status = .optimal ∧
        ∀ before, reached.solution = .ok before →
          ((next.solve { maxIterations := 0 }).2.extract
            (next.solve { maxIterations := 0 }).1).values = before.values) ∧
      ∃ next, reached.appendRow [1, 0, 0, 1] 5 = .ok next ∧
        reached.room [1, 0, 0, 1] 5 < -reached.tolerance ∧ next.isDualFeasible = true ∧
        next.leavingRow? = some 2 := by
  intro o t history reached
  have ht : o.tableau = .ok t := by with_unfolding_all rfl
  have hcareful : t.Careful history := ⟨by simp [history, Edit.SetsNonneg], trivial, trivial⟩
  have hoptimal : reached.isOptimal = true := by decide +kernel
  have hcount : reached.rowCount = 2 := by decide +kernel
  have hmet : -reached.tolerance ≤ reached.room [1, 0, 0, 1] 7 := by decide +kernel
  have hbroken : reached.room [1, 0, 0, 1] 5 < -reached.tolerance := by decide +kernel
  obtain ⟨haccepted, hmade⟩ := Origin.appendRow_conservative ht hcareful [1, 0, 0, 1] 7
  obtain ⟨next, hnext⟩ := haccepted.mpr (by decide +kernel)
  obtain ⟨_, _, hlast, hsolve⟩ := hmade next hnext
  obtain ⟨hstatus, _, hsolution⟩ := (hsolve hoptimal).1 hmet { maxIterations := 0 }
  obtain ⟨hacceptedToo, hmadeToo⟩ := Origin.appendRow_conservative ht hcareful [1, 0, 0, 1] 5
  obtain ⟨other, hother⟩ := hacceptedToo.mpr (by decide +kernel)
  obtain ⟨_, _, _, hrepair⟩ := hmadeToo other hother
  obtain ⟨hdual, hleaving⟩ := (hrepair hoptimal).2 hbroken
  change next.rhs? reached.rowCount = _ at hlast
  change other.leavingRow? = some reached.rowCount at hleaving
  rw [hcount] at hlast hleaving
  exact ⟨ht, hcareful, hoptimal,
    ⟨next, hnext, hlast, hmet, hstatus, fun before hbefore => (hsolution before (.inr hbefore)).1⟩,
    other, hother, hbroken, hdual, hleaving⟩

end WarmSimplex
