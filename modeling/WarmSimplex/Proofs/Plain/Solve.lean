import WarmSimplex.Proofs.Plain.Layout
import WarmSimplex.Plain.Solve

/-!
# Solving on plain lists

What is read from the layout of a tableau to choose a move is what the checked computations read from the
tableau. If it fits together there is a next move, and the pivots of a solve, the refused ones and the
report are those of the solve of the tableau.

The lists keep less of a solve on its way: of the pivots that were made only their number.
-/

namespace WarmSimplex

variable {α : Type}

/-- A solve on its way, on plain lists. -/
def Progress.plain (p : Progress α) : Plain.Run α := ⟨p.tableau.plain, p.pivots.size, p.rejected.toList⟩

/-- A report, with the tableau that it may hold on plain lists. -/
def Report.plain (r : Report α) : Plain.Report α where
  status := r.status
  iterations := r.iterations
  certificate := r.certificate
  diagnostics := r.diagnostics.map fun d => (d.rejectedPivots, d.snapshot.plain)

/-- Noting refused pivots. -/
theorem Progress.plain_reject (p : Progress α) (rejected : List (RejectedPivot α)) :
    (p.reject rejected).plain = { p.plain with rejected := p.plain.rejected ++ rejected } := by
  simp [plain, reject]

/-- Noting a pivot that was made. -/
theorem Progress.plain_advance (p : Progress α) (made : Pivot) (next : Tableau α) :
    (p.advance made next).plain =
      { p.plain with tableau := next.plain, iterations := p.plain.iterations + 1 } := by
  simp [plain, advance]

/-- The report on a finished run. -/
theorem Report.plain_ofRun (p : Progress α) (verdict : Verdict α) :
    (Report.ofRun p verdict).plain = .ofRun p.plain verdict := by
  cases verdict <;> rfl

/-- A row as evidence of infeasibility. -/
theorem Tableau.certificate_plain (t : Tableau α) (row : ℕ) :
    t.plain.certificate row = Checked.certificate t row := by
  rw [Plain.certificate, coefficients_plain, rhs_plain]
  rfl

variable [Scalar α]

/-! ## Choosing a pivot -/

namespace Tableau

section Choosing

variable (t : Tableau α)

/-- The test for primal feasibility reads every right-hand side. -/
@[simp]
theorem isPrimalFeasible_plain : t.plain.isPrimalFeasible = some t.isPrimalFeasible := by
  rw [Plain.isPrimalFeasible, length_rows_plain]
  refine allM_range_eq_some fun i r hr => ?_
  rw [rhs_plain, rhs?, hr]
  rfl

/-- The test for dual feasibility reads every reduced cost. -/
@[simp]
theorem isDualFeasible_plain : t.plain.isDualFeasible = some t.isDualFeasible := by
  rw [Plain.isDualFeasible, reducedCosts_plain]
  rfl

/-- The row that leaves the basis. -/
@[simp]
theorem leavingRow_plain : t.plain.leavingRow = some t.leavingRow? := by
  have hfound : ((List.range t.rowCount).mapM fun i => (t.plain.rhs i).map fun b =>
      if b < -t.plain.tolerance then some (⟨i, b⟩ : Ranked α) else none) =
        some (t.rows.zipIdx.map fun pair =>
          if pair.1.rhs < -t.tolerance then some ⟨pair.2, pair.1.rhs⟩ else none) := by
    refine mapM_range_eq_some fun i r hr => ?_
    rw [rhs_plain, rhs?, hr]
    rfl
  rw [Plain.leavingRow, length_rows_plain, hfound, Option.bind_eq_bind, Option.bind_some,
    List.filterMap_map]
  rfl

/-- The candidates for a dual pivot on a row. -/
theorem enteringCandidates_plain (row : ℕ) :
    t.plain.enteringCandidates row = Checked.enteringCandidates t row := by
  rw [Plain.enteringCandidates, coefficients_plain]
  rfl

/-- The column that enters on a primal pivot. -/
@[simp]
theorem primalEntering_plain (rule : EnteringRule) :
    t.plain.primalEntering rule = some (t.primalEntering? rule) := by
  rw [Plain.primalEntering, reducedCosts_plain]
  cases rule with
  | bland => rfl
  | dantzig => rfl

/-- The row that leaves on a primal pivot. -/
theorem primalLeaving_plain (column : ℕ) :
    t.plain.primalLeaving column = Checked.primalLeaving t column := by
  have hfound : (List.range t.rowCount).mapM (t.plain.boundingRow column) =
      t.rows.zipIdx.mapM fun pair => Checked.boundingRow t column pair.1 pair.2 := by
    refine mapM_range_eq fun i r hr => ?_
    rw [Plain.boundingRow, coefficient_plain, coefficient?, rhs_plain, rhs?, hr, Option.bind_some,
      Checked.boundingRow]
    cases r.entries[column]? with
    | none => rfl
    | some a => exact (apply_ite some _ _ _).symm
  rw [Plain.primalLeaving, length_rows_plain, hfound]
  rfl

/-- The next move is the one that the checked rules find. -/
theorem nextMove_plain (rule : EnteringRule) : t.plain.nextMove rule = Checked.nextMove t rule := by
  rw [Plain.nextMove, leavingRow_plain, Checked.nextMove, Option.bind_eq_bind, Option.bind_some]
  cases t.leavingRow? with
  | some row =>
    dsimp only
    rw [Plain.dualMove, enteringCandidates_plain, certificate_plain]
    rfl
  | none =>
    dsimp only
    rw [primalEntering_plain, Option.bind_some]
    cases t.primalEntering? rule with
    | none => rfl
    | some column =>
      dsimp only
      rw [Plain.primalMove, primalLeaving_plain]
      rfl

end Choosing

end Tableau

/-! ## Moves -/

/-- A pivot inside the tableau is refused only for the size of its entry. -/
theorem Tableau.rejected?_of_pivot {t : Tableau α} {row column : ℕ} {fault : TableauError α}
    (hrow : row < t.rowCount) (hcolumn : column < t.columnCount) (h : t.pivot row column = .error fault) :
    fault.rejected? = some ⟨row, column, t.coefficient row column⟩ := by
  rw [Tableau.pivot, if_pos ⟨hrow, hcolumn⟩] at h
  dsimp only at h
  split at h
  · cases h
    rfl
  · cases h

namespace Tableau.HasShape

variable {t : Tableau α} {n m : ℕ}

/-- Attempts to pivot inside the tableau. -/
theorem pivotFirst_plain (ht : t.HasShape n m) {row : ℕ} (hrow : row < m) {columns : List ℕ}
    (hcolumns : ∀ column ∈ columns, column < n + m) : t.plain.pivotFirst row columns =
      some ((t.pivotFirst row columns).1, (t.pivotFirst row columns).2.map fun made => made.2.plain) := by
  induction columns with
  | nil => rfl
  | cons column rest ih =>
    obtain ⟨hcolumn, hrest⟩ := List.forall_mem_cons.mp hcolumns
    rw [Plain.pivotFirst, ht.pivot_plain, Option.bind_eq_bind, Option.bind_some, pivotFirst]
    cases hpivot : t.pivot row column with
    | ok next => rfl
    | error fault =>
      have hrejected := rejected?_of_pivot (ht.rowCount.symm ▸ hrow) (ht.columns.symm ▸ hcolumn) hpivot
      dsimp only [Except.map]
      rw [ih hrest, hrejected]
      rfl

/-- The next move of a solve on its way. -/
theorem nextMove_run {p : Progress α} (hp : p.tableau.HasShape n m) (rule : EnteringRule) :
    p.plain.tableau.nextMove rule = some (p.tableau.nextMove rule) :=
  (nextMove_plain p.tableau rule).trans (hp.checked_nextMove rule)

/-- The loop makes the same moves on plain lists. -/
theorem iterate_plain {p : Progress α} (hp : p.tableau.HasShape n m) (rule : EnteringRule)
    (deadline : Deadline) (budget : ℕ) : p.plain.iterate rule deadline budget =
      some ((p.iterate rule deadline budget).1.plain, (p.iterate rule deadline budget).2) := by
  induction budget generalizing p with
  | zero =>
    unfold Plain.Run.iterate Progress.iterate
    rw [hp.nextMove_run]
    cases p.tableau.nextMove rule with
    | stop verdict => rfl
    | pivot kind row columns => rfl
  | succ budget ih =>
    unfold Plain.Run.iterate Progress.iterate
    rw [hp.nextMove_run]
    cases hnext : p.tableau.nextMove rule with
    | stop verdict => rfl
    | pivot kind row columns =>
      obtain ⟨hrow, hcolumns⟩ := hp.inside_of_nextMove hnext
      have hattempt : p.plain.tableau.pivotFirst row columns = _ := hp.pivotFirst_plain hrow hcolumns
      simp only [hattempt]
      change (if deadline.isOver p.pivots.size then _ else _) = _
      split
      · rfl
      · cases hfirst : p.tableau.pivotFirst row columns with
        | mk rejected made =>
          cases made with
          | none => rw [Progress.plain_reject]; rfl
          | some result =>
            have hrest := ih (p := (p.reject rejected).advance ⟨kind, row, result.1⟩ result.2)
              (hp.of_pivotFirst hcolumns hfirst)
            rw [Progress.plain_advance, Progress.plain_reject] at hrest
            exact hrest

/-! ## Solves -/

/-- The feasibility phase on plain lists. -/
theorem restoreFeasibility_plain (ht : t.HasShape t.structuralCount t.rowCount)
    (options : SolveOptions) : t.plain.restoreFeasibility options =
      some ((t.restoreFeasibility options).1.plain, (t.restoreFeasibility options).2) := by
  have hidle : (t.withObjective (Equation.zero t.columnCount)).HasShape t.structuralCount t.rowCount :=
    ht.withObjective (by rw [Equation.length_zero, ht.columns])
  have hzero : t.plain.withObjective (List.replicate (t.columnCount + 1) 0) =
      (t.withObjective (Equation.zero t.columnCount)).plain := by
    rw [List.replicate_succ']
    rfl
  have hloop : Plain.Run.iterate options.rule options.deadline options.maxIterations
      ⟨t.plain.withObjective (List.replicate (t.columnCount + 1) 0), 0, []⟩ =
        some ((t.idleEnd options).1.plain, (t.idleEnd options).2) := by
    rw [hzero]
    exact iterate_plain (p := .start _) hidle _ _ _
  have hreached := (OnTheWay.idleEnd ht options).shape
  have hprice := (hreached.withObjective ht.columns).reprice_plain
  rw [Plain.restoreFeasibility, columnCount_plain, Option.bind_eq_bind, Option.bind_some]
  dsimp only
  rw [hloop, Option.bind_eq_bind, Option.bind_some]
  change ((t.idleEnd options).1.tableau.withObjective t.objective).plain.reprice.bind _ = _
  rw [hprice]
  rfl

/-- A solve on plain lists. -/
theorem solve_plain (ht : t.HasShape t.structuralCount t.rowCount) (options : SolveOptions) :
    t.plain.solve options = some ((t.solve options).1.plain, (t.solve options).2.plain) := by
  have hrun : t.plain.run options = some ((t.run options).1.plain, (t.run options).2) := by
    rw [Plain.run, Tableau.run, isPrimalFeasible_plain, isDualFeasible_plain, Option.bind_eq_bind,
      Option.bind_some, Option.bind_some]
    split
    · exact iterate_plain (p := .start t) ht _ _ _
    · have hshape := (OnTheWay.restoreFeasibility ht options).shape
      rw [ht.restoreFeasibility_plain, Option.bind_eq_bind, Option.bind_some]
      cases hrestored : t.restoreFeasibility options with
      | mk p verdict =>
        rw [hrestored] at hshape
        cases verdict with
        | optimal => exact iterate_plain hshape _ _ _
        | infeasible certificate => rfl
        | unbounded => rfl
        | iterationLimit => rfl
        | timeLimit => rfl
  rw [Plain.solve, hrun, Option.bind_eq_bind, Option.bind_some]
  exact congrArg (fun report => some (report, _)) (Report.plain_ofRun _ _).symm

end Tableau.HasShape

end WarmSimplex
