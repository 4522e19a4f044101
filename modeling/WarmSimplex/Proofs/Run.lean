import WarmSimplex.Proofs.Moves
import WarmSimplex.Proofs.Tableau.Encoding

/-!
# Runs of the solver

A run is a sequence of pivots, each of which the signs of its tableau allow, and a verdict about the
tableau it ends with. What every such pivot keeps, a run keeps; what a tableau encodes is an
instance. Setting the objective aside changes the costs to zero for a while, and repricing puts the
saved ones back, whatever the verdict of the feasibility phase is.

The limits on pivots and time can cut a run short anywhere. They are not a verdict about a tableau.
-/

namespace WarmSimplex

section Loop

variable {α : Type} [Scalar α]

/-- The pivot that is made is the first usable one of those offered. -/
theorem Tableau.pivotFirst_eq_some {t next : Tableau α} {row column : ℕ} {columns : List ℕ}
    {rejected : List (RejectedPivot α)}
    (h : t.pivotFirst row columns = (rejected, some (column, next))) :
    column ∈ columns ∧ t.pivot row column = .ok next := by
  induction columns generalizing rejected with
  | nil => simp [pivotFirst] at h
  | cons first rest ih =>
    rw [pivotFirst] at h
    split at h
    · rename_i made hmade
      simp only [Prod.mk.injEq, Option.some.injEq] at h
      obtain ⟨_, rfl, rfl⟩ := h
      exact ⟨List.mem_cons_self, hmade⟩
    · have hmade : (t.pivotFirst row rest).2 = some (column, next) := congrArg Prod.snd h
      obtain ⟨hmem, hpivot⟩ := ih (Prod.ext rfl hmade)
      exact ⟨List.mem_cons_of_mem _ hmem, hpivot⟩

/-- What every pivot of the loop keeps, the loop keeps. -/
theorem Progress.iterate_induction {I : Tableau α → Prop} (rule : EnteringRule)
    (hstep : ∀ (t next : Tableau α) kind row columns column, I t →
      t.nextMove rule = .pivot kind row columns → column ∈ columns →
      t.pivot row column = .ok next → I next)
    (deadline : Deadline) (budget : ℕ) (p : Progress α) (hp : I p.tableau) :
    I (p.iterate rule deadline budget).1.tableau := by
  induction budget generalizing p with
  | zero =>
    unfold Progress.iterate
    split
    · exact hp
    · exact hp
    · contradiction
  | succ budget ih =>
    unfold Progress.iterate
    split
    · exact hp
    · contradiction
    · rename_i kind row columns remaining hmove hbudget
      cases hbudget
      split
      · exact hp
      · split
        · exact hp
        · rename_i rejected column next hfirst
          obtain ⟨hmem, hpivot⟩ := Tableau.pivotFirst_eq_some hfirst
          exact ih _ (hstep _ _ _ _ _ _ hp hmove hmem hpivot)

/-- The loop stops at a limit or because there is no further move. -/
theorem Progress.iterate_verdict (rule : EnteringRule) (deadline : Deadline) (budget : ℕ)
    (p : Progress α) :
    (p.iterate rule deadline budget).2 = .iterationLimit ∨
      (p.iterate rule deadline budget).2 = .timeLimit ∨
      (p.iterate rule deadline budget).1.tableau.nextMove rule =
        .stop (p.iterate rule deadline budget).2 := by
  induction budget generalizing p with
  | zero =>
    unfold Progress.iterate
    split
    · rename_i hmove
      exact .inr (.inr hmove)
    · exact .inl rfl
    · contradiction
  | succ budget ih =>
    unfold Progress.iterate
    split
    · rename_i hmove
      exact .inr (.inr hmove)
    · contradiction
    · rename_i hbudget
      cases hbudget
      split
      · exact .inr (.inl rfl)
      · split
        · exact .inl rfl
        · exact ih _

/-- The loop keeps the decision variables, the sense and the tolerances. -/
theorem Progress.settings_iterate (rule : EnteringRule) (deadline : Deadline) (budget : ℕ)
    (p : Progress α) :
    (p.iterate rule deadline budget).1.tableau.settings = p.tableau.settings := by
  refine Progress.iterate_induction (I := fun t => t.settings = p.tableau.settings) rule
    (fun t next kind row columns column ht _ _ hpivot => ?_) deadline budget p rfl
  obtain ⟨_, _, _, rfl⟩ := Tableau.pivot_eq_ok_iff.mp hpivot
  rw [Tableau.settings_pivotAt, ht]

namespace Tableau

/-- The tableau at the end of the loop of the feasibility phase, before the objective is back. -/
def idleEnd (t : Tableau α) (options : SolveOptions) : Progress α × Verdict α :=
  (Progress.start (t.withObjective (Equation.zero t.columnCount))).iterate options.rule
    options.deadline options.maxIterations

/-- The feasibility phase puts the objective back at the end of its loop. -/
theorem restoreFeasibility_eq (t : Tableau α) (options : SolveOptions) :
    t.restoreFeasibility options =
      ((t.idleEnd options).1.mapTableau fun reached => (reached.withObjective t.objective).reprice,
        (t.idleEnd options).2) :=
  rfl

/-- The loop of the feasibility phase keeps the decision variables, the sense and the tolerances. -/
theorem settings_idleEnd (t : Tableau α) (options : SolveOptions) :
    (t.idleEnd options).1.tableau.settings = t.settings :=
  Progress.settings_iterate _ _ _ _

/-- The feasibility phase keeps the decision variables, the sense and the tolerances. -/
theorem settings_restoreFeasibility (t : Tableau α) (options : SolveOptions) :
    (t.restoreFeasibility options).1.tableau.settings = t.settings :=
  t.settings_idleEnd options

/-- A run from a tableau that is feasible in one sense is the loop alone. -/
theorem run_of_feasible {t : Tableau α} (h : t.isPrimalFeasible = true ∨ t.isDualFeasible = true)
    (options : SolveOptions) :
    t.run options =
      (Progress.start t).iterate options.rule options.deadline options.maxIterations := by
  rw [run, if_pos (Bool.or_eq_true_iff.mpr h)]

/-- A run from another tableau begins with a feasibility phase, and goes on with the loop if that
ends well. -/
theorem run_of_infeasible {t : Tableau α} (hprimal : t.isPrimalFeasible = false)
    (hdual : t.isDualFeasible = false) (options : SolveOptions) :
    ((t.restoreFeasibility options).2 = .optimal →
        t.run options = (t.restoreFeasibility options).1.iterate options.rule options.deadline
          (options.maxIterations - (t.restoreFeasibility options).1.pivots.size)) ∧
      ((t.restoreFeasibility options).2 ≠ .optimal →
        t.run options = t.restoreFeasibility options) := by
  rw [run, if_neg (by simp [hprimal, hdual])]
  obtain ⟨p, verdict⟩ := t.restoreFeasibility options
  refine ⟨?_, fun hstopped => ?_⟩
  · rintro rfl
    rfl
  · cases verdict with
    | optimal => exact absurd rfl hstopped
    | infeasible certificate => rfl
    | unbounded => rfl
    | iterationLimit => rfl
    | timeLimit => rfl

/-- A run is the loop alone, or a feasibility phase that ends it, or the loop after one. -/
theorem run_cases (t : Tableau α) (options : SolveOptions) :
    t.run options =
        (Progress.start t).iterate options.rule options.deadline options.maxIterations ∨
      (t.restoreFeasibility options).2 ≠ .optimal ∧ t.run options = t.restoreFeasibility options ∨
      t.run options = (t.restoreFeasibility options).1.iterate options.rule options.deadline
        (options.maxIterations - (t.restoreFeasibility options).1.pivots.size) := by
  by_cases hfeasible : t.isPrimalFeasible = true ∨ t.isDualFeasible = true
  · exact .inl (run_of_feasible hfeasible options)
  · obtain ⟨hprimal, hdual⟩ := not_or.mp hfeasible
    obtain ⟨hgoes, hstops⟩ := run_of_infeasible (Bool.eq_false_iff.mpr hprimal)
      (Bool.eq_false_iff.mpr hdual) options
    by_cases hoptimal : (t.restoreFeasibility options).2 = .optimal
    · exact .inr (.inr (hgoes hoptimal))
    · exact .inr (.inl ⟨hoptimal, hstops hoptimal⟩)

/-- A run keeps the decision variables, the sense and the tolerances. -/
theorem settings_run (t : Tableau α) (options : SolveOptions) :
    (t.run options).1.tableau.settings = t.settings := by
  rcases t.run_cases options with hrun | ⟨_, hrun⟩ | hrun
  · rw [hrun, Progress.settings_iterate]
    rfl
  · rw [hrun, settings_restoreFeasibility]
  · rw [hrun, Progress.settings_iterate, settings_restoreFeasibility]

/-- A solve keeps the tolerance. -/
theorem tolerance_solve (t : Tableau α) (options : SolveOptions) :
    (t.solve options).2.tolerance = t.tolerance :=
  (settings_eq_iff.mp (t.settings_run options)).2.2.1

end Tableau

end Loop

/-! ## Runs in exact arithmetic -/

namespace Tableau

variable {t : Tableau ℚ} {costs : List ℚ} {given : List (StoredConstraint ℚ)}

/-- The signs that allow a pivot keep its entry away from zero. -/
theorem Allows.coefficient_ne_zero {kind : PivotKind} {row : ℕ} {columns : List ℕ}
    (hallows : t.Allows (.pivot kind row columns)) (htolerance : 0 ≤ t.tolerance)
    (hwidth : ∀ r ∈ t.rows, r.coefficients.length = t.columnCount) {column : ℕ}
    (hcolumn : column ∈ columns) :
    ∃ r, t.rows[row]? = some r ∧ r.coefficient column ≠ 0 := by
  cases hallows with
  | dualPivot hr _ hcolumns =>
    refine ⟨_, hr, ?_⟩
    have hneg := (hcolumns column hcolumn).2
    linarith
  | primalPivot _ hinside _ hr hentry =>
    cases List.mem_singleton.mp hcolumn
    refine ⟨_, hr, ?_⟩
    have hlength := hwidth _ (List.mem_of_getElem? hr)
    rw [Equation.entry_of_lt (hlength.symm ▸ hinside), ratioThreshold, Scalar.larger_rat] at hentry
    exact (htolerance.trans_lt ((le_max_left _ _).trans_lt hentry)).ne'

/-- What the loop's pivots keep of a tableau with a tolerance: what it encodes. -/
theorem Encodes.iterate {p : Progress ℚ} (hp : p.tableau.Encodes costs given)
    (htolerance : 0 ≤ p.tableau.tolerance) (rule : EnteringRule) (deadline : Deadline)
    (budget : ℕ) : (p.iterate rule deadline budget).1.tableau.Encodes costs given := by
  have hboth := Progress.iterate_induction (I := fun t => t.Encodes costs given ∧ 0 ≤ t.tolerance) rule
    (fun t next kind row columns column ht hmove hcolumn hpivot => ?_) deadline budget p
    ⟨hp, htolerance⟩
  · exact hboth.1
  · obtain ⟨hencodes, hnonneg⟩ := ht
    obtain ⟨_, _, _, rfl⟩ := pivot_eq_ok_iff.mp hpivot
    obtain ⟨r, hr, hne⟩ := Allows.coefficient_ne_zero (hmove ▸ allows_nextMove t rule) hnonneg
      (forall_mem_dictionary_rows.mp hencodes.canonical.solved.width) hcolumn
    have hsettings := settings_eq_iff.mp (settings_pivotAt t row column)
    exact ⟨hencodes.pivotAt hr hne, hsettings.2.2.1 ▸ hnonneg⟩

/-- Against a zero objective a tableau encodes its constraints and no costs. -/
theorem Encodes.setAside (ht : t.Encodes costs given) :
    (t.withObjective (Equation.zero t.columnCount)).Encodes [] given := by
  have hcolumns : (t.withObjective (Equation.zero t.columnCount)).columnCount = t.columnCount :=
    Equation.length_zero t.columnCount
  refine ⟨⟨?_, fun r _ => Equation.coefficient_zero _ _⟩, hcolumns.trans ht.columns, ht.labels,
    ht.holds_iff, fun v _ => ?_⟩
  · rw [show (t.withObjective (Equation.zero t.columnCount)).dictionary.columns = t.columnCount
      from hcolumns]
    exact ht.canonical.solved
  · change (Equation.zero t.columnCount : Equation ℚ).gap v = costAt [] v
    rw [Equation.gap, Equation.eval_zero, costAt]
    simp [Equation.zero]

/-- Whatever verdict the feasibility phase ends with, the objective is back after it. -/
theorem Encodes.restoreFeasibility (ht : t.Encodes costs given) (htolerance : 0 ≤ t.tolerance)
    (options : SolveOptions) :
    (t.restoreFeasibility options).1.tableau.Encodes costs given := by
  have hreached : (t.idleEnd options).1.tableau.Encodes [] given :=
    Encodes.iterate (p := Progress.start _) ht.setAside htolerance _ _ _
  have hstructural : (t.idleEnd options).1.tableau.structuralCount = t.structuralCount := by
    rw [structuralCount, (settings_eq_iff.mp (t.settings_idleEnd options)).1]
    rfl
  rw [restoreFeasibility_eq]
  apply hreached.reprice
  · rw [hreached.columns, hstructural, ← ht.columns]
    rfl
  · intro v hv
    have hform := (hreached.holds_iff v).mp hv
    rw [hstructural] at hform
    exact ht.gap v ((ht.holds_iff v).mpr hform)

/-- A run keeps what the tableau encodes, whatever its verdict is. -/
theorem Encodes.run (ht : t.Encodes costs given) (htolerance : 0 ≤ t.tolerance)
    (options : SolveOptions) : (t.run options).1.tableau.Encodes costs given := by
  have hrestored := ht.restoreFeasibility htolerance options
  rcases t.run_cases options with hrun | ⟨_, hrun⟩ | hrun
  · rw [hrun]
    exact Encodes.iterate (p := Progress.start t) ht htolerance _ _ _
  · rwa [hrun]
  · rw [hrun]
    refine Encodes.iterate hrestored ?_ _ _ _
    rwa [(settings_eq_iff.mp (t.settings_restoreFeasibility options)).2.2.1]

/-! ## Verdicts -/

/-- A pivot leaves an objective without reduced costs as it is. -/
theorem objective_pivotAt_of_idle (hidle : ∀ j, t.reducedCost j = 0) (row column : ℕ) :
    (t.pivotAt row column).objective = t.objective := by
  simp only [pivotAt]
  split
  · rfl
  · simp only [Equation.eliminate]
    have hfactor : t.objective.coefficient column = 0 := hidle column
    rw [hfactor, if_pos (by simp)]

/-- The objective that was set aside stays zero until it is put back. -/
theorem reducedCost_idleEnd (t : Tableau ℚ) (options : SolveOptions) (j : ℕ) :
    (t.idleEnd options).1.tableau.reducedCost j = 0 := by
  have hstart : ∀ j, (t.withObjective (Equation.zero t.columnCount)).reducedCost j = 0 :=
    fun j => Equation.coefficient_zero t.columnCount j
  refine Progress.iterate_induction (I := fun u => ∀ j, u.reducedCost j = 0) options.rule
    (fun u next kind row columns column hu _ _ hpivot j => ?_) options.deadline
    options.maxIterations (Progress.start _) hstart j
  obtain ⟨_, _, _, rfl⟩ := pivot_eq_ok_iff.mp hpivot
  rw [reducedCost, objective_pivotAt_of_idle hu]
  exact hu j

/-- The loop ends at a limit or with a verdict that the signs allow. -/
theorem allows_iterate (p : Progress ℚ) (rule : EnteringRule) (deadline : Deadline) (budget : ℕ) :
    (p.iterate rule deadline budget).2 = .iterationLimit ∨
      (p.iterate rule deadline budget).2 = .timeLimit ∨
      (p.iterate rule deadline budget).1.tableau.Allows
        (.stop (p.iterate rule deadline budget).2) := by
  rcases Progress.iterate_verdict rule deadline budget p with hlimit | hlimit | hstop
  · exact .inl hlimit
  · exact .inr (.inl hlimit)
  · exact .inr (.inr (hstop ▸ allows_nextMove _ rule))

/-- A verdict other than an optimum needs no reduced cost against a zero objective, so it is still
allowed once the objective is back. -/
theorem allows_restoreFeasibility (htolerance : 0 ≤ t.tolerance) (options : SolveOptions)
    (hoptimal : (t.restoreFeasibility options).2 ≠ .optimal) :
    (t.restoreFeasibility options).2 = .iterationLimit ∨
      (t.restoreFeasibility options).2 = .timeLimit ∨
      (t.restoreFeasibility options).1.tableau.Allows (.stop (t.restoreFeasibility options).2) := by
  have hcost := t.reducedCost_idleEnd options
  have hsettings := settings_eq_iff.mp (t.settings_idleEnd options)
  rw [restoreFeasibility_eq] at hoptimal ⊢
  rcases allows_iterate (Progress.start (t.withObjective (Equation.zero t.columnCount)))
    options.rule options.deadline options.maxIterations with hlimit | hlimit | hallows
  · exact .inl hlimit
  · exact .inr (.inl hlimit)
  · refine .inr (.inr ?_)
    rw [← idleEnd] at hallows
    generalize hverdict : (t.idleEnd options).2 = verdict at hallows hoptimal ⊢
    cases hallows with
    | optimal => exact absurd rfl hoptimal
    | infeasible hr hrhs hcoefficients => exact .infeasible hr hrhs hcoefficients
    | unbounded _ _ hneg _ =>
      rw [hcost, hsettings.2.2.1] at hneg
      linarith

/-- A run ends at a limit or with a verdict that the signs of its last tableau allow. -/
theorem allows_run (htolerance : 0 ≤ t.tolerance) (options : SolveOptions) :
    (t.run options).2 = .iterationLimit ∨ (t.run options).2 = .timeLimit ∨
      (t.run options).1.tableau.Allows (.stop (t.run options).2) := by
  rcases t.run_cases options with hrun | ⟨hoptimal, hrun⟩ | hrun
  · rw [hrun]
    exact allows_iterate _ _ _ _
  · rw [hrun]
    exact allows_restoreFeasibility htolerance options hoptimal
  · rw [hrun]
    exact allows_iterate _ _ _ _

/-- A solve that gives an answer leaves a tableau whose signs allow it. -/
theorem allows_solve (htolerance : 0 ≤ t.tolerance) (options : SolveOptions)
    (hiterations : (t.solve options).1.status ≠ .iterationLimit)
    (htime : (t.solve options).1.status ≠ .timeLimit) :
    ∃ verdict : Verdict ℚ, verdict.status = (t.solve options).1.status ∧
      (t.solve options).2.Allows (.stop verdict) := by
  have hstatus : (t.solve options).1.status = (t.run options).2.status := rfl
  rcases allows_run htolerance options with hlimit | hlimit | hallows
  · rw [hstatus, hlimit] at hiterations
    exact absurd rfl hiterations
  · rw [hstatus, hlimit] at htime
    exact absurd rfl htime
  · exact ⟨(t.run options).2, rfl, hallows⟩

/-- A solve that ends optimal leaves a tableau whose signs are those of an optimum. -/
theorem allows_optimal_of_solve (htolerance : 0 ≤ t.tolerance) {options : SolveOptions}
    (hoptimal : (t.solve options).1.status = .optimal) :
    (t.solve options).2.Allows (.stop .optimal) := by
  obtain ⟨verdict, hverdict, hallows⟩ := allows_solve htolerance options (by simp [hoptimal])
    (by simp [hoptimal])
  rw [hoptimal] at hverdict
  cases verdict with
  | optimal => exact hallows
  | infeasible certificate => cases hverdict
  | unbounded => cases hverdict
  | iterationLimit => cases hverdict
  | timeLimit => cases hverdict

end Tableau

end WarmSimplex
