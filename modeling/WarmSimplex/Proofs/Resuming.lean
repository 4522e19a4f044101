import WarmSimplex.Proofs.Budget
import WarmSimplex.Proofs.Reports

/-!
# Solving again

A solve that gives an answer leaves a tableau on which the loop stops at once, with the same answer. So
to solve it again changes nothing, whatever the limits are. This is so even if the answer was found while
the objective was set aside: it is about the rows then, and these stay.

A solve that is cut short by its budget goes on where it stopped if it is started again. Without
tolerances a tableau that is feasible in one sense stays so, and the second solve has no feasibility phase
that the first one had not.
-/

namespace WarmSimplex

section Loop

variable {α : Type}

/-! ## Progress on top of other progress -/

/-- The progress, noted after that of another one. -/
def Progress.after (p done : Progress α) : Progress α :=
  ⟨p.tableau, done.pivots ++ p.pivots, done.rejected ++ p.rejected⟩

/-- A solve that starts where another one stopped has nothing to add yet. -/
@[simp] theorem Progress.start_after (done : Progress α) :
    (Progress.start done.tableau).after done = done := by
  simp [after, start]

variable [Scalar α]

namespace Progress.Ends

variable {rule : EnteringRule} {deadline : Deadline} {limit : ℕ}
variable {p last : Progress α} {verdict final : Verdict α}

/-- Without a deadline the loop does the same after other progress, with as much more room. -/
theorem after (h : p.Ends rule deadline limit last verdict)
    (hopen : ∀ pivots, deadline.isOver pivots = false) (done : Progress α) :
    (p.after done).Ends rule deadline (done.pivots.size + limit) (last.after done) verdict := by
  have hsize (q : Progress α) : (q.after done).pivots.size = done.pivots.size + q.pivots.size :=
    Array.size_append
  induction h with
  | stop hmove => exact .stop hmove
  | exhausted hmove hlimit => exact .exhausted hmove (by rw [hsize]; omega)
  | late _ _ hover => cases hover.symm.trans (hopen _)
  | @refused p kind row columns rejected hmove hroom _ hfirst =>
    have hrest : (p.reject rejected).after done = (p.after done).reject rejected := by
      simp [Progress.after, reject]
    rw [hrest]
    exact .refused hmove (by rw [hsize]; omega) (hopen _) hfirst
  | @pivot p last kind row column columns rejected next verdict hmove hroom _ hfirst _ ih =>
    have hrest : ((p.reject rejected).advance ⟨kind, row, column⟩ next).after done =
        ((p.after done).reject rejected).advance ⟨kind, row, column⟩ next := by
      simp [Progress.after, reject, advance]
    rw [hrest] at ih
    exact .pivot hmove (by rw [hsize]; omega) (hopen _) hfirst ih

/-- A loop that ends with an answer would stop again where it ends. -/
theorem nextMove_eq (h : p.Ends rule deadline limit last verdict) (hlimit : verdict ≠ .iterationLimit)
    (htime : verdict ≠ .timeLimit) : last.tableau.nextMove rule = .stop verdict := by
  induction h with
  | stop hmove => exact hmove
  | exhausted _ _ => exact absurd rfl hlimit
  | late _ _ _ => exact absurd rfl htime
  | refused _ _ _ _ => exact absurd rfl hlimit
  | pivot _ _ _ _ _ ih => exact ih hlimit htime

/-- Without a deadline the loop is never too late. -/
theorem ne_timeLimit (h : p.Ends rule deadline limit last verdict)
    (hopen : ∀ pivots, deadline.isOver pivots = false) : verdict ≠ .timeLimit := by
  induction h with
  | stop hmove => exact (Tableau.ne_limit_of_nextMove hmove).2
  | exhausted _ _ => simp
  | late _ _ hover => cases hover.symm.trans (hopen _)
  | refused _ _ _ _ => simp
  | pivot _ _ _ _ _ ih => exact ih

/-- A loop that has nothing to do ends as it starts. -/
theorem eq_of_stop (h : p.Ends rule deadline limit last verdict)
    (hmove : p.tableau.nextMove rule = .stop final) : last = p ∧ verdict = final := by
  cases h with
  | stop hstop =>
    cases hstop.symm.trans hmove
    exact ⟨rfl, rfl⟩
  | exhausted hpivot _ => cases hpivot.symm.trans hmove
  | late hpivot _ _ => cases hpivot.symm.trans hmove
  | refused hpivot _ _ _ => cases hpivot.symm.trans hmove
  | pivot hpivot _ _ _ _ => cases hpivot.symm.trans hmove

/-- A loop that makes no pivot leaves the tableau as it is. -/
theorem tableau_eq (h : p.Ends rule deadline limit last verdict)
    (hsize : last.pivots.size ≤ p.pivots.size) : last.tableau = p.tableau := by
  cases h with
  | stop _ => rfl
  | exhausted _ _ => rfl
  | late _ _ _ => rfl
  | refused _ _ _ _ => rfl
  | pivot _ _ _ _ hrest =>
    have hmore := hrest.pivots_prefix.length_le
    simp only [advance, reject, Array.length_toList, Array.size_push] at hmore
    omega

end Progress.Ends

namespace Tableau

variable {t u : Tableau α} {rule : EnteringRule} {options : SolveOptions} {k m : ℕ}
variable {last final : Progress α} {verdict finalVerdict : Verdict α}

/-- That the constraints cannot be met is seen from the rows alone. -/
theorem nextMove_eq_infeasible_iff {c : Certificate α} :
    u.nextMove rule = .stop (.infeasible c) ↔
      ∃ row r, u.leavingRow? = some row ∧ u.rows[row]? = some r ∧
        (∀ a ∈ r.coefficients, ¬a < -u.tolerance) ∧ u.certificate row = c := by
  rw [nextMove]
  cases hleaving : u.leavingRow? with
  | none =>
    refine ⟨fun h => ?_, fun h => ?_⟩
    · dsimp only at h
      split at h
      · cases h
      · split at h <;> cases h
    · obtain ⟨row, r, hrow, _⟩ := h
      cases hrow
  | some row =>
    obtain ⟨r, hr, _⟩ := leavingRow?_eq_some hleaving
    have hnone : u.enteringCandidates row = [] ↔ ∀ a ∈ r.coefficients, ¬a < -u.tolerance :=
      rankCandidates_eq_nil_iff.trans (dualCandidates_eq_nil_iff hr)
    dsimp only
    cases hcandidates : u.enteringCandidates row with
    | nil =>
      refine ⟨fun h => ?_, fun h => ?_⟩
      · cases h
        exact ⟨row, r, rfl, hr, hnone.mp hcandidates, rfl⟩
      · obtain ⟨_, _, hrow, _, _, rfl⟩ := h
        cases hrow
        rfl
    | cons best others =>
      refine ⟨fun h => ?_, fun h => ?_⟩
      · cases h
      · obtain ⟨_, s, hrow, hs, hcoefficients, _⟩ := h
        cases hrow
        cases hr.symm.trans hs
        cases hcandidates.symm.trans (hnone.mpr hcoefficients)

/-- That the constraints cannot be met does not depend on the objective. -/
theorem nextMove_withObjective {c : Certificate α} (h : u.nextMove rule = .stop (.infeasible c))
    (objective : Equation α) : (u.withObjective objective).nextMove rule = .stop (.infeasible c) :=
  nextMove_eq_infeasible_iff.mpr (nextMove_eq_infeasible_iff.mp h :)

/-- Two solves in a row that need no feasibility phase end as one solve with both budgets, provided
that the first of them gives up only when its budget is used up. -/
theorem SolveEnds.resume (hopen : ∀ pivots, options.deadline.isOver pivots = false)
    (h : t.SolveEnds { options with maxIterations := k } last verdict)
    (hfeasible : t.isPrimalFeasible = true ∨ t.isDualFeasible = true)
    (hstays : last.tableau.isPrimalFeasible = true ∨ last.tableau.isDualFeasible = true)
    (hfull : verdict = .iterationLimit → k ≤ last.pivots.size)
    (hsecond : last.tableau.SolveEnds { options with maxIterations := m } final finalVerdict) :
    t.SolveEnds { options with maxIterations := k + m } (final.after last) finalVerdict := by
  have hfirst := h.loop hfeasible
  have hrest := hsecond.loop hstays
  refine .direct hfeasible ?_
  by_cases hlimit : verdict = .iterationLimit
  · have hsize : last.pivots.size = k := (hfirst.size_le (Nat.zero_le _)).antisymm (hfull hlimit)
    have hgoes := hrest.after hopen last
    rw [Progress.start_after, hsize] at hgoes
    exact hfirst.of_full hsize.ge (Nat.le_add_right k m) hgoes
  · have htime : verdict ≠ .timeLimit := hfirst.ne_timeLimit hopen
    obtain ⟨rfl, rfl⟩ := hrest.eq_of_stop (hfirst.nextMove_eq hlimit htime)
    rw [Progress.start_after]
    exact hfirst.of_settled (Nat.le_add_right k m) (.inl hlimit)

end Tableau

end Loop

/-! ## Solving again in exact arithmetic -/

/-- Clearing columns that an equation does not mention changes nothing. -/
theorem Equation.reduce_eq_self {e : Equation ℚ} {rows : List (Row ℚ)}
    (hbasic : ∀ r ∈ rows, e.coefficient r.basic = 0) : e.reduce rows = e := by
  induction rows with
  | nil => rfl
  | cons r rest ih =>
    obtain ⟨hfirst, hrest⟩ := List.forall_mem_cons.mp hbasic
    rw [reduce, List.foldl_cons, eliminate_of_zero hfirst]
    exact ih hrest

namespace Tableau

variable {t : Tableau ℚ} {costs : List ℚ} {given : List (StoredConstraint ℚ)}
variable {options again : SolveOptions} {last : Progress ℚ} {verdict : Verdict ℚ}

/-- To put the objective back over the basis that it was taken from changes nothing. -/
theorem Encodes.putBack_withObjective (ht : t.Encodes costs given) (objective : Equation ℚ) :
    t.putBack (t.withObjective objective) = t := by
  have hpriced : ∀ r ∈ t.rows, t.objective.coefficient r.basic = 0 :=
    forall_mem_dictionary_rows.mp ht.canonical.priced
  change t.withObjective (t.objective.reduce t.rows) = t
  rw [Equation.reduce_eq_self hpriced]
  rfl

/-- A feasibility phase that makes no pivot leaves the tableau as it is once the objective is back. -/
theorem Encodes.putBack_eq (ht : t.Encodes costs given)
    (hphase : (Progress.start (t.withObjective (Equation.zero t.columnCount))).Ends options.rule
      options.deadline options.maxIterations last verdict) (hsize : last.pivots.size = 0) :
    t.putBack last.tableau = t := by
  rw [hphase.tableau_eq hsize.le]
  exact ht.putBack_withObjective _

/-- A solve that makes no pivot leaves the tableau as it is, with or without a feasibility phase. -/
theorem SolveEnds.tableau_eq (h : t.SolveEnds options last verdict) (ht : t.Encodes costs given)
    (hsize : last.pivots.size = 0) : last.tableau = t := by
  cases h with
  | direct _ hloop => exact hloop.tableau_eq hsize.le
  | stopped _ _ hphase _ => exact ht.putBack_eq hphase hsize
  | @resumed middle _ _ _ _ hphase hloop =>
    have hbegins := hloop.pivots_prefix.length_le
    have hmiddle : middle.pivots.size = 0 := by
      simp only [Progress.mapTableau, Array.length_toList] at hbegins
      omega
    rw [hloop.tableau_eq (hsize.trans hmiddle.symm).le]
    exact ht.putBack_eq hphase hmiddle

/-- A solve that ends with an answer leaves a tableau on which the loop stops with this answer. -/
theorem SolveEnds.nextMove_eq (h : t.SolveEnds options last verdict) (htolerance : 0 ≤ t.tolerance)
    (hlimit : verdict ≠ .iterationLimit) (htime : verdict ≠ .timeLimit) :
    last.tableau.nextMove options.rule = .stop verdict := by
  cases h with
  | direct _ hloop => exact hloop.nextMove_eq hlimit htime
  | resumed _ _ _ hloop => exact hloop.nextMove_eq hlimit htime
  | @stopped reached _ _ _ hphase hverdict =>
    have hmove := hphase.nextMove_eq hlimit htime
    have hidle : t.idleEnd options = (reached, verdict) := hphase.iterate_eq (Nat.zero_add _)
    have hallows := reached.tableau.allows_nextMove options.rule
    rw [hmove] at hallows
    cases hallows with
    | optimal _ _ => exact absurd rfl hverdict
    | infeasible _ _ _ => exact nextMove_withObjective hmove _
    | unbounded _ _ hcost _ =>
      -- there is no reduced cost to improve while the objective is set aside
      have hzero := t.reducedCost_idleEnd options
      have hkept := (settings_eq_iff.mp (t.settings_idleEnd options)).2.2.1
      rw [hidle] at hzero hkept
      rw [hzero, hkept] at hcost
      linarith

/-- If the loop would stop at once, so does a solve, whatever its limits are. -/
theorem exists_solveEnds_of_stop (hmove : t.nextMove options.rule = .stop verdict) :
    ∃ last, t.SolveEnds options last verdict ∧ last.pivots.size = 0 := by
  by_cases hfeasible : t.isPrimalFeasible = true ∨ t.isDualFeasible = true
  · exact ⟨Progress.start t, .direct hfeasible (.stop hmove), rfl⟩
  · obtain ⟨hprimal, hdual⟩ := not_or.mp hfeasible
    have hrows : ¬∀ r ∈ t.rows, ¬r.rhs < -t.tolerance := by
      simpa [isPrimalFeasible] using hprimal
    have hallows := t.allows_nextMove options.rule
    rw [hmove] at hallows
    cases hallows with
    | optimal primal _ => exact absurd primal hrows
    | unbounded primal _ _ _ => exact absurd primal hrows
    | infeasible _ _ _ =>
      exact ⟨_, .stopped (Bool.eq_false_iff.mpr hprimal) (Bool.eq_false_iff.mpr hdual)
        (.stop (nextMove_withObjective hmove _)) (by simp), rfl⟩

/-- A solve gives the answer that it reports to any further solve by the same rule, without a pivot. -/
theorem Encodes.solve_again (ht : t.Encodes costs given) (htolerance : 0 ≤ t.tolerance)
    (hlimit : (t.solve options).1.status ≠ .iterationLimit)
    (htime : (t.solve options).1.status ≠ .timeLimit) (hrule : again.rule = options.rule) :
    ((t.solve options).2.solve again).1.status = (t.solve options).1.status ∧
      ((t.solve options).2.solve again).1.certificate = (t.solve options).1.certificate ∧
      ((t.solve options).2.solve again).1.iterations = 0 ∧
      ((t.solve options).2.solve again).2 = (t.solve options).2 := by
  obtain ⟨last, verdict, hends⟩ := t.exists_solveEnds options
  have hsolved : last.tableau.Encodes costs given := by
    have hencodes := ht.run htolerance options
    rwa [hends.run_eq] at hencodes
  rw [hends.solve_eq] at hlimit htime ⊢
  have hmove := hends.nextMove_eq htolerance (fun h => hlimit (congrArg Verdict.status h))
    (fun h => htime (congrArg Verdict.status h))
  rw [← hrule] at hmove
  obtain ⟨final, hagain, hsize⟩ := exists_solveEnds_of_stop hmove
  have hiterations := hagain.iterations_eq.trans hsize
  rw [hagain.solve_eq] at hiterations ⊢
  exact ⟨rfl, rfl, hiterations, hagain.tableau_eq hsolved hsize⟩

/-- After an optimal solve the tableau gives its solution, which is the one that the report stands for. -/
theorem solution_of_optimal (htolerance : 0 ≤ t.tolerance)
    (hoptimal : (t.solve options).1.status = .optimal) :
    ∃ solution, (t.solve options).2.solution = .ok solution ∧
      (t.solve options).2.extract (t.solve options).1 =
        { solution with iterations := (t.solve options).1.iterations } := by
  have hisOptimal : (t.solve options).2.isOptimal = true := by
    cases allows_optimal_of_solve htolerance hoptimal with
    | optimal primal dual =>
      have hprimal : (t.solve options).2.isPrimalFeasible = true := by
        simpa [isPrimalFeasible] using primal
      have hdual : (t.solve options).2.isDualFeasible = true := by simpa [isDualFeasible] using dual
      rw [isOptimal, hprimal, hdual, Bool.and_true]
  refine ⟨(t.solve options).2.readSolution 0, by rw [solution, if_pos hisOptimal], ?_⟩
  rw [extract, if_pos hoptimal]
  rfl

/-! ## Budgets in a row -/

/-- Without a pivot tolerance, a solve gives up only if its budget is used up. -/
theorem SolveEnds.full_of_exact (h : t.SolveEnds options last verdict)
    (ht : t.HasShape t.structuralCount t.rowCount) (hpivotTolerance : t.pivotTolerance = 0)
    (hverdict : verdict = .iterationLimit) : options.maxIterations ≤ last.pivots.size := by
  by_contra hroom
  obtain ⟨x, hx⟩ := List.exists_mem_of_ne_nil _ (h.rejected_ne_empty hverdict (not_le.mp hroom))
  obtain ⟨u, _, hresembles, kind, hrefused⟩ := h.refusals ht x (Array.mem_toList_iff.mp hx)
  obtain ⟨_, _, hsmall⟩ := hresembles.shape.dual_of_refuses hrefused
  rw [(settings_eq_iff.mp hresembles.settings).2.2.2, hpivotTolerance] at hsmall
  exact (abs_nonneg _).not_gt hsmall

/-- Without tolerances, a solve of a tableau that is feasible in one sense leaves it feasible in this
sense. -/
theorem SolveEnds.feasible_of_exact (h : t.SolveEnds options last verdict)
    (ht : t.dictionary.Canonical) (htolerance : t.tolerance = 0)
    (hpivotTolerance : t.pivotTolerance = 0)
    (hfeasible : t.isPrimalFeasible = true ∨ t.isDualFeasible = true) :
    last.tableau.isPrimalFeasible = true ∨ last.tableau.isDualFeasible = true := by
  have hlast : ((Progress.start t).iterate options.rule options.deadline options.maxIterations) =
      (last, verdict) := by
    rw [← run_of_feasible hfeasible, h.run_eq]
  rcases hfeasible with hprimal | hdual
  · have hexact := ExactlyFeasible.of_isPrimalFeasible ht htolerance hpivotTolerance hprimal
    obtain ⟨_, _, hruns, _⟩ := ExactlyFeasible.iterate (p := Progress.start t) hexact options.rule
      options.deadline options.maxIterations
    rw [hlast] at hruns
    exact .inl (hruns.feasible _ hruns.last_mem)
  · have hexact := ExactlyPriced.of_isDualFeasible ht htolerance hpivotTolerance hdual
    obtain ⟨_, _, hruns, _⟩ := ExactlyPriced.iterate (p := Progress.start t) hexact options.rule
      options.deadline options.maxIterations
    rw [hlast] at hruns
    exact .inr (hruns.feasible _ hruns.last_mem)

/-- Without tolerances and without a deadline, two solves of a tableau that is feasible in one sense do
what one solve with both budgets does. -/
theorem Encodes.solve_in_parts (ht : t.Encodes costs given)
    (hshape : t.HasShape t.structuralCount t.rowCount) (htolerance : t.tolerance = 0)
    (hpivotTolerance : t.pivotTolerance = 0)
    (hfeasible : t.isPrimalFeasible = true ∨ t.isDualFeasible = true)
    (hopen : ∀ pivots, options.deadline.isOver pivots = false) (k m : ℕ) :
    let first := t.solve { options with maxIterations := k }
    let second := first.2.solve { options with maxIterations := m }
    let whole := t.solve { options with maxIterations := k + m }
    second.2 = whole.2 ∧ second.1.status = whole.1.status ∧
      whole.1.pivots = first.1.pivots ++ second.1.pivots ∧
      whole.1.iterations = first.1.iterations + second.1.iterations := by
  intro first second whole
  obtain ⟨last, verdict, hfirst⟩ := t.exists_solveEnds { options with maxIterations := k }
  obtain ⟨final, finalVerdict, hsecond⟩ :=
    last.tableau.exists_solveEnds { options with maxIterations := m }
  have hstays := hfirst.feasible_of_exact ht.canonical htolerance hpivotTolerance hfeasible
  have hfull := hfirst.full_of_exact hshape hpivotTolerance
  have hwhole := hfirst.resume hopen hfeasible hstays hfull hsecond
  have hfirstEq : first = (.ofRun last verdict, last.tableau) := hfirst.solve_eq
  have hsecondEq : second = (.ofRun final finalVerdict, final.tableau) := by
    rw [← hsecond.solve_eq]
    exact congrArg (fun r : Report ℚ × Tableau ℚ => r.2.solve _) hfirstEq
  have hwholeEq : whole = (.ofRun (final.after last) finalVerdict, final.tableau) := hwhole.solve_eq
  have hpivots : whole.1.pivots = first.1.pivots ++ second.1.pivots := by
    rw [hwholeEq, hfirstEq, hsecondEq]
    exact Array.toList_append
  refine ⟨?_, ?_, hpivots, ?_⟩
  · rw [hsecondEq, hwholeEq]
  · rw [hsecondEq, hwholeEq]
    rfl
  · rw [Report.iterations, hpivots, List.length_append]
    rfl

end Tableau

/-- A session starts at a tableau that was built. -/
theorem Origin.isInitial {o : Origin} {t : Tableau ℚ} (ht : o.tableau = .ok t) : t.IsInitial := by
  cases o with
  | matrix a b c => exact .inl ⟨a, b, c, ht⟩
  | program p => exact .inr ⟨p, ht⟩

/-- A solve without a pivot leaves the tableau as it is. An answer is given again, without a pivot, by
every further solve with the same rule, and the solution of an optimum can be read off the tableau.
Without tolerances and from a tableau that is feasible in one sense, a solve that is cut short goes on
as if it had not been. -/
theorem Origin.solve_again_and_resume {o : Origin} {t : Tableau ℚ} (ht : o.tableau = .ok t)
    {history : List (Edit ℚ)} (hcareful : t.Careful history) :
    let reached := t.afterEdits history
    (∀ options : SolveOptions,
        let report := (reached.solve options).1
        let solved := (reached.solve options).2
        (report.iterations = 0 → solved = reached) ∧
          (report.status ≠ .iterationLimit → report.status ≠ .timeLimit →
            ∀ again : SolveOptions, again.rule = options.rule →
              (solved.solve again).1.status = report.status ∧
                (solved.solve again).1.certificate = report.certificate ∧
                (solved.solve again).1.iterations = 0 ∧ (solved.solve again).2 = solved) ∧
          (report.status = .optimal →
            ∃ solution, solved.solution = .ok solution ∧
              solved.extract report = { solution with iterations := report.iterations })) ∧
      (reached.tolerance = 0 → reached.pivotTolerance = 0 →
        reached.isPrimalFeasible = true ∨ reached.isDualFeasible = true →
          ∀ options : SolveOptions, (∀ pivots, options.deadline.isOver pivots = false) → ∀ k m,
            let first := reached.solve { options with maxIterations := k }
            let second := first.2.solve { options with maxIterations := m }
            let whole := reached.solve { options with maxIterations := k + m }
            second.2 = whole.2 ∧ second.1.status = whole.1.status ∧
              whole.1.pivots = first.1.pivots ++ second.1.pivots ∧
              whole.1.iterations = first.1.iterations + second.1.iterations) := by
  intro reached
  obtain ⟨hencodes, hnonneg⟩ := Origin.encodes_of_pivotsOffZero ht hcareful.tolerance hcareful.offZero
  obtain ⟨n, k, hstart⟩ := (Origin.isInitial ht).hasShape
  obtain ⟨m, hshape⟩ := (hstart.afterEdits history).shape
  refine ⟨fun options => ⟨fun hidle => ?_, fun hlimit htime again hrule => ?_, fun hoptimal => ?_⟩,
    fun htolerance hpivotTolerance hfeasible options hopen k m => ?_⟩
  · obtain ⟨last, verdict, hends⟩ := reached.exists_solveEnds options
    rw [hends.iterations_eq] at hidle
    rw [hends.solve_eq]
    exact hends.tableau_eq hencodes hidle
  · exact hencodes.solve_again hnonneg hlimit htime hrule
  · exact Tableau.solution_of_optimal hnonneg hoptimal
  · exact hencodes.solve_in_parts hshape.self htolerance hpivotTolerance hfeasible hopen k m

/-- A program solved in parts from its slack basis, and cut so that nothing is left, which a further
solve finds again with no budget at all. -/
theorem solve_again_after_cut :
    let o : Origin := .matrix [[1, 1], [1, -1]] [4, 2] [2, 1]
    let t := o.start.slackTableau
    let history : List (Edit ℚ) := [.setTolerances (some 0) (some 0)]
    let cut : List (Edit ℚ) := [.setTolerances (some 0) (some 0), .appendRow [-1, -1] (-5)]
    o.tableau = .ok t ∧ t.Careful history ∧ t.Careful cut ∧
      ((t.afterEdits history).solve {}).1.status = .optimal ∧
      (∃ solution, ((t.afterEdits history).solve {}).2.solution = .ok solution) ∧
      ((t.afterEdits history).solve { maxIterations := 1 }).1.iterations = 1 ∧
      (((t.afterEdits history).solve { maxIterations := 1 }).2.solve { maxIterations := 3 }).2 =
        ((t.afterEdits history).solve { maxIterations := 1 + 3 }).2 ∧
      ((t.afterEdits cut).solve {}).1.status = .infeasible ∧
      ((t.afterEdits cut).solve {}).1.iterations = 2 ∧
      (((t.afterEdits cut).solve {}).2.solve { maxIterations := 0 }).1.status =
        ((t.afterEdits cut).solve {}).1.status ∧
      (((t.afterEdits cut).solve {}).2.solve { maxIterations := 0 }).2 =
        ((t.afterEdits cut).solve {}).2 := by
  intro o t history cut
  have ht : o.tableau = .ok t := by with_unfolding_all rfl
  have hhistory : t.Careful history := ⟨by simp [history, Edit.SetsNonneg], trivial, trivial⟩
  have hcut : t.Careful cut := ⟨by simp [cut, Edit.SetsNonneg], trivial, trivial, trivial⟩
  have hoptimal : ((t.afterEdits history).solve {}).1.status = .optimal := by decide +kernel
  have hinfeasible : ((t.afterEdits cut).solve {}).1.status = .infeasible := by decide +kernel
  have hfeasible : (t.afterEdits history).isPrimalFeasible = true := by decide +kernel
  obtain ⟨hagain, hparts⟩ := Origin.solve_again_and_resume ht hhistory
  obtain ⟨hagainCut, _⟩ := Origin.solve_again_and_resume ht hcut
  obtain ⟨_, _, hsolution⟩ := hagain {}
  obtain ⟨solution, hread, _⟩ := hsolution hoptimal
  obtain ⟨htableau, _⟩ := hparts (by decide +kernel) (by decide +kernel) (.inl hfeasible) {}
    (fun _ => rfl) 1 3
  obtain ⟨_, hanswer, _⟩ := hagainCut {}
  obtain ⟨hstatus, _, _, hsame⟩ := hanswer (by rw [hinfeasible]; decide)
    (by rw [hinfeasible]; decide) { maxIterations := 0 } rfl
  exact ⟨ht, hhistory, hcut, hoptimal, ⟨solution, hread⟩, by decide +kernel, htableau, hinfeasible,
    by decide +kernel, hstatus, hsame⟩

end WarmSimplex
