import WarmSimplex.Proofs.Run

/-!
# How a solve ends

The loop of the solver, told without a budget that runs down. It makes a pivot as long as there is one
to make, fewer pivots than the limit were noted, and the time is not over. A solve is this loop, or the
loop against a zero objective and, if that ends well, the loop once more, under the same limit for both.

So told, the loop might go on for ever. It does not: it ends in exactly one way, which is what the
solver computes. Why a pivot is offered or refused does not matter for that.
-/

namespace WarmSimplex

variable {α : Type} [Scalar α]

/-! ## The loop -/

section Loop

variable {rule : EnteringRule} {deadline : Deadline} {limit budget : ℕ}
variable {p last : Progress α} {verdict : Verdict α}

/-- The loop ends with the progress and the verdict, under a limit for the number of all pivots noted. The
limits are looked at only if there is a pivot to make. -/
inductive Progress.Ends (rule : EnteringRule) (deadline : Deadline) (limit : ℕ) :
    Progress α → Progress α → Verdict α → Prop
  | stop {p : Progress α} {verdict : Verdict α} (hmove : p.tableau.nextMove rule = .stop verdict) :
      Ends rule deadline limit p p verdict
  | exhausted {p : Progress α} {kind : PivotKind} {row : ℕ} {columns : List ℕ}
      (hmove : p.tableau.nextMove rule = .pivot kind row columns) (hlimit : limit ≤ p.pivots.size) :
      Ends rule deadline limit p p .iterationLimit
  | late {p : Progress α} {kind : PivotKind} {row : ℕ} {columns : List ℕ}
      (hmove : p.tableau.nextMove rule = .pivot kind row columns) (hroom : p.pivots.size < limit)
      (hover : deadline.isOver p.pivots.size = true) : Ends rule deadline limit p p .timeLimit
  | refused {p : Progress α} {kind : PivotKind} {row : ℕ} {columns : List ℕ}
      {rejected : List (RejectedPivot α)} (hmove : p.tableau.nextMove rule = .pivot kind row columns)
      (hroom : p.pivots.size < limit) (hopen : deadline.isOver p.pivots.size = false)
      (hfirst : p.tableau.pivotFirst row columns = (rejected, none)) :
      Ends rule deadline limit p (p.reject rejected) .iterationLimit
  | pivot {p last : Progress α} {kind : PivotKind} {row column : ℕ} {columns : List ℕ}
      {rejected : List (RejectedPivot α)} {next : Tableau α} {verdict : Verdict α}
      (hmove : p.tableau.nextMove rule = .pivot kind row columns) (hroom : p.pivots.size < limit)
      (hopen : deadline.isOver p.pivots.size = false)
      (hfirst : p.tableau.pivotFirst row columns = (rejected, some (column, next)))
      (hrest : Ends rule deadline limit ((p.reject rejected).advance ⟨kind, row, column⟩ next) last
        verdict) :
      Ends rule deadline limit p last verdict

namespace Progress

/-- The loop with a budget ends as the loop under the limit that the budget leaves room for. -/
theorem ends_iterate (rule : EnteringRule) (deadline : Deadline) (budget : ℕ) (p : Progress α) :
    p.Ends rule deadline (p.pivots.size + budget) (p.iterate rule deadline budget).1
      (p.iterate rule deadline budget).2 := by
  induction budget generalizing p with
  | zero =>
    unfold iterate
    cases hmove : p.tableau.nextMove rule with
    | stop verdict => exact .stop hmove
    | pivot kind row columns => exact .exhausted hmove le_rfl
  | succ budget ih =>
    have hroom : p.pivots.size < p.pivots.size + (budget + 1) := Nat.lt_add_of_pos_right budget.succ_pos
    unfold iterate
    cases hmove : p.tableau.nextMove rule with
    | stop verdict => exact .stop hmove
    | pivot kind row columns =>
      dsimp only
      split
      · rename_i hover
        exact .late hmove hroom hover
      · rename_i hopen
        have hopen := Bool.eq_false_iff.mpr hopen
        split
        · rename_i hfirst
          exact .refused hmove hroom hopen hfirst
        · rename_i rejected column next hfirst
          have hrest := ih ((p.reject rejected).advance ⟨kind, row, column⟩ next)
          have hsize : ((p.reject rejected).advance ⟨kind, row, column⟩ next).pivots.size =
              p.pivots.size + 1 := Array.size_push _
          rw [hsize, Nat.add_assoc, Nat.add_comm 1 budget] at hrest
          exact .pivot hmove hroom hopen hfirst hrest

namespace Ends

/-- The loop ends as computed with the budget that is left under the limit. -/
theorem iterate_eq (h : p.Ends rule deadline limit last verdict)
    (hbudget : p.pivots.size + budget = limit) : p.iterate rule deadline budget = (last, verdict) := by
  induction h generalizing budget with
  | stop hmove =>
    unfold iterate
    simp only [hmove]
  | exhausted hmove hlimit =>
    obtain rfl : budget = 0 := by omega
    unfold iterate
    simp only [hmove]
  | late hmove hroom hover =>
    obtain ⟨rest, rfl⟩ : ∃ rest, budget = rest + 1 := ⟨budget - 1, by omega⟩
    unfold iterate
    simp only [hmove, hover, if_true]
  | refused hmove hroom hopen hfirst =>
    obtain ⟨rest, rfl⟩ : ∃ rest, budget = rest + 1 := ⟨budget - 1, by omega⟩
    unfold iterate
    simp only [hmove, hopen, Bool.false_eq_true, if_false, hfirst]
  | pivot hmove hroom hopen hfirst hrest ih =>
    obtain ⟨rest, rfl⟩ : ∃ rest, budget = rest + 1 := ⟨budget - 1, by omega⟩
    unfold iterate
    simp only [hmove, hopen, Bool.false_eq_true, if_false, hfirst]
    apply ih
    simp only [advance, reject, Array.size_push]
    omega

/-- The loop goes no further than the limit. -/
theorem size_le (h : p.Ends rule deadline limit last verdict) (hp : p.pivots.size ≤ limit) :
    last.pivots.size ≤ limit := by
  induction h with
  | stop _ => exact hp
  | exhausted _ _ => exact hp
  | late _ _ _ => exact hp
  | refused _ _ _ _ => exact hp
  | pivot _ hroom _ _ _ ih =>
    apply ih
    rw [advance, reject, Array.size_push]
    exact hroom

/-- The loop notes its pivots after those that are noted already. -/
theorem pivots_prefix (h : p.Ends rule deadline limit last verdict) :
    p.pivots.toList <+: last.pivots.toList := by
  induction h with
  | stop _ => exact List.prefix_rfl
  | exhausted _ _ => exact List.prefix_rfl
  | late _ _ _ => exact List.prefix_rfl
  | refused _ _ _ _ => exact List.prefix_rfl
  | pivot _ _ _ _ _ ih =>
    rw [advance, reject, Array.toList_push] at ih
    exact (List.prefix_append _ _).trans ih

end Ends

/-- Below the limit the loop comes to an end. -/
theorem exists_ends (rule : EnteringRule) (deadline : Deadline) (hp : p.pivots.size ≤ limit) :
    ∃ last verdict, p.Ends rule deadline limit last verdict := by
  have hends := p.ends_iterate rule deadline (limit - p.pivots.size)
  rw [Nat.add_sub_cancel' hp] at hends
  exact ⟨_, _, hends⟩

end Progress

end Loop

/-! ## The solve -/

namespace Tableau

variable {t : Tableau α} {options : SolveOptions} {last : Progress α} {verdict : Verdict α}

/-- The tableau that was reached while the objective was set aside, with the objective back in terms of
its basis. -/
def putBack (t reached : Tableau α) : Tableau α := (reached.withObjective t.objective).reprice

/-- A solve ends with the progress and the verdict. One limit holds for the pivots of both phases. -/
inductive SolveEnds (t : Tableau α) (options : SolveOptions) : Progress α → Verdict α → Prop
  | direct {last : Progress α} {verdict : Verdict α}
      (hfeasible : t.isPrimalFeasible = true ∨ t.isDualFeasible = true)
      (hloop : (Progress.start t).Ends options.rule options.deadline options.maxIterations last verdict) :
      SolveEnds t options last verdict
  | stopped {last : Progress α} {verdict : Verdict α} (hprimal : t.isPrimalFeasible = false)
      (hdual : t.isDualFeasible = false)
      (hphase : (Progress.start (t.withObjective (Equation.zero t.columnCount))).Ends options.rule
        options.deadline options.maxIterations last verdict)
      (hverdict : verdict ≠ .optimal) : SolveEnds t options (last.mapTableau t.putBack) verdict
  | resumed {middle last : Progress α} {verdict : Verdict α} (hprimal : t.isPrimalFeasible = false)
      (hdual : t.isDualFeasible = false)
      (hphase : (Progress.start (t.withObjective (Equation.zero t.columnCount))).Ends options.rule
        options.deadline options.maxIterations middle .optimal)
      (hloop : (middle.mapTableau t.putBack).Ends options.rule options.deadline options.maxIterations
        last verdict) : SolveEnds t options last verdict

/-- The feasibility phase ends as its loop does, with the objective put back. -/
theorem restoreFeasibility_of_ends
    (hphase : (Progress.start (t.withObjective (Equation.zero t.columnCount))).Ends options.rule
      options.deadline options.maxIterations last verdict) :
    t.restoreFeasibility options = (last.mapTableau t.putBack, verdict) := by
  have hidle : t.idleEnd options = (last, verdict) := hphase.iterate_eq (Nat.zero_add _)
  rw [restoreFeasibility_eq, hidle]
  rfl

/-- A solve of a tableau that is feasible in one sense is the loop alone. -/
theorem SolveEnds.loop (h : t.SolveEnds options last verdict)
    (hfeasible : t.isPrimalFeasible = true ∨ t.isDualFeasible = true) :
    (Progress.start t).Ends options.rule options.deadline options.maxIterations last verdict := by
  cases h with
  | direct _ hloop => exact hloop
  | stopped hprimal hdual _ _ => simp [hprimal, hdual] at hfeasible
  | resumed hprimal hdual _ _ => simp [hprimal, hdual] at hfeasible

/-- A solve ends as computed. -/
theorem SolveEnds.run_eq (h : t.SolveEnds options last verdict) : t.run options = (last, verdict) := by
  cases h with
  | direct hfeasible hloop =>
    rw [run_of_feasible hfeasible]
    exact hloop.iterate_eq (Nat.zero_add _)
  | stopped hprimal hdual hphase hverdict =>
    have hrestored := restoreFeasibility_of_ends hphase
    rw [(run_of_infeasible hprimal hdual options).2 (by rwa [hrestored]), hrestored]
  | resumed hprimal hdual hphase hloop =>
    have hrestored := restoreFeasibility_of_ends hphase
    rw [(run_of_infeasible hprimal hdual options).1 (by rw [hrestored]), hrestored]
    exact hloop.iterate_eq (Nat.add_sub_cancel' (hphase.size_le (Nat.zero_le _)))

/-- A solve reports how it ends, and hands back the tableau that it ends with. -/
theorem SolveEnds.solve_eq (h : t.SolveEnds options last verdict) :
    t.solve options = (.ofRun last verdict, last.tableau) := by
  rw [solve, h.run_eq]

/-- A solve reports the pivots that it notes. -/
theorem SolveEnds.pivots_eq (h : t.SolveEnds options last verdict) :
    (t.solve options).1.pivots = last.pivots.toList := by
  rw [h.solve_eq]
  rfl

/-- A solve makes as many iterations as it notes pivots. -/
theorem SolveEnds.iterations_eq (h : t.SolveEnds options last verdict) :
    (t.solve options).1.iterations = last.pivots.size := by
  rw [Report.iterations, h.pivots_eq, Array.length_toList]

/-- A solve reports the status of its verdict. -/
theorem SolveEnds.status_eq (h : t.SolveEnds options last verdict) :
    (t.solve options).1.status = verdict.status := by
  rw [h.solve_eq]
  rfl

/-- A solve goes no further than its budget. -/
theorem SolveEnds.size_le (h : t.SolveEnds options last verdict) :
    last.pivots.size ≤ options.maxIterations := by
  cases h with
  | direct _ hloop => exact hloop.size_le (Nat.zero_le _)
  | stopped _ _ hphase _ => exact hphase.size_le (Nat.zero_le _)
  | resumed _ _ hphase hloop => exact hloop.size_le (hphase.size_le (Nat.zero_le _))

/-- A solve comes to an end. -/
theorem exists_solveEnds (t : Tableau α) (options : SolveOptions) :
    ∃ last verdict, t.SolveEnds options last verdict := by
  by_cases hfeasible : t.isPrimalFeasible = true ∨ t.isDualFeasible = true
  · obtain ⟨last, verdict, hloop⟩ := Progress.exists_ends (p := Progress.start t) options.rule
      options.deadline (Nat.zero_le options.maxIterations)
    exact ⟨last, verdict, .direct hfeasible hloop⟩
  · obtain ⟨hprimal, hdual⟩ := not_or.mp hfeasible
    have hprimal := Bool.eq_false_iff.mpr hprimal
    have hdual := Bool.eq_false_iff.mpr hdual
    obtain ⟨middle, phaseVerdict, hphase⟩ := Progress.exists_ends
      (p := Progress.start (t.withObjective (Equation.zero t.columnCount))) options.rule
      options.deadline (Nat.zero_le options.maxIterations)
    by_cases hverdict : phaseVerdict = .optimal
    · subst hverdict
      obtain ⟨last, verdict, hloop⟩ := Progress.exists_ends (p := middle.mapTableau t.putBack)
        options.rule options.deadline (hphase.size_le (Nat.zero_le _))
      exact ⟨last, verdict, .resumed hprimal hdual hphase hloop⟩
    · exact ⟨_, phaseVerdict, .stopped hprimal hdual hphase hverdict⟩

/-- A solve ends in one way only, which is the one that is computed. -/
theorem solveEnds_iff : t.SolveEnds options last verdict ↔ t.run options = (last, verdict) := by
  refine ⟨SolveEnds.run_eq, fun hrun => ?_⟩
  obtain ⟨final, found, hends⟩ := t.exists_solveEnds options
  cases hends.run_eq.symm.trans hrun
  exact hends

end Tableau

end WarmSimplex
