import WarmSimplex.Proofs.TwoPhase.FirstPhase

/-!
# Full resolves

The second phase starts from a workspace that poses the program with a feasible basis, and so does
everything it reaches. Where it ends, the signs say whether the basic point is an optimum or a ray
of feasible points leads past any gain. With what the first phase finds, every answer of a resolve
is right, for coefficient lists of any length and any signs of the right-hand sides.

That a resolve comes to an answer is not shown here: with few pivots allowed it need not.
-/

namespace WarmSimplex

namespace TwoPhase.Workspace

variable {w : Workspace ℚ} {p : LinearProgram ℚ}

/-- The values are those of the basic point. -/
theorem values_eq (hw : w.dictionary.Canonical) :
    w.values = valuesOf w.variableCount w.dictionary.basicPoint := by
  have hnodup : (w.rows.map (·.basic)).Nodup := hw.solved.nodup
  apply List.map_congr_left
  intro column _
  have hfind : w.dictionary.rows.find? (·.basic == column) =
      w.rows.find? (·.basic == column) := rfl
  rw [find?_reverse_key hnodup, Dictionary.basicPoint, hfind]
  cases w.rows.find? (·.basic == column) <;> rfl

namespace Ready

/-- Pivots on columns that are not artificial leave the workspace ready. -/
theorem runPhase (hw : w.Ready p) (budget : ℕ) :
    (w.runPhase 0 w.artificialStart budget).1.Ready p := by
  have hreached := rewrites_runPhase hw.canonical hw.nonneg w.artificialStart budget
  refine ⟨hreached.canonical, hreached.nonneg, ?_, ?_, fun v hv => ?_⟩
  · rw [hreached.artificialStart]
    exact basic_lt_runPhase hw.basic budget
  · exact hw.poses.congr hreached.variableCount hreached.artificialStart
      fun v _ => hreached.holds_iff v
  · have hstart := (hreached.holds_iff v).mp hv
    rw [hreached.gap v hstart, hw.gap v hstart]

/-- A column outside the basis has value zero on a ray along another one. -/
theorem stands_along (hw : w.Ready p) {column : ℕ} (hcolumn : column < w.artificialStart)
    {step : ℚ} (hholds : w.dictionary.Holds (w.dictionary.along column step))
    (hnonneg : ∀ j, 0 ≤ w.dictionary.along column step j) :
    w.Stands (w.dictionary.along column step) := by
  refine ⟨hnonneg, fun j hj => ?_, hholds⟩
  have hnonbasic : ∀ r ∈ w.dictionary.rows, r.basic ≠ j :=
    fun r hr => ((hw.basic r hr).trans_le hj).ne
  rw [Dictionary.along_nonbasic hnonbasic, if_neg (hcolumn.trans_le hj).ne']

/-- The basic point stands for a feasible point. -/
theorem stands_basicPoint (hw : w.Ready p) : w.Stands w.dictionary.basicPoint :=
  ⟨Dictionary.le_basicPoint le_rfl hw.nonneg,
    fun _ hj => Dictionary.basicPoint_nonbasic fun r hr => ((hw.basic r hr).trans_le hj).ne,
    Dictionary.holds_basicPoint hw.canonical⟩

/-- Without a negative reduced cost outside the artificial columns, the values are an optimum. -/
theorem isOptimal (hw : w.Ready p)
    (hcosts : ∀ j < w.artificialStart, 0 ≤ w.objective.coefficient j) : p.IsOptimal w.values := by
  have hvalues : w.values = valuesOf p.variableCount w.dictionary.basicPoint := by
    rw [values_eq hw.canonical, hw.poses.variableCount]
  rw [hvalues]
  refine ⟨hw.poses.feasible _ hw.stands_basicPoint, fun y hy => ?_⟩
  obtain ⟨v, hv, rfl⟩ := hw.poses.complete y hy
  calc p.gain (valuesOf p.variableCount v) = w.objective.gap v := (hw.gap v hv.holds).symm
    _ ≤ w.objective.rhs := Dictionary.gap_le_rhs (d := w.dictionary) hcosts hv.nonneg hv.artificial
    _ = w.objective.gap w.dictionary.basicPoint := (Dictionary.gap_basicPoint hw.canonical).symm
    _ = p.gain (valuesOf p.variableCount w.dictionary.basicPoint) :=
      hw.gap _ (Dictionary.holds_basicPoint hw.canonical)

/-- A column of negative reduced cost along which no basic column falls leads past any gain. -/
theorem isUnbounded (hw : w.Ready p) {column : ℕ} (hcolumn : column < w.artificialStart)
    (hcost : w.objective.coefficient column < 0) (hfall : ∀ r ∈ w.rows, r.coefficient column ≤ 0) :
    p.IsUnbounded := by
  refine ⟨⟨_, hw.poses.feasible _ hw.stands_basicPoint⟩, fun bound => ?_⟩
  obtain ⟨step, hholds, hnonneg, hpast⟩ :=
    Dictionary.exists_ray hw.canonical hw.nonneg hcost hfall bound
  refine ⟨_, hw.poses.feasible _ (hw.stands_along hcolumn hholds hnonneg), ?_⟩
  rw [← hw.gap _ hholds]
  exact hpast

/-- The second phase answers truly. -/
theorem secondPhase (hw : w.Ready p) (maxIterations : ℕ) :
    p.Answers (w.secondPhase ⟨maxIterations, 0⟩).1.values
      (w.secondPhase ⟨maxIterations, 0⟩).2 := by
  have hreached := hw.runPhase maxIterations
  have hstart : (w.runPhase 0 w.artificialStart maxIterations).1.artificialStart =
      w.artificialStart :=
    (rewrites_runPhase hw.canonical hw.nonneg w.artificialStart maxIterations).artificialStart
  unfold Workspace.secondPhase
  split
  · rename_i reached hend
    obtain rfl : (w.runPhase 0 w.artificialStart maxIterations).1 = reached :=
      congrArg Prod.fst hend
    exact hreached.isOptimal fun j hj =>
      runPhase_optimal (congrArg Prod.snd hend) j (hj.trans_eq hstart)
  · rename_i reached hend
    obtain rfl : (w.runPhase 0 w.artificialStart maxIterations).1 = reached :=
      congrArg Prod.fst hend
    obtain ⟨column, hcolumn, hcost, hfall⟩ := runPhase_unbounded (congrArg Prod.snd hend)
    exact hreached.isUnbounded (hcolumn.trans_eq hstart.symm) hcost hfall
  · trivial

end Ready

/-- A run from the first workspace answers truly. -/
theorem answers_run (p : LinearProgram ℚ) (maxIterations : ℕ) :
    p.Answers ((ofProgram p).run ⟨maxIterations, 0⟩).1.values
      ((ofProgram p).run ⟨maxIterations, 0⟩).2 := by
  unfold Workspace.run
  split
  · obtain ⟨hstopped, hready⟩ := (raw_ofProgram p).firstPhase maxIterations
    split
    · rename_i reached status hend
      exact hstopped status (congrArg Prod.snd hend) reached.values
    · rename_i reached hend
      rw [hend] at hready
      exact (hready rfl).secondPhase maxIterations
  · rename_i hno
    exact (ready_ofProgram (not_lt.mp hno)).secondPhase maxIterations

end TwoPhase.Workspace

namespace LinearProgram

/-- A resolve answers truly, and an optimal one reports the objective at its values. -/
theorem answers_resolve (p : LinearProgram ℚ) (maxIterations : ℕ) :
    p.Answers (p.resolve ⟨maxIterations, 0⟩).values (p.resolve ⟨maxIterations, 0⟩).status ∧
      ((p.resolve ⟨maxIterations, 0⟩).status = .optimal →
        (p.resolve ⟨maxIterations, 0⟩).objectiveValue =
          .attained (p.evaluate (p.resolve ⟨maxIterations, 0⟩).values)) := by
  have hrun := TwoPhase.Workspace.answers_run p maxIterations
  unfold resolve
  split
  · rename_i w hend
    rw [hend] at hrun
    exact ⟨hrun, fun _ => rfl⟩
  · rename_i w status hstopped hend
    rw [hend] at hrun
    refine ⟨?_, fun hoptimal => absurd hoptimal hstopped⟩
    cases status with
    | optimal => exact absurd rfl hstopped
    | infeasible => exact hrun
    | unbounded => exact hrun
    | iterationLimit => trivial
    | timeLimit => trivial

/-- Without a tolerance, a resolve that ends optimal has values without violations that no feasible
point beats, one that ends infeasible shows that there is no feasible point, and one that ends
unbounded that there are feasible points of any gain. -/
theorem resolve_correct (p : LinearProgram ℚ) (maxIterations : ℕ) :
    let outcome := p.resolve ⟨maxIterations, 0⟩
    (outcome.status = .optimal →
      outcome.values.length = p.variableCount ∧ p.violations outcome.values 0 = [] ∧
        outcome.objectiveValue = .attained (p.evaluate outcome.values) ∧
        p.IsOptimal outcome.values) ∧
      (outcome.status = .infeasible → p.IsInfeasible) ∧
      (outcome.status = .unbounded → p.IsUnbounded) := by
  intro outcome
  obtain ⟨hanswers, hvalue⟩ := p.answers_resolve maxIterations
  refine ⟨fun hstatus => ?_, fun hstatus => ?_, fun hstatus => ?_⟩
  · have hbest : p.IsOptimal outcome.values := by
      rw [hstatus] at hanswers
      exact hanswers
    exact ⟨hbest.feasible.length, hbest.feasible.violations_eq_nil, hvalue hstatus, hbest⟩
  · rw [hstatus] at hanswers
    exact hanswers
  · rw [hstatus] at hanswers
    exact hanswers

end LinearProgram

end WarmSimplex
