import WarmSimplex.Proofs.Answer
import WarmSimplex.Proofs.Session

/-!
# What a verdict says about the program

A tableau that represents a program speaks about it through its signs. Reduced costs bound the gain
of every feasible point, up to the tolerance. Without a tolerance, a row that cannot be met shows
that no point is feasible, and a column that nothing bounds gives feasible points of any gain.

With a tolerance the last two need not hold: a verdict of infeasibility then only says that the
program is infeasible or nearly so.
-/

namespace WarmSimplex

namespace Tableau

namespace Represents

variable {t : Tableau ℚ} {p : LinearProgram ℚ}

/-- A vector that solves the rows solves the constraints of the program. -/
theorem slackForm (ht : t.Represents p) {v : ℕ → ℚ} (hv : t.Holds v) :
    SlackForm p.variableCount (storedForms p.constraints) v := by
  rw [← ht.structural]
  exact (ht.encodes.holds_iff v).mp hv

/-- A feasible point and its slacks solve the rows. -/
theorem holds_withSlacks (ht : t.Represents p) {x : List ℚ} (hx : p.Feasible x) :
    t.Holds (withSlacks (storedForms p.constraints) x) := by
  have hform := hx.slackForm ht.width
  rw [← ht.structural] at hform
  exact (ht.encodes.holds_iff _).mpr hform

/-- The objective row gives the gain of the values of a vector that solves the rows. -/
theorem gain_valuesOf (ht : t.Represents p) {v : ℕ → ℚ} (hv : t.Holds v) :
    p.gain (valuesOf p.variableCount v) = t.objective.gap v := by
  rw [ht.encodes.gap v hv]
  exact LinearProgram.gain_eq_costAt ht.objective fun j hj => (getD_valuesOf v hj).symm

/-- The basic point solves the rows. -/
theorem holds_basicPoint (ht : t.Represents p) : t.Holds t.dictionary.basicPoint :=
  holds_dictionary.mp (Dictionary.holds_basicPoint ht.encodes.canonical)

/-- The gain at the basic point is the objective value. -/
theorem gain_basicPoint (ht : t.Represents p) :
    p.gain (valuesOf p.variableCount t.dictionary.basicPoint) = t.objectiveValue := by
  rw [ht.gain_valuesOf ht.holds_basicPoint]
  exact Dictionary.gap_basicPoint ht.encodes.canonical

/-- Reduced costs that are not below zero by more than a tolerance bound the gain of every feasible
point by the objective value and the tolerance for each unit of a variable or a slack. -/
theorem gain_le (ht : t.Represents p) {tolerance : ℚ} (hdual : ∀ d ∈ t.reducedCosts, -tolerance ≤ d)
    {y : List ℚ} (hy : p.Feasible y) :
    p.gain y ≤
      t.objectiveValue + tolerance * (y.sum + (p.constraints.map (·.slack y)).sum) := by
  have hgain : p.gain y = t.objective.gap (withSlacks (storedForms p.constraints) y) := by
    rw [hy.gain_eq_costAt ht.objective, ht.encodes.gap _ (ht.holds_withSlacks hy)]
  have hcolumns : t.objective.coefficients.length =
      y.length + (storedForms p.constraints).length := by
    rw [hy.length, ← ht.structural]
    exact ht.encodes.columns
  have hlower := Equation.mul_sum_le_eval hdual fun j _ => hy.withSlacks_nonneg j
  rw [hcolumns, sum_withSlacks, sum_room_storedForms hy.satisfied] at hlower
  rw [hgain, Equation.gap, objectiveValue]
  linarith

/-- Without a tolerance, the basic point of an optimal tableau is an optimum. -/
theorem isOptimal (ht : t.Represents p) (hexact : t.tolerance = 0)
    (hallows : t.Allows (.stop .optimal)) :
    p.IsOptimal (valuesOf p.variableCount t.dictionary.basicPoint) := by
  cases hallows with
  | optimal hprimal hdual =>
    rw [hexact, neg_zero] at hprimal hdual
    have hnonneg : ∀ j, 0 ≤ t.dictionary.basicPoint j :=
      Dictionary.le_basicPoint le_rfl
        (forall_mem_dictionary_rows.mpr fun r hr => not_lt.mp (hprimal r hr))
    refine ⟨LinearProgram.feasible_valuesOf ht.width (ht.slackForm ht.holds_basicPoint) hnonneg,
      fun y hy => ?_⟩
    have hdual : ∀ d ∈ t.reducedCosts, -(0 : ℚ) ≤ d := fun d hd => by
      rw [neg_zero]
      exact not_lt.mp (hdual d hd)
    have hbest := ht.gain_le hdual hy
    rwa [zero_mul, add_zero, ← ht.gain_basicPoint] at hbest

/-- Without a tolerance, a row that cannot be met shows that no point is feasible. -/
theorem isInfeasible (ht : t.Represents p) (hexact : t.tolerance = 0) {certificate : Certificate ℚ}
    (hallows : t.Allows (.stop (.infeasible certificate))) : p.IsInfeasible := by
  intro x hx
  cases hallows with
  | infeasible hr hrhs hcoefficients =>
    rename_i row r
    rw [hexact, neg_zero] at hrhs hcoefficients
    have hholds : r.eval _ = r.rhs := ht.holds_withSlacks hx r (List.mem_of_getElem? hr)
    have hlower := Equation.mul_sum_le_eval (fun a ha => not_lt.mp (hcoefficients a ha))
      fun j _ => hx.withSlacks_nonneg j
    rw [zero_mul, hholds] at hlower
    exact absurd hrhs (not_lt.mpr hlower)

/-- Without tolerances, a column that nothing bounds gives feasible points of any gain. -/
theorem isUnbounded (ht : t.Represents p) (hexact : t.tolerance = 0) (hpivot : t.pivotTolerance = 0)
    (hallows : t.Allows (.stop .unbounded)) : p.IsUnbounded := by
  cases hallows with
  | unbounded hprimal hcolumn hcost hbound =>
    rename_i column
    have hcanonical := ht.encodes.canonical
    rw [hexact, neg_zero] at hprimal hcost
    have hthreshold : t.ratioThreshold = 0 := by
      rw [ratioThreshold, Scalar.larger_rat, hexact, hpivot, max_self]
    have hrhs : ∀ r ∈ t.dictionary.rows, 0 ≤ r.rhs :=
      forall_mem_dictionary_rows.mpr fun r hr => not_lt.mp (hprimal r hr)
    have hfall : ∀ r ∈ t.dictionary.rows, r.coefficient column ≤ 0 := by
      refine forall_mem_dictionary_rows.mpr fun r hr => ?_
      have hwidth := forall_mem_dictionary_rows.mp hcanonical.solved.width r hr
      have hentry := not_lt.mp (hbound r hr)
      rwa [hthreshold, Equation.entry_of_lt (hwidth.symm ▸ hcolumn)] at hentry
    refine ⟨⟨_, LinearProgram.feasible_valuesOf ht.width (ht.slackForm ht.holds_basicPoint)
      (Dictionary.le_basicPoint le_rfl hrhs)⟩, fun bound => ?_⟩
    obtain ⟨step, hholds, hnonneg, hpast⟩ := Dictionary.exists_ray hcanonical hrhs hcost hfall bound
    have hholds : t.Holds (t.dictionary.along column step) := holds_dictionary.mp hholds
    refine ⟨_, LinearProgram.feasible_valuesOf ht.width (ht.slackForm hholds) hnonneg, ?_⟩
    rw [ht.gain_valuesOf hholds]
    exact hpast

/-- Without tolerances, every verdict that the signs allow is true of the program. -/
theorem answers (ht : t.Represents p) (hexact : t.tolerance = 0) (hpivot : t.pivotTolerance = 0)
    {verdict : Verdict ℚ} (hallows : t.Allows (.stop verdict)) :
    p.Answers (valuesOf p.variableCount t.dictionary.basicPoint) verdict.status := by
  cases verdict with
  | optimal => exact ht.isOptimal hexact hallows
  | infeasible certificate => exact ht.isInfeasible hexact hallows
  | unbounded => exact ht.isUnbounded hexact hpivot hallows
  | iterationLimit => trivial
  | timeLimit => trivial

end Represents

end Tableau

end WarmSimplex
