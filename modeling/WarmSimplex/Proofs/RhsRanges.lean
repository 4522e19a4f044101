import WarmSimplex.Proofs.BasicSolutions
import WarmSimplex.Proofs.Intervals
import WarmSimplex.Proofs.RatioTests

/-!
# Ranges of the right-hand sides

If a right-hand side changes, its slack can take up the change, as long as no other constraint mentions
it. The basic values then move at the rates of the slack's column, and the range of the right-hand side
says exactly how far this goes before one of them turns negative.

The ranges speak about one right-hand side at a time. Constraints over slacks are left out.
-/

namespace WarmSimplex

/-- The range of a right-hand side in which the basis of the tableau stays feasible, and outside of which
it does not. Whatever the right-hand side is, the basis has exactly one basic solution. -/
structure Tableau.RhsRangeExact (t : Tableau ℚ) (p : LinearProgram ℚ) (i : ℕ) (c : Constraint ℚ)
    (range : SensitivityRange ℚ) : Prop where
  name : range.name = c.name
  current : range.current = c.rhs
  contains : range.range.Contains c.rhs
  basicSolution : ∀ r, ∃! w, (p.withRhs i r).BasicSolution t.basis w
  feasible_iff : ∀ r w, (p.withRhs i r).BasicSolution t.basis w →
    ((∀ j ∈ t.basis, 0 ≤ w j) ↔ range.range.Contains r)

namespace LinearProgram

variable {p : LinearProgram ℚ} {i : ℕ} {c : Constraint ℚ}

/-- The slack of an inequality that no constraint mentions takes up the change of its right-hand side. -/
theorem lhs_slack (hwidth : ∀ c ∈ p.constraints, OverFirst p.variableCount c.coefficients)
    (hi : p.inequalities[i]? = some c) (r : ℚ) (k : ℕ) (d : Constraint ℚ)
    (hk : p.inequalities[k]? = some d) :
    d.lhs (p.variableCount + k)
        (Pi.single (p.variableCount + i) (c.relation.slackSign * (r - c.rhs))) =
      if k = i then r - d.rhs else 0 := by
  have hmentioned : d.coefficients.getD (p.variableCount + i) 0 = 0 := by
    obtain ⟨given, hgiven, hd⟩ := List.mem_flatMap.mp (List.mem_of_getElem? hk)
    rw [(Constraint.of_mem_inequalities hd).1]
    exact ((hwidth given hgiven).eq_zero_or_lt _).resolve_right (by omega)
  rw [Constraint.lhs_single, hmentioned, zero_add]
  by_cases hki : k = i
  · subst hki
    cases hk.symm.trans hi
    have hsign := Constraint.slackSign_mul_slackSign (relation_ne_eq (List.mem_of_getElem? hk))
    rw [if_pos rfl, if_pos rfl, ← mul_assoc, hsign, one_mul]
  · rw [if_neg hki, if_neg (by omega), zero_mul]

end LinearProgram

namespace Tableau

variable {t : Tableau ℚ} {p : LinearProgram ℚ} {i : ℕ} {c : Constraint ℚ}

/-- Without a tolerance, the changes of a right-hand side are those that keep the basic values from
turning negative. -/
theorem contains_rhsChanges (htolerance : t.tolerance = 0) (hnonneg : ∀ r ∈ t.rows, 0 ≤ r.rhs) {x : ℚ} :
    (t.rhsChanges i).Contains x ↔ ∀ r ∈ t.rows, 0 ≤ r.rhs + x * r.coefficient (t.slackColumn i) := by
  rw [rhsChanges, htolerance, Interval.contains_foldl fun r hr _ =>
    Interval.contains_keepNonNegative (hnonneg r hr) (r.coefficient (t.slackColumn i))]
  exact and_iff_right Interval.contains_all

/-- The range of a right-hand side has those numbers in it that differ from it by one of the changes, in
the orientation of the constraint. -/
theorem contains_rhsRange (hc : c.relation ≠ .eq) {r : ℚ} :
    (t.rhsRange i ⟨c.name, c.relation, c.relation.slackSign * c.rhs⟩).range.Contains r ↔
      (t.rhsChanges i).Contains (c.relation.slackSign * (r - c.rhs)) := by
  obtain ⟨name, coefficients, relation, rhs⟩ := c
  cases relation with
  | le => simp [rhsRange, Relation.slackSign, Interval.contains_addTo]
  | ge =>
    have hchange : -r + rhs = -(r - rhs) := by ring
    simp [rhsRange, Relation.slackSign, Interval.contains_addTo, Interval.contains_negate, hchange]
  | eq => exact absurd rfl hc

/-- The right-hand side of a constraint is reported as it was written. -/
theorem current_rhsRange (hc : c.relation ≠ .eq) :
    (t.rhsRange i ⟨c.name, c.relation, c.relation.slackSign * c.rhs⟩).current = c.rhs := by
  obtain ⟨name, coefficients, relation, rhs⟩ := c
  cases relation with
  | le => simp [rhsRange, Relation.slackSign]
  | ge => simp [rhsRange, Relation.slackSign]
  | eq => exact absurd rfl hc

/-- The ranges of the right-hand sides of a feasible tableau are exact, if the constraints are over the
variables. -/
theorem Stores.rhsRangeExact (ht : t.Stores p)
    (hwidth : ∀ c ∈ p.constraints, OverFirst p.variableCount c.coefficients)
    (htolerance : t.tolerance = 0) (hfeasible : t.isPrimalFeasible = true)
    (hi : p.inequalities[i]? = some c) :
    ∃ range, t.analysis.rhsRanges[i]? = some range ∧ t.RhsRangeExact p i c range := by
  have hrelation := LinearProgram.relation_ne_eq (List.mem_of_getElem? hi)
  have hnonneg := (isPrimalFeasible_iff htolerance).mp hfeasible
  obtain ⟨row, hrow, hlabel⟩ := ht.exists_row hi
  have hbasic : ∀ r w, (p.withRhs i r).BasicSolution t.basis w ↔ w = (t.dictionary.displace
      (Pi.single (p.variableCount + i) (c.relation.slackSign * (r - c.rhs)))).basicPoint :=
    fun r _ => ht.basicSolution_iff fun _ =>
      LinearProgram.solvedBy_withRhs (LinearProgram.lhs_slack hwidth hi r)
  refine ⟨t.rhsRange i row.label, ?_, ?_⟩
  · rw [analysis, List.getElem?_mapIdx, hrow]
    rfl
  · rw [hlabel]
    refine ⟨rfl, current_rhsRange hrelation, ?_, fun r => ⟨_, (hbasic r _).mpr rfl, fun w hw =>
      (hbasic r w).mp hw⟩, fun r w hw => ?_⟩
    · rw [contains_rhsRange hrelation, contains_rhsChanges htolerance hnonneg, sub_self, mul_zero]
      intro r hr
      rw [zero_mul, add_zero]
      exact hnonneg r hr
    · rw [(hbasic r w).mp hw, ht.forall_basis_displace, contains_rhsRange hrelation,
        contains_rhsChanges htolerance hnonneg, slackColumn, ht.structural]
      refine forall₂_congr fun s _ => ?_
      rw [Equation.eval_single, mul_comm]

end Tableau

/-- After any history that adds constraints over the variables, pivots off zero and solves, the ranges of
the right-hand sides of a feasible tableau are exact. -/
theorem Origin.rhsRanges_exact {o : Origin} {t : Tableau ℚ} (ht : o.tableau = .ok t)
    {history : List (Edit ℚ)} (hhistory : ∀ e ∈ history, e.OverVariables o.start.variableCount)
    (hcareful : t.Careful history) (htolerance : (t.afterEdits history).tolerance = 0)
    (hfeasible : (t.afterEdits history).isPrimalFeasible = true) :
    let reached := t.afterEdits history
    let extended := o.start.extend (t.added history)
    ∀ (i : ℕ) c, extended.inequalities[i]? = some c →
      ∃ range, reached.analysis.rhsRanges[i]? = some range ∧ reached.RhsRangeExact extended i c range := by
  intro reached extended i c hi
  obtain ⟨hshaped, _⟩ := Origin.tableau_eq_ok ht
  exact (Origin.stores_of_careful ht hcareful).rhsRangeExact (LinearProgram.width_extend hshaped hhistory)
    htolerance hfeasible hi

/-- The ranges of a minimum with a `≥` constraint, after another one was added and a pivot. -/
theorem rhsRanges_after_cover :
    let o : Origin := .program
      ⟨["x", "y"], ⟨[1, 2], .minimize⟩, [⟨"demand", [1, 1], .ge, 2⟩, ⟨"limit", [1, 0], .le, 3⟩]⟩
    let t := o.start.slackTableau
    let history : List (Edit ℚ) :=
      [.setTolerances (some 0) none, .solve {}, .addConstraint (some "cover") [0, 1] .ge 1, .pivot 2 1]
    o.tableau = .ok t ∧ (∀ e ∈ history, e.OverVariables o.start.variableCount) ∧ t.Careful history ∧
      (t.afterEdits history).tolerance = 0 ∧ (t.afterEdits history).isPrimalFeasible = true ∧
      let reached := t.afterEdits history
      let extended := o.start.extend (t.added history)
      ∀ (i : ℕ) c, extended.inequalities[i]? = some c →
        ∃ range, reached.analysis.rhsRanges[i]? = some range ∧
          reached.RhsRangeExact extended i c range := by
  intro o t history
  have ht : o.tableau = .ok t := by with_unfolding_all rfl
  have hhistory : ∀ e ∈ history, e.OverVariables o.start.variableCount := by
    simp [history, o, Origin.start, Edit.OverVariables, OverFirst, LinearProgram.variableCount]
  have hcareful : t.Careful history := by
    have hentry : ((t.afterEdits [.setTolerances (some 0) none, .solve {}]).afterEdit
        (.addConstraint (some "cover") [0, 1] .ge 1)).coefficient 2 1 ≠ 0 := by decide +kernel
    exact ⟨by simp [history, Edit.SetsNonneg], trivial, trivial, trivial, fun _ _ => hentry, trivial⟩
  have htolerance : (t.afterEdits history).tolerance = 0 := by decide +kernel
  have hfeasible : (t.afterEdits history).isPrimalFeasible = true := by decide +kernel
  exact ⟨ht, hhistory, hcareful, htolerance, hfeasible,
    Origin.rhsRanges_exact ht hhistory hcareful htolerance hfeasible⟩

end WarmSimplex
