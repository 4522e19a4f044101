import WarmSimplex.Proofs.Resuming

/-!
# What an unbounded verdict says

The ratio test of a primal pivot passes over entries that are not above the pivot tolerance, and if no
entry is left, the solve ends unbounded. Without a feasibility tolerance the column is then a ray: the
constraints hold along it, and the objective grows at the rate of the reduced cost. Basic columns whose
entries were passed over fall on the way, so the ray stays without negative entries only if there are
none of these. Otherwise the program may be bounded.
-/

namespace WarmSimplex

/-! ## Open columns -/

/-- Along a ray no column falls faster than the entries of the ray's column allow. -/
theorem Dictionary.le_along {d : Dictionary} (hrhs : ∀ r ∈ d.rows, 0 ≤ r.rhs) {column : ℕ}
    {slope step : ℚ} (hslope : 0 ≤ slope) (hfall : ∀ r ∈ d.rows, r.coefficient column ≤ slope)
    (hstep : 0 ≤ step) (j : ℕ) : -(step * slope) ≤ d.along column step j := by
  have hbelow : -(step * slope) ≤ 0 := neg_nonpos.mpr (mul_nonneg hstep hslope)
  rw [along]
  split
  · exact hbelow.trans hstep
  · split
    · rename_i r hfind
      have hr := List.mem_of_find?_eq_some hfind
      have hprod := mul_le_mul_of_nonneg_left (hfall r hr) hstep
      linarith [hrhs r hr]
    · exact hbelow

/-- A verdict is reported as unbounded only if it is one. -/
theorem Verdict.status_eq_unbounded_iff {α : Type} {verdict : Verdict α} :
    verdict.status = .unbounded ↔ verdict = .unbounded := by
  cases verdict <;> simp [status]

namespace Tableau

/-- An unbounded move comes from an entering column that no row bounds. -/
theorem nextMove_eq_unbounded {α : Type} [Scalar α] {u : Tableau α} {rule : EnteringRule}
    (h : u.nextMove rule = .stop .unbounded) :
    ∃ column, u.leavingRow? = none ∧ u.primalEntering? rule = some column ∧
      u.primalLeaving? column = none := by
  rw [nextMove] at h
  cases hleaving : u.leavingRow? with
  | some row =>
    rw [hleaving] at h
    dsimp only at h
    split at h <;> cases h
  | none =>
    rw [hleaving] at h
    dsimp only at h
    cases hentering : u.primalEntering? rule with
    | none =>
      rw [hentering] at h
      cases h
    | some column =>
      rw [hentering] at h
      dsimp only at h
      cases hrow : u.primalLeaving? column with
      | some row =>
        rw [hrow] at h
        cases h
      | none => exact ⟨column, rfl, rfl, hrow⟩

variable {t : Tableau ℚ} {costs : List ℚ} {given : List (StoredConstraint ℚ)} {column : ℕ}

/-- The column improves the objective of a feasible basis, and no row bounds it in the ratio test. -/
structure OpenColumn (t : Tableau ℚ) (column : ℕ) : Prop where
  nonneg : ∀ r ∈ t.rows, 0 ≤ r.rhs
  inside : column < t.columnCount
  cost : t.reducedCost column < 0
  passed : ∀ r ∈ t.rows, r.coefficient column ≤ max 0 t.pivotTolerance

/-- Without a tolerance, a solve that ends unbounded leaves the column that it wanted to enter open. -/
theorem openColumn_of_unbounded (ht : t.dictionary.Canonical) (htolerance : t.tolerance = 0)
    {rule : EnteringRule} (hmove : t.nextMove rule = .stop .unbounded) :
    ∃ column, t.primalEntering? rule = some column ∧ t.OpenColumn column := by
  obtain ⟨column, hleaving, hentering, hrow⟩ := nextMove_eq_unbounded hmove
  obtain ⟨hinside, hcost⟩ := primalEntering?_eq_some hentering
  have hrhs := leavingRow?_eq_none_iff.mp hleaving
  have hbound := primalLeaving?_eq_none_iff.mp hrow
  have hwidth : ∀ r ∈ t.rows, r.coefficients.length = t.columnCount :=
    forall_mem_dictionary_rows.mp ht.solved.width
  simp only [htolerance, neg_zero] at hrhs hcost
  refine ⟨column, hentering, fun r hr => not_lt.mp (hrhs r hr), hinside, hcost, fun r hr => ?_⟩
  have hentry := not_lt.mp (hbound r hr)
  rwa [Equation.entry_of_lt (hwidth r hr ▸ hinside), ratioThreshold, Scalar.larger_rat, htolerance]
    at hentry

/-- No entry of the column is positive and small enough for the ratio test to pass over it. -/
def ClearOfSmall (t : Tableau ℚ) (column : ℕ) : Prop :=
  ∀ r ∈ t.rows, 0 < r.coefficient column → t.pivotTolerance < r.coefficient column

/-- If the ratio test passes over no positive entry, an open column has none. -/
theorem OpenColumn.falls (h : t.OpenColumn column) (hclear : t.ClearOfSmall column) :
    ∀ r ∈ t.rows, r.coefficient column ≤ 0 := by
  intro r hr
  by_contra hpositive
  have hentry := not_le.mp hpositive
  exact (max_lt hentry (hclear r hr hentry)).not_ge (h.passed r hr)

/-- An open column is not basic. -/
theorem OpenColumn.nonbasic (h : t.OpenColumn column) (ht : t.dictionary.Canonical) :
    ∀ r ∈ t.dictionary.rows, r.basic ≠ column := by
  rintro r hr rfl
  exact h.cost.ne (ht.priced r hr)

/-- Along an open column the constraints hold and the objective grows, while no column falls faster
than at the pivot tolerance. -/
theorem OpenColumn.ray (h : t.OpenColumn column) (ht : t.Encodes costs given) {step : ℚ}
    (hstep : 0 ≤ step) :
    ∃ v, SlackForm t.structuralCount given v ∧
      costAt costs v = t.objectiveValue - step * t.reducedCost column ∧
      ∀ j, -(step * max 0 t.pivotTolerance) ≤ v j := by
  have hnonbasic := h.nonbasic ht.canonical
  have hholds := holds_dictionary.mp
    (Dictionary.holds_along ht.canonical h.inside hnonbasic step)
  refine ⟨t.dictionary.along column step, (ht.holds_iff _).mp hholds, ?_, ?_⟩
  · rw [← ht.gap _ hholds]
    exact Dictionary.gap_along ht.canonical h.inside hnonbasic step
  · exact Dictionary.le_along (forall_mem_dictionary_rows.mpr h.nonneg) (le_max_left _ _)
      (forall_mem_dictionary_rows.mpr h.passed) hstep

/-- An open column without small entries shows that the objective grows without bound over the
solutions without negative entries. -/
theorem OpenColumn.exists_ray (h : t.OpenColumn column) (ht : t.Encodes costs given)
    (hclear : t.ClearOfSmall column) (bound : ℚ) :
    ∃ v, SlackForm t.structuralCount given v ∧ (∀ j, 0 ≤ v j) ∧ bound < costAt costs v := by
  obtain ⟨step, hholds, hnonneg, hpast⟩ := Dictionary.exists_ray ht.canonical
    (forall_mem_dictionary_rows.mpr h.nonneg) h.cost
    (forall_mem_dictionary_rows.mpr (h.falls hclear)) bound
  have hholds := holds_dictionary.mp hholds
  exact ⟨_, (ht.holds_iff _).mp hholds, hnonneg, hpast.trans_eq (ht.gap _ hholds)⟩

end Tableau

/-- Without a feasibility tolerance, a solve that ends unbounded leaves a column along which the
constraints hold and the objective grows without bound, while no column falls faster than at the pivot
tolerance. If no positive entry of this column is within the pivot tolerance, the objective is unbounded
over the solutions without negative entries. -/
theorem Origin.ray_of_unbounded {o : Origin} {t : Tableau ℚ} (ht : o.tableau = .ok t)
    {history : List (Edit ℚ)} (hcareful : t.Careful history)
    (htolerance : (t.afterEdits history).tolerance = 0) {options : SolveOptions}
    (hunbounded : ((t.afterEdits history).solve options).1.status = .unbounded) :
    let solved := ((t.afterEdits history).solve options).2
    let given := storedForms (o.start.constraints ++ t.added history)
    let slope := max 0 (t.afterEdits history).pivotTolerance
    ∃ column, solved.primalEntering? options.rule = some column ∧ solved.reducedCost column < 0 ∧
      (∀ step, 0 ≤ step → ∃ v, SlackForm o.start.variableCount given v ∧
        costAt o.start.costs v = solved.objectiveValue - step * solved.reducedCost column ∧
        ∀ j, -(step * slope) ≤ v j) ∧
      (solved.ClearOfSmall column → ∀ bound, ∃ v, SlackForm o.start.variableCount given v ∧
        (∀ j, 0 ≤ v j) ∧ bound < costAt o.start.costs v) := by
  intro solved given slope
  obtain ⟨hencodes, hnonneg⟩ := Origin.encodes_of_pivotsOffZero ht hcareful.tolerance hcareful.offZero
  obtain ⟨hdecisions, _, hsame, hsamePivot⟩ :=
    Tableau.settings_eq_iff.mp ((t.afterEdits history).settings_run options)
  have hsolved : solved.Encodes o.start.costs given := hencodes.run hnonneg options
  have hstructural : solved.structuralCount = o.start.variableCount := by
    obtain ⟨hshaped, rfl⟩ := Origin.tableau_eq_ok ht
    rw [← LinearProgram.structuralCount_afterEdits hshaped history]
    exact congrArg List.length hdecisions
  obtain ⟨last, verdict, hends⟩ := (t.afterEdits history).exists_solveEnds options
  obtain rfl : verdict = .unbounded :=
    Verdict.status_eq_unbounded_iff.mp (hends.status_eq.symm.trans hunbounded)
  have hlast : last.tableau = solved := congrArg Prod.snd hends.solve_eq.symm
  have hmove := hends.nextMove_eq hnonneg (by simp) (by simp)
  rw [hlast] at hmove
  obtain ⟨column, hentering, hopen⟩ :=
    Tableau.openColumn_of_unbounded hsolved.canonical (hsame.trans htolerance) hmove
  have hslope : max 0 solved.pivotTolerance = slope := congrArg (max 0) hsamePivot
  rw [← hstructural, ← hslope]
  exact ⟨column, hentering, hopen.cost, fun step hstep => hopen.ray hsolved hstep,
    fun hclear => hopen.exists_ray hsolved hclear⟩

/-- A program that grows along a column whose entries are all negative once the first pivot is made. -/
theorem ray_after_pivot :
    let o : Origin := .matrix [[1, -1]] [1] [1, 1]
    let t := o.start.slackTableau
    let history : List (Edit ℚ) :=
      [.setTolerances (some 0) (some (1 / 100)), .appendRow [-1, -1] 3]
    o.tableau = .ok t ∧ t.Careful history ∧ (t.afterEdits history).tolerance = 0 ∧
      (t.afterEdits history).pivotTolerance = 1 / 100 ∧
      ((t.afterEdits history).solve {}).1.status = .unbounded ∧
      ((t.afterEdits history).solve {}).1.iterations = 1 ∧
      ∀ bound, ∃ v, SlackForm o.start.variableCount
        (storedForms (o.start.constraints ++ t.added history)) v ∧
          (∀ j, 0 ≤ v j) ∧ bound < costAt o.start.costs v := by
  intro o t history
  have ht : o.tableau = .ok t := by with_unfolding_all rfl
  have hcareful : t.Careful history := ⟨by simp [history, Edit.SetsNonneg], trivial, trivial, trivial⟩
  have htolerance : (t.afterEdits history).tolerance = 0 := by decide +kernel
  have hunbounded : ((t.afterEdits history).solve {}).1.status = .unbounded := by decide +kernel
  obtain ⟨column, hentering, _, _, hgrows⟩ := Origin.ray_of_unbounded ht hcareful htolerance hunbounded
  have hsecond : ((t.afterEdits history).solve {}).2.primalEntering? .dantzig = some 1 := by
    decide +kernel
  cases hentering.symm.trans hsecond
  have hclear : ∀ r ∈ ((t.afterEdits history).solve {}).2.rows, 0 < r.coefficient 1 →
      ((t.afterEdits history).solve {}).2.pivotTolerance < r.coefficient 1 := by decide +kernel
  exact ⟨ht, hcareful, htolerance, by decide +kernel, hunbounded, by decide +kernel, hgrows hclear⟩

/-- Maximize `x` subject to `x / 1024 ≤ 1`, with a pivot tolerance of `1 / 512`. The solve ends unbounded
by either rule, though the objective is at most 1024. -/
theorem unbounded_under_pivot_tolerance :
    let o : Origin := .matrix [[1 / 1024]] [1] [1]
    let t := o.start.slackTableau
    let history : List (Edit ℚ) := [.setTolerances (some 0) (some (1 / 512))]
    o.tableau = .ok t ∧ t.Careful history ∧ (t.afterEdits history).tolerance = 0 ∧
      0 ≤ (t.afterEdits history).pivotTolerance ∧
      (∀ rule, ((t.afterEdits history).solve { rule := rule }).1.status = .unbounded) ∧
      ¬∀ bound, ∃ v, SlackForm o.start.variableCount
        (storedForms (o.start.constraints ++ t.added history)) v ∧
          (∀ j, 0 ≤ v j) ∧ bound < costAt o.start.costs v := by
  intro o t history
  have ht : o.tableau = .ok t := by with_unfolding_all rfl
  have hcareful : t.Careful history := ⟨by simp [history, Edit.SetsNonneg], trivial, trivial⟩
  refine ⟨ht, hcareful, by decide +kernel, by decide +kernel, fun rule => ?_, fun hall => ?_⟩
  · cases rule with
    | dantzig => decide +kernel
    | bland => decide +kernel
  · obtain ⟨v, hv, hnonneg, hpast⟩ := hall 1024
    have hrow : (storedForms (o.start.constraints ++ t.added history))[0]? =
        some ⟨[1 / 1024], ⟨"c1", .le, 1⟩⟩ := by with_unfolding_all rfl
    have hslack : 1024⁻¹ * v 0 + v o.start.variableCount = 1 := by
      simpa [StoredConstraint.HoldsWith, StoredConstraint.equation, Equation.eval,
        Equation.coefficient] using hv 0 _ hrow
    have hcost : costAt o.start.costs v = v 0 := by
      rw [show o.start.costs = [1] by with_unfolding_all rfl]
      simp [costAt]
    rw [hcost] at hpast
    linarith [hnonneg o.start.variableCount]

end WarmSimplex
