import WarmSimplex.Proofs.Run

/-!
# Ratio tests

The ratio tests find the lowest ratio, up to the tolerance. Without tolerances they keep the signs of a
tableau. A primal pivot keeps the right-hand sides from becoming negative and does not lower the objective;
a dual pivot keeps the reduced costs from becoming negative and does not raise it. A tableau that is
feasible in one sense is pivoted on in that sense only.

Ties may be broken in any way. How many pivots there are is not looked at here.
-/

namespace WarmSimplex

/-! ## One pivot of the loop -/

section Steps

variable {α : Type} [Scalar α] {t next : Tableau α} {row : ℕ}

/-- The loop makes the pivot on the first tableau, and it leads to the second one. -/
def Tableau.StepsTo (rule : EnteringRule) (t : Tableau α) (made : Pivot) (next : Tableau α) : Prop :=
  ∃ columns, t.nextMove rule = .pivot made.kind made.row columns ∧
    (t.pivotFirst made.row columns).2 = some (made.column, next)

/-- The pivot of a step is not refused. -/
theorem Tableau.StepsTo.eq_pivotAt {rule : EnteringRule} {made : Pivot}
    (h : t.StepsTo rule made next) : next = t.pivotAt made.row made.column := by
  obtain ⟨columns, _, hfirst⟩ := h
  obtain ⟨_, hpivot⟩ := pivotFirst_eq_some (Prod.ext rfl hfirst)
  exact (pivot_eq_ok_iff.mp hpivot).2.2.2

/-- If the first pivot that is offered is not refused, it is the one that is made. -/
theorem Tableau.pivotFirst_cons {column : ℕ} {rest : List ℕ} (h : t.pivot row column = .ok next) :
    t.pivotFirst row (column :: rest) = ([], some (column, next)) := by
  rw [pivotFirst, h]

/-- The best candidate for a dual pivot is the one that the scan of the row ends with. -/
theorem Tableau.scan_of_enteringCandidates {best : EnteringCandidate α}
    {others : List (EnteringCandidate α)} (h : t.enteringCandidates row = best :: others) :
    scan (EnteringCandidate.below t.tolerance) (t.dualCandidates row) = some best := by
  rw [enteringCandidates] at h
  cases hcandidates : t.dualCandidates row with
  | nil =>
    rw [hcandidates] at h
    cases h
  | cons first rest =>
    rw [hcandidates, List.length_cons, rankCandidates] at h
    cases hscan : scan (EnteringCandidate.below t.tolerance) (first :: rest) with
    | none => simp [scan] at hscan
    | some found =>
      rw [hscan] at h
      cases h
      rfl

end Steps

namespace Tableau

variable {t next : Tableau ℚ} {row column : ℕ} {rule : EnteringRule} {made : Pivot}

/-! ## What the tests find -/

/-- The row that leaves bounds the entering column most tightly, up to the tolerance. -/
theorem primalLeaving?_tightest (htolerance : 0 ≤ t.tolerance) (h : t.primalLeaving? column = some row) :
    ∃ r, t.rows[row]? = some r ∧ t.ratioThreshold < r.entry column ∧
      ∀ s ∈ t.rows, t.ratioThreshold < s.entry column →
        max r.rhs 0 / r.entry column ≤ max s.rhs 0 / s.entry column + t.tolerance := by
  obtain ⟨ranked, hscan, rfl⟩ := Option.map_eq_some_iff.mp h
  obtain ⟨i, r, hr, hentry, rfl⟩ :=
    (mem_filterMap_zipIdx fun _ _ => rfl).mp (mem_of_scan_eq_some hscan)
  refine ⟨r, hr, hentry, fun s hs hbounds => ?_⟩
  obtain ⟨k, hk⟩ := List.mem_iff_getElem?.mp hs
  have hlowest := value_le_of_scan htolerance (fun _ _ => rfl) hscan _
    ((mem_filterMap_zipIdx fun _ _ => rfl).mpr ⟨k, s, hk, hbounds, rfl⟩)
  simpa only [Scalar.larger_rat] using hlowest

/-- The candidates of a dual pivot are the columns with a negative entry in the row. -/
theorem mem_dualCandidates_iff (htolerance : 0 ≤ t.tolerance) {r : Row ℚ}
    (hr : t.rows[row]? = some r) {c : EnteringCandidate ℚ} :
    c ∈ t.dualCandidates row ↔ r.coefficient c.column < -t.tolerance ∧
      c = ⟨c.column, |t.reducedCost c.column / r.coefficient c.column|, r.coefficient c.column⟩ := by
  have hbound : -t.tolerance ≤ 0 := neg_nonpos.mpr htolerance
  rw [dualCandidates, hr]
  refine (mem_filterMap_zipIdx fun _ _ => rfl).trans ?_
  rw [← Equation.exists_getElem?_lt_iff
    (P := fun a => c = ⟨c.column, |t.reducedCost c.column / a|, a⟩) hbound]
  constructor
  · rintro ⟨j, a, ha, hneg, rfl⟩
    exact ⟨a, ha, hneg, by rw [Scalar.abs_rat]⟩
  · rintro ⟨a, ha, hneg, heq⟩
    exact ⟨c.column, a, ha, hneg, by rw [Scalar.abs_rat, ← heq]⟩

/-- The column that enters a row has the lowest ratio in it, up to the tolerance. -/
theorem enteringCandidates_tightest (htolerance : 0 ≤ t.tolerance) {r : Row ℚ}
    (hr : t.rows[row]? = some r) {best : EnteringCandidate ℚ} {others : List (EnteringCandidate ℚ)}
    (h : t.enteringCandidates row = best :: others) :
    best.column < r.coefficients.length ∧ r.coefficient best.column < -t.tolerance ∧
      ∀ j, r.coefficient j < -t.tolerance →
        |t.reducedCost best.column / r.coefficient best.column| ≤
          |t.reducedCost j / r.coefficient j| + t.tolerance := by
  have hscan := scan_of_enteringCandidates h
  obtain ⟨hfalls, hbest⟩ := (mem_dualCandidates_iff htolerance hr).mp (mem_of_scan_eq_some hscan)
  refine ⟨?_, hfalls, fun j hj => ?_⟩
  · by_contra hout
    rw [Equation.coefficient_eq_zero_of_le (not_lt.mp hout)] at hfalls
    exact absurd hfalls (not_lt.mpr (neg_nonpos.mpr htolerance))
  · have hother : (⟨j, |t.reducedCost j / r.coefficient j|, r.coefficient j⟩ : EnteringCandidate ℚ) ∈
        t.dualCandidates row := (mem_dualCandidates_iff htolerance hr).mpr ⟨hj, rfl⟩
    have hlower : ∀ next held : EnteringCandidate ℚ, EnteringCandidate.below t.tolerance next held =
        decide (next.ratio < held.ratio - t.tolerance) := fun _ _ => rfl
    have hlowest := value_le_of_scan htolerance hlower hscan _ hother
    rw [hbest] at hlowest
    exact hlowest

/-- A pivot inside the tableau is not refused if its entry is as large as the pivot tolerance asks. -/
theorem pivot_of_large (hrow : row < t.rowCount) (hcolumn : column < t.columnCount)
    (hlarge : t.pivotTolerance ≤ |t.coefficient row column|) :
    t.pivot row column = .ok (t.pivotAt row column) := by
  refine pivot_eq_ok_iff.mpr ⟨hrow, hcolumn, ?_, rfl⟩
  simpa [isDegenerate, Scalar.abs_rat, Scalar.isNaN] using hlarge

/-- Without a pivot tolerance, a pivot inside the tableau is not refused. -/
theorem pivot_of_exact (hpivotTolerance : t.pivotTolerance = 0) (hrow : row < t.rowCount)
    (hcolumn : column < t.columnCount) : t.pivot row column = .ok (t.pivotAt row column) :=
  pivot_of_large hrow hcolumn (hpivotTolerance.trans_le (abs_nonneg _))

/-- A pivot raises the objective value by the reduced cost for each unit that its column grows. -/
theorem objectiveValue_pivotAt (hsolved : SolvedRows t.columnCount t.dictionary.rows) {r : Row ℚ}
    (hr : t.rows[row]? = some r) (hpivot : r.coefficient column ≠ 0) :
    (t.pivotAt row column).objectiveValue =
      t.objectiveValue - t.reducedCost column * (r.rhs / r.coefficient column) := by
  change (t.pivotAt row column).dictionary.objective.rhs = _
  rw [dictionary_pivotAt hsolved hr hpivot,
    Dictionary.objective_rhs_pivot (getElem?_dictionary_rows hr)]
  rfl

/-- Primal feasible means that no right-hand side is below zero by more than the tolerance. -/
theorem isPrimalFeasible_iff_le : t.isPrimalFeasible = true ↔ ∀ r ∈ t.rows, -t.tolerance ≤ r.rhs := by
  simp only [Tableau.isPrimalFeasible, List.all_eq_true, decide_eq_true_eq]

/-- Dual feasible means that no reduced cost is below zero by more than the tolerance. -/
theorem isDualFeasible_iff_le (htolerance : 0 ≤ t.tolerance) :
    t.isDualFeasible = true ↔ ∀ column, -t.tolerance ≤ t.reducedCost column := by
  simp only [Tableau.isDualFeasible, List.all_eq_true, decide_eq_true_eq]
  exact Equation.forall_le_coefficients (neg_nonpos.mpr htolerance)

/-- Without a tolerance, primal feasible means that no right-hand side is negative. -/
theorem isPrimalFeasible_iff (htolerance : t.tolerance = 0) :
    t.isPrimalFeasible = true ↔ ∀ r ∈ t.rows, 0 ≤ r.rhs := by
  rw [isPrimalFeasible_iff_le, htolerance, neg_zero]

/-- Without a tolerance, dual feasible means that no reduced cost is negative. -/
theorem isDualFeasible_iff (htolerance : t.tolerance = 0) :
    t.isDualFeasible = true ↔ ∀ column, 0 ≤ t.reducedCost column := by
  rw [isDualFeasible_iff_le htolerance.ge, htolerance, neg_zero]

/-! ## Primal pivots -/

/-- A canonical tableau with a feasible basis, and without tolerances. -/
structure ExactlyFeasible (t : Tableau ℚ) : Prop where
  canonical : t.dictionary.Canonical
  nonneg : ∀ r ∈ t.rows, 0 ≤ r.rhs
  tolerance : t.tolerance = 0
  pivotTolerance : t.pivotTolerance = 0

namespace ExactlyFeasible

/-- A tableau that is primal feasible without a tolerance has a feasible basis. -/
theorem of_isPrimalFeasible (hcanonical : t.dictionary.Canonical) (htolerance : t.tolerance = 0)
    (hpivotTolerance : t.pivotTolerance = 0) (hfeasible : t.isPrimalFeasible = true) :
    t.ExactlyFeasible :=
  ⟨hcanonical, (isPrimalFeasible_iff htolerance).mp hfeasible, htolerance, hpivotTolerance⟩

/-- A tableau with a feasible basis is primal feasible. -/
theorem isPrimalFeasible (h : t.ExactlyFeasible) : t.isPrimalFeasible = true :=
  (isPrimalFeasible_iff h.tolerance).mpr h.nonneg

/-- No row of it has to leave. -/
theorem leavingRow?_eq_none (h : t.ExactlyFeasible) : t.leavingRow? = none := by
  rw [leavingRow?_eq_none_iff, h.tolerance, neg_zero]
  exact fun r hr => not_lt.mpr (h.nonneg r hr)

/-- It is no evidence that the constraints cannot be met. -/
theorem status_ne_infeasible (h : t.ExactlyFeasible) {verdict : Verdict ℚ}
    (hallows : t.Allows (.stop verdict)) : verdict.status ≠ .infeasible := by
  intro hstatus
  cases hallows with
  | optimal => cases hstatus
  | infeasible hr hrhs _ =>
    rw [h.tolerance, neg_zero] at hrhs
    exact absurd (h.nonneg _ (List.mem_of_getElem? hr)) (not_le.mpr hrhs)
  | unbounded => cases hstatus

/-- The row that leaves bounds the entering column most tightly. -/
theorem exists_tightest (h : t.ExactlyFeasible) (hinside : column < t.columnCount)
    (hrow : t.primalLeaving? column = some row) :
    ∃ r, t.rows[row]? = some r ∧ 0 < r.coefficient column ∧
      ∀ s ∈ t.rows, 0 < s.coefficient column →
        r.rhs / r.coefficient column ≤ s.rhs / s.coefficient column := by
  obtain ⟨r, hr, hbounds, htightest⟩ := primalLeaving?_tightest h.tolerance.ge hrow
  have hthreshold : t.ratioThreshold = 0 := by
    rw [ratioThreshold, Scalar.larger_rat, h.tolerance, h.pivotTolerance, max_self]
  have hentry : ∀ s ∈ t.rows, s.entry column = s.coefficient column := fun s hs =>
    Equation.entry_of_lt
      ((forall_mem_dictionary_rows.mp h.canonical.solved.width s hs).symm ▸ hinside)
  have hmem := List.mem_of_getElem? hr
  rw [hthreshold, hentry r hmem] at hbounds
  refine ⟨r, hr, hbounds, fun s hs hrises => ?_⟩
  have hratio := htightest s hs (by rwa [hthreshold, hentry s hs])
  rwa [hentry r hmem, hentry s hs, max_eq_left (h.nonneg r hmem), max_eq_left (h.nonneg s hs),
    h.tolerance, add_zero] at hratio

/-- A pivot on the row that bounds a column most tightly keeps the basis feasible. -/
theorem pivotAt (h : t.ExactlyFeasible) {r : Row ℚ} (hr : t.rows[row]? = some r)
    (hrises : 0 < r.coefficient column)
    (htightest : ∀ s ∈ t.rows, 0 < s.coefficient column →
      r.rhs / r.coefficient column ≤ s.rhs / s.coefficient column) :
    (t.pivotAt row column).ExactlyFeasible := by
  have hrow := getElem?_dictionary_rows hr
  have hcanonical := Dictionary.canonical_pivot h.canonical hrow hrises.ne'
  have hnonneg := Dictionary.rhs_nonneg_pivot hrow hrises
    (forall_mem_dictionary_rows.mpr htightest) (forall_mem_dictionary_rows.mpr h.nonneg)
  obtain ⟨_, _, htolerance, hpivotTolerance⟩ := settings_eq_iff.mp (settings_pivotAt t row column)
  rw [← dictionary_pivotAt h.canonical.solved hr hrises.ne'] at hcanonical hnonneg
  exact ⟨hcanonical, forall_mem_dictionary_rows.mp hnonneg, htolerance.trans h.tolerance,
    hpivotTolerance.trans h.pivotTolerance⟩

/-- The loop makes a primal pivot on it, which keeps the basis feasible and does not lower the
objective. -/
theorem step (h : t.ExactlyFeasible) (hmade : t.StepsTo rule made next) :
    made.kind = .primal ∧ next.ExactlyFeasible ∧ t.objectiveValue ≤ next.objectiveValue := by
  have hnext := hmade.eq_pivotAt
  obtain ⟨columns, hmove, hfirst⟩ := hmade
  rcases nextMove_eq_pivot hmove with ⟨_, hleaving, _⟩ | ⟨hkind, _, column, rfl, hentering, hrow⟩
  · rw [h.leavingRow?_eq_none] at hleaving
    cases hleaving
  · obtain ⟨hinside, hcost⟩ := primalEntering?_eq_some hentering
    obtain ⟨hmem, _⟩ := pivotFirst_eq_some (Prod.ext rfl hfirst)
    have hcolumn : made.column = column := List.mem_singleton.mp hmem
    rw [hcolumn] at hnext
    obtain ⟨r, hr, hrises, htightest⟩ := h.exists_tightest hinside hrow
    subst hnext
    refine ⟨hkind, h.pivotAt hr hrises htightest, ?_⟩
    rw [h.tolerance, neg_zero] at hcost
    rw [objectiveValue_pivotAt h.canonical.solved hr hrises.ne', le_sub_self_iff]
    exact mul_nonpos_of_nonpos_of_nonneg hcost.le
      (div_nonneg (h.nonneg r (List.mem_of_getElem? hr)) hrises.le)

end ExactlyFeasible

/-! ## Dual pivots -/

/-- A canonical tableau without negative reduced costs, and without tolerances. -/
structure ExactlyPriced (t : Tableau ℚ) : Prop where
  canonical : t.dictionary.Canonical
  nonneg : ∀ column, 0 ≤ t.reducedCost column
  tolerance : t.tolerance = 0
  pivotTolerance : t.pivotTolerance = 0

namespace ExactlyPriced

/-- A tableau that is dual feasible without a tolerance has no negative reduced costs. -/
theorem of_isDualFeasible (hcanonical : t.dictionary.Canonical) (htolerance : t.tolerance = 0)
    (hpivotTolerance : t.pivotTolerance = 0) (hfeasible : t.isDualFeasible = true) :
    t.ExactlyPriced :=
  ⟨hcanonical, (isDualFeasible_iff htolerance).mp hfeasible, htolerance, hpivotTolerance⟩

/-- A tableau without negative reduced costs is dual feasible. -/
theorem isDualFeasible (h : t.ExactlyPriced) : t.isDualFeasible = true :=
  (isDualFeasible_iff h.tolerance).mpr h.nonneg

/-- No column of it improves the objective. -/
theorem primalEntering?_ne_some (h : t.ExactlyPriced) (rule : EnteringRule) (column : ℕ) :
    t.primalEntering? rule ≠ some column := by
  intro hentering
  have hcost := (primalEntering?_eq_some hentering).2
  rw [h.tolerance, neg_zero] at hcost
  exact absurd (h.nonneg column) (not_le.mpr hcost)

/-- It is no evidence that the objective grows without bound. -/
theorem status_ne_unbounded (h : t.ExactlyPriced) {verdict : Verdict ℚ}
    (hallows : t.Allows (.stop verdict)) : verdict.status ≠ .unbounded := by
  intro hstatus
  cases hallows with
  | optimal => cases hstatus
  | infeasible => cases hstatus
  | unbounded _ _ hcost _ =>
    rw [h.tolerance, neg_zero] at hcost
    exact absurd (h.nonneg _) (not_le.mpr hcost)

/-- A pivot on the lowest ratio of a row keeps the reduced costs from becoming negative. -/
theorem pivotAt (h : t.ExactlyPriced) {r : Row ℚ} (hr : t.rows[row]? = some r)
    (hfalls : r.coefficient column < 0)
    (hlowest : ∀ j, r.coefficient j < 0 →
      |t.reducedCost column / r.coefficient column| ≤ |t.reducedCost j / r.coefficient j|) :
    (t.pivotAt row column).ExactlyPriced := by
  have hrow := getElem?_dictionary_rows hr
  have hcanonical := Dictionary.canonical_pivot h.canonical hrow hfalls.ne
  have hnonneg := Dictionary.costs_nonneg_pivot h.canonical.solved hrow hfalls hlowest h.nonneg
  obtain ⟨_, _, htolerance, hpivotTolerance⟩ := settings_eq_iff.mp (settings_pivotAt t row column)
  rw [← dictionary_pivotAt h.canonical.solved hr hfalls.ne] at hcanonical hnonneg
  exact ⟨hcanonical, hnonneg, htolerance.trans h.tolerance, hpivotTolerance.trans h.pivotTolerance⟩

/-- The loop makes a dual pivot on it, which keeps the reduced costs from becoming negative and does not
raise the objective. -/
theorem step (h : t.ExactlyPriced) (hmade : t.StepsTo rule made next) :
    made.kind = .dual ∧ next.ExactlyPriced ∧ next.objectiveValue ≤ t.objectiveValue := by
  have hnext := hmade.eq_pivotAt
  obtain ⟨columns, hmove, hfirst⟩ := hmade
  rcases nextMove_eq_pivot hmove with
    ⟨hkind, hleaving, best, others, hcandidates, rfl⟩ | ⟨_, _, column, _, hentering, _⟩
  · obtain ⟨r, hr, hrhs⟩ := leavingRow?_eq_some hleaving
    obtain ⟨hinside, hfalls, hlowest⟩ := enteringCandidates_tightest h.tolerance.ge hr hcandidates
    simp only [h.tolerance, neg_zero, add_zero] at hfalls hlowest
    have hwidth := forall_mem_dictionary_rows.mp h.canonical.solved.width r (List.mem_of_getElem? hr)
    -- the best candidate is the one that enters, since its pivot is not refused
    have hpivot := pivot_of_exact h.pivotTolerance (List.getElem?_eq_some_iff.mp hr).1
      (hinside.trans_eq hwidth)
    rw [List.map_cons, pivotFirst_cons hpivot] at hfirst
    have hcolumn : best.column = made.column := congrArg Prod.fst (Option.some.inj hfirst)
    rw [hcolumn] at hfalls hlowest
    subst hnext
    refine ⟨hkind, h.pivotAt hr hfalls hlowest, ?_⟩
    rw [h.tolerance, neg_zero] at hrhs
    rw [objectiveValue_pivotAt h.canonical.solved hr hfalls.ne, sub_le_self_iff]
    exact mul_nonneg (h.nonneg _) (div_nonneg_of_nonpos hrhs.le hfalls.le)
  · exact absurd hentering (h.primalEntering?_ne_some rule column)

end ExactlyPriced

end Tableau

end WarmSimplex
