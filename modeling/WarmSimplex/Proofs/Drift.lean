import WarmSimplex.Proofs.History
import WarmSimplex.Proofs.RatioTests

/-!
# Feasibility under a tolerance

With a tolerance the ratio tests do not tell close ratios apart, and do not look at small entries. A pivot
can then take a value below zero that was not, or further below zero than it was. How far depends on the
size of the entries, since an entry multiplies the difference of the ratios that were tied.

Each kind of pivot keeps its own feasibility up to such a loss, and there is none without a tolerance.
-/

namespace WarmSimplex

/-! ## What a pivot takes from a value -/

/-- How much further below zero than the slack a pivot can take a value, if no value was below zero by
more than the slack. The value loses through a tie of its ratio with the lowest one, through an entry
that the ratio test does not look at, or through the ratio being that of a value below zero. -/
def pivotLoss (tie tolerance ratio slack growth : ℚ) : ℚ :=
  max tie (max (tolerance * ratio) (slack * |growth|))

section Loss

variable {tie tolerance ratio slack current entry value pivot : ℚ}

/-- A value loses at most `pivotLoss` when a multiple of another value is taken from it, if the ratio of
the latter is not above its own by more than a tie. -/
theorem neg_pivotLoss_le (hcurrent : -slack ≤ current) (hvalue : -slack ≤ value) (hnonneg : 0 ≤ ratio)
    (hratio : 0 ≤ value → value / pivot = ratio)
    (htie : tolerance < entry → entry * ratio ≤ current + slack + tie) :
    -(slack + pivotLoss tie tolerance ratio slack (entry / pivot)) ≤
      current - entry * (value / pivot) := by
  have hloss : tie ≤ pivotLoss tie tolerance ratio slack (entry / pivot) ∧
      tolerance * ratio ≤ pivotLoss tie tolerance ratio slack (entry / pivot) ∧
      slack * |entry / pivot| ≤ pivotLoss tie tolerance ratio slack (entry / pivot) :=
    ⟨le_max_left _ _, (le_max_left _ _).trans (le_max_right _ _),
      (le_max_right _ _).trans (le_max_right _ _)⟩
  obtain ⟨htied, hsmall, hbelow⟩ := hloss
  rcases le_or_gt 0 value with hup | hdown
  · rw [hratio hup]
    rcases lt_or_ge tolerance entry with hlarge | hlow
    · linarith [htie hlarge]
    · linarith [mul_le_mul_of_nonneg_right hlow hnonneg]
  · -- the value is below zero by at most the slack, so the sign of the entry does not matter
    have htaken : entry * (value / pivot) = -value * -(entry / pivot) := by ring
    have hbound : -value * -(entry / pivot) ≤ slack * |entry / pivot| :=
      (mul_le_mul_of_nonneg_left (neg_le_abs _) (neg_nonneg.mpr hdown.le)).trans
        (mul_le_mul_of_nonneg_right (neg_le.mp hvalue) (abs_nonneg _))
    linarith

end Loss

namespace Tableau

variable {t : Tableau ℚ} {row column : ℕ} {r : Row ℚ}

/-! ## The values after a pivot -/

/-- The reduced costs after a pivot. -/
theorem reducedCost_pivotAt (hsolved : SolvedRows t.columnCount t.dictionary.rows)
    (hr : t.rows[row]? = some r) (hpivot : r.coefficient column ≠ 0) (j : ℕ) :
    (t.pivotAt row column).reducedCost j =
      t.reducedCost j - t.reducedCost column * (r.coefficient j / r.coefficient column) := by
  change (t.pivotAt row column).dictionary.objective.coefficient j = _
  rw [dictionary_pivotAt hsolved hr hpivot,
    Dictionary.objective_coefficient_pivot (d := t.dictionary) hsolved (getElem?_dictionary_rows hr)]
  rfl

/-- The right-hand sides after a pivot. -/
theorem rhs?_pivotAt (hr : t.rows[row]? = some r) {i : ℕ} {s : Row ℚ} (hs : t.rows[i]? = some s) :
    (t.pivotAt row column).rhs? i = some (if i = row then r.rhs / r.coefficient column
      else s.rhs - s.coefficient column * (r.rhs / r.coefficient column)) := by
  simp only [rhs?, pivotAt, hr, List.getElem?_mapIdx, hs, Option.map_some, Option.some.injEq]
  split
  · rfl
  · exact Equation.rhs_eliminate _ _ _

/-- A pivot whose entry is past the tolerance is not refused. -/
theorem pivot_of_past (hpivotTolerance : t.pivotTolerance ≤ t.tolerance) (hr : t.rows[row]? = some r)
    (hcolumn : column < t.columnCount) (hpast : t.tolerance < |r.coefficient column|) :
    t.pivot row column = .ok (t.pivotAt row column) := by
  refine pivot_of_large (List.getElem?_eq_some_iff.mp hr).1 hcolumn ?_
  rw [coefficient, hr]
  exact hpivotTolerance.trans hpast.le

/-! ## Dual pivots -/

/-- The dual pivot that the rules make: on the leaving row, with the first candidate for it. -/
structure DualPivot (t : Tableau ℚ) (row : ℕ) (r : Row ℚ) (column : ℕ) : Prop where
  row_eq : t.rows[row]? = some r
  leaving : t.leavingRow? = some row
  entering : (t.enteringCandidates row).head?.map (·.column) = some column

/-- What the reduced cost of a column can lose on a dual pivot, beyond the slack. -/
def dualLoss (t : Tableau ℚ) (r : Row ℚ) (column : ℕ) (slack : ℚ) (j : ℕ) : ℚ :=
  pivotLoss (slack - t.tolerance * r.coefficient j) t.tolerance
    |t.reducedCost column / r.coefficient column| slack (r.coefficient j / r.coefficient column)

namespace DualPivot

/-- The candidate has a negative entry, and a ratio within the tolerance of all others. -/
theorem tied (h : t.DualPivot row r column) (htolerance : 0 ≤ t.tolerance) :
    column < r.coefficients.length ∧ r.coefficient column < -t.tolerance ∧
      ∀ j, r.coefficient j < -t.tolerance →
        |t.reducedCost column / r.coefficient column| ≤
          |t.reducedCost j / r.coefficient j| + t.tolerance := by
  obtain ⟨best, hbest, rfl⟩ := Option.map_eq_some_iff.mp h.entering
  obtain ⟨others, hcandidates⟩ := List.head?_eq_some_iff.mp hbest
  exact enteringCandidates_tightest htolerance h.row_eq hcandidates

/-- The pivot is not refused. -/
theorem accepted (h : t.DualPivot row r column) (hcanonical : t.dictionary.Canonical)
    (htolerance : 0 ≤ t.tolerance) (hpivotTolerance : t.pivotTolerance ≤ t.tolerance) :
    t.pivot row column = .ok (t.pivotAt row column) := by
  obtain ⟨hinside, hfalls, _⟩ := h.tied htolerance
  have hwidth := forall_mem_dictionary_rows.mp hcanonical.solved.width r (List.mem_of_getElem? h.row_eq)
  exact pivot_of_past hpivotTolerance h.row_eq (hinside.trans_eq hwidth)
    ((lt_neg.mp hfalls).trans_le (neg_le_abs _))

/-- The reduced costs after the pivot are below zero by at most the slack and the loss. -/
theorem neg_loss_le (h : t.DualPivot row r column) (hcanonical : t.dictionary.Canonical)
    (htolerance : 0 ≤ t.tolerance) {slack : ℚ} (hslack : 0 ≤ slack)
    (hcosts : ∀ j, -slack ≤ t.reducedCost j) (j : ℕ) :
    -(slack + t.dualLoss r column slack j) ≤ (t.pivotAt row column).reducedCost j := by
  obtain ⟨_, hfalls, hwithin⟩ := h.tied htolerance
  have hneg : r.coefficient column < 0 := hfalls.trans_le (neg_nonpos.mpr htolerance)
  have hsigns : t.reducedCost column * (r.coefficient j / r.coefficient column) =
      -r.coefficient j * (t.reducedCost column / -r.coefficient column) := by
    rw [div_neg, neg_mul_neg, mul_div_assoc', mul_div_assoc', mul_comm]
  rw [reducedCost_pivotAt hcanonical.solved h.row_eq hneg.ne, hsigns, dualLoss,
    ← neg_div_neg_eq (r.coefficient j)]
  refine neg_pivotLoss_le (hcosts j) (hcosts column) (abs_nonneg _) (fun hup => ?_) fun hj => ?_
  · rw [div_neg, abs_of_nonpos (div_nonpos_of_nonneg_of_nonpos hup hneg.le)]
  · -- both ratios are those of a column with a negative entry
    have hentry : 0 < -r.coefficient j := htolerance.trans_lt hj
    have htie := mul_le_mul_of_nonneg_left (hwithin j (lt_neg.mp hj)) hentry.le
    have hown : -r.coefficient j * |t.reducedCost j / r.coefficient j| = |t.reducedCost j| := by
      rw [abs_div, abs_of_neg (neg_pos.mp hentry), mul_div_cancel₀ _ hentry.ne']
    have hsize : |t.reducedCost j| ≤ t.reducedCost j + 2 * slack :=
      abs_le.mpr ⟨by linarith [hcosts j], by linarith⟩
    linarith

/-- If slack and loss are within the tolerance, the tableau is dual feasible after the pivot. -/
theorem isDualFeasible (h : t.DualPivot row r column) (hcanonical : t.dictionary.Canonical)
    (htolerance : 0 ≤ t.tolerance) {slack : ℚ} (hslack : 0 ≤ slack)
    (hcosts : ∀ j, -slack ≤ t.reducedCost j)
    (hloss : ∀ j, slack + t.dualLoss r column slack j ≤ t.tolerance) :
    (t.pivotAt row column).isDualFeasible = true := by
  obtain ⟨_, _, hsame, _⟩ := settings_eq_iff.mp (settings_pivotAt t row column)
  rw [isDualFeasible_iff_le (hsame ▸ htolerance), hsame]
  intro j
  exact (neg_le_neg (hloss j)).trans (h.neg_loss_le hcanonical htolerance hslack hcosts j)

end DualPivot

/-! ## Primal pivots -/

/-- The primal pivot that the rules make: on the entering column, with the row that bounds it. -/
structure PrimalPivot (t : Tableau ℚ) (rule : EnteringRule) (row : ℕ) (r : Row ℚ) (column : ℕ) :
    Prop where
  row_eq : t.rows[row]? = some r
  entering : t.primalEntering? rule = some column
  leaving : t.primalLeaving? column = some row

/-- What the right-hand side of another row can lose on a primal pivot, beyond the slack. -/
def primalLoss (t : Tableau ℚ) (r s : Row ℚ) (column : ℕ) (slack : ℚ) : ℚ :=
  pivotLoss (t.tolerance * s.coefficient column) t.tolerance
    (max r.rhs 0 / r.coefficient column) slack (s.coefficient column / r.coefficient column)

namespace PrimalPivot

variable {rule : EnteringRule}

/-- The row has an entry past the tolerance, and a ratio within the tolerance of all others. -/
theorem tied (h : t.PrimalPivot rule row r column) (hcanonical : t.dictionary.Canonical)
    (htolerance : 0 ≤ t.tolerance) (hpivotTolerance : t.pivotTolerance ≤ t.tolerance) :
    t.tolerance < r.coefficient column ∧ ∀ s ∈ t.rows, t.tolerance < s.coefficient column →
      max r.rhs 0 / r.coefficient column ≤ max s.rhs 0 / s.coefficient column + t.tolerance := by
  have hentry : ∀ s ∈ t.rows, s.entry column = s.coefficient column := fun s hs =>
    Equation.entry_of_lt ((forall_mem_dictionary_rows.mp hcanonical.solved.width s hs).symm ▸
      (primalEntering?_eq_some h.entering).1)
  have hthreshold : t.ratioThreshold = t.tolerance := by
    rw [ratioThreshold, Scalar.larger_rat, max_eq_left hpivotTolerance]
  obtain ⟨q, hq, hpast, hwithin⟩ := primalLeaving?_tightest htolerance h.leaving
  cases hq.symm.trans h.row_eq
  have hmem := List.mem_of_getElem? h.row_eq
  rw [hthreshold, hentry r hmem] at hpast
  refine ⟨hpast, fun s hs hlarge => ?_⟩
  have hratio := hwithin s hs (by rwa [hthreshold, hentry s hs])
  rwa [hentry r hmem, hentry s hs] at hratio

/-- The pivot is not refused. -/
theorem accepted (h : t.PrimalPivot rule row r column) (hcanonical : t.dictionary.Canonical)
    (htolerance : 0 ≤ t.tolerance) (hpivotTolerance : t.pivotTolerance ≤ t.tolerance) :
    t.pivot row column = .ok (t.pivotAt row column) := by
  obtain ⟨hpast, _⟩ := h.tied hcanonical htolerance hpivotTolerance
  exact pivot_of_past hpivotTolerance h.row_eq (primalEntering?_eq_some h.entering).1
    (hpast.trans_le (le_abs_self _))

/-- The right-hand sides of the other rows after the pivot are below zero by at most the slack and the
loss. -/
theorem neg_loss_le (h : t.PrimalPivot rule row r column) (hcanonical : t.dictionary.Canonical)
    (htolerance : 0 ≤ t.tolerance) (hpivotTolerance : t.pivotTolerance ≤ t.tolerance) {slack : ℚ}
    (hslack : 0 ≤ slack) (hrhs : ∀ s ∈ t.rows, -slack ≤ s.rhs) {s : Row ℚ} (hs : s ∈ t.rows) :
    -(slack + t.primalLoss r s column slack) ≤
      s.rhs - s.coefficient column * (r.rhs / r.coefficient column) := by
  obtain ⟨hpast, hwithin⟩ := h.tied hcanonical htolerance hpivotTolerance
  have hpositive : 0 < r.coefficient column := htolerance.trans_lt hpast
  rw [primalLoss]
  refine neg_pivotLoss_le (hrhs s hs) (hrhs r (List.mem_of_getElem? h.row_eq))
    (div_nonneg (le_max_right _ _) hpositive.le) (fun hup => by rw [max_eq_left hup]) fun hlarge => ?_
  have hentry : 0 < s.coefficient column := htolerance.trans_lt hlarge
  have htie := mul_le_mul_of_nonneg_left (hwithin s hs hlarge) hentry.le
  have hown : s.coefficient column * (max s.rhs 0 / s.coefficient column) = max s.rhs 0 :=
    mul_div_cancel₀ _ hentry.ne'
  have hsize : max s.rhs 0 ≤ s.rhs + slack := max_le (by linarith) (by linarith [hrhs s hs])
  linarith

/-- The right-hand side of the row itself after the pivot is below zero by at most the slack over the
entry. -/
theorem neg_le_own (h : t.PrimalPivot rule row r column) (hcanonical : t.dictionary.Canonical)
    (htolerance : 0 ≤ t.tolerance) (hpivotTolerance : t.pivotTolerance ≤ t.tolerance) {slack : ℚ}
    (hrhs : ∀ s ∈ t.rows, -slack ≤ s.rhs) :
    -(slack / r.coefficient column) ≤ r.rhs / r.coefficient column := by
  obtain ⟨hpast, _⟩ := h.tied hcanonical htolerance hpivotTolerance
  rw [← neg_div]
  exact div_le_div_of_nonneg_right (hrhs r (List.mem_of_getElem? h.row_eq)) (htolerance.trans hpast.le)

/-- If slack and loss are within the tolerance, the tableau is primal feasible after the pivot. -/
theorem isPrimalFeasible (h : t.PrimalPivot rule row r column) (hcanonical : t.dictionary.Canonical)
    (htolerance : 0 ≤ t.tolerance) (hpivotTolerance : t.pivotTolerance ≤ t.tolerance) {slack : ℚ}
    (hslack : 0 ≤ slack) (hrhs : ∀ s ∈ t.rows, -slack ≤ s.rhs)
    (hown : slack / r.coefficient column ≤ t.tolerance)
    (hloss : ∀ s ∈ t.rows, slack + t.primalLoss r s column slack ≤ t.tolerance) :
    (t.pivotAt row column).isPrimalFeasible = true := by
  obtain ⟨_, _, hsame, _⟩ := settings_eq_iff.mp (settings_pivotAt t row column)
  rw [isPrimalFeasible_iff_le, hsame]
  intro after hafter
  obtain ⟨i, hi⟩ := List.mem_iff_getElem?.mp hafter
  have hinside : i < t.rowCount := by
    rw [← rowCount_pivotAt t row column]
    exact (List.getElem?_eq_some_iff.mp hi).1
  have hs : t.rows[i]? = some t.rows[i] := List.getElem?_eq_getElem hinside
  have hvalue : (t.pivotAt row column).rhs? i = _ := rhs?_pivotAt h.row_eq hs
  rw [rhs?, hi, Option.map_some, Option.some.injEq] at hvalue
  rw [hvalue]
  split
  · exact (neg_le_neg hown).trans (h.neg_le_own hcanonical htolerance hpivotTolerance hrhs)
  · have hmem := List.mem_of_getElem? hs
    exact (neg_le_neg (hloss _ hmem)).trans
      (h.neg_loss_le hcanonical htolerance hpivotTolerance hslack hrhs hmem)

end PrimalPivot

/-! ## What each kind of pivot keeps -/

/-- What a dual pivot keeps of dual feasibility: everything up to slack and loss. Without a tolerance
nothing is lost, and with one the loss is within it if no reduced cost is negative, no entry of the row
is below minus one, and the ratio is at most one. -/
structure KeepsPriced (t : Tableau ℚ) (r : Row ℚ) (column : ℕ) (next : Tableau ℚ) : Prop where
  reducedCosts : ∀ slack, 0 ≤ slack → (∀ j, -slack ≤ t.reducedCost j) →
    ∀ j, -(slack + t.dualLoss r column slack j) ≤ next.reducedCost j
  withoutTolerance : t.tolerance = 0 → t.isDualFeasible = true → next.isDualFeasible = true
  smallEntries : (∀ j, 0 ≤ t.reducedCost j) → (∀ j, -1 ≤ r.coefficient j) →
    |t.reducedCost column / r.coefficient column| ≤ 1 → next.isDualFeasible = true

/-- What a primal pivot keeps of primal feasibility: everything up to slack and loss. Without a tolerance
nothing is lost, and with one the loss is within it if no right-hand side is negative, no entry of the
column is above one, and the ratio is at most one. -/
structure KeepsFeasible (t : Tableau ℚ) (row : ℕ) (r : Row ℚ) (column : ℕ) (next : Tableau ℚ) :
    Prop where
  own : ∀ slack, 0 ≤ slack → (∀ s ∈ t.rows, -slack ≤ s.rhs) →
    ∃ value, next.rhs? row = some value ∧ -(slack / r.coefficient column) ≤ value
  others : ∀ slack, 0 ≤ slack → (∀ s ∈ t.rows, -slack ≤ s.rhs) →
    ∀ i ≠ row, ∀ s, t.rows[i]? = some s →
      ∃ value, next.rhs? i = some value ∧ -(slack + t.primalLoss r s column slack) ≤ value
  withoutTolerance : t.tolerance = 0 → t.isPrimalFeasible = true → next.isPrimalFeasible = true
  smallEntries : (∀ s ∈ t.rows, 0 ≤ s.rhs) → (∀ s ∈ t.rows, s.coefficient column ≤ 1) →
    max r.rhs 0 / r.coefficient column ≤ 1 → next.isPrimalFeasible = true

/-- A dual pivot keeps the reduced costs up to slack and loss. -/
theorem DualPivot.keepsPriced (h : t.DualPivot row r column) (hcanonical : t.dictionary.Canonical)
    (htolerance : 0 ≤ t.tolerance) : t.KeepsPriced r column (t.pivotAt row column) where
  reducedCosts _ hslack hcosts := h.neg_loss_le hcanonical htolerance hslack hcosts
  withoutTolerance hzero hdual := by
    have hcosts := (isDualFeasible_iff_le htolerance).mp hdual
    refine h.isDualFeasible hcanonical htolerance htolerance hcosts fun j => ?_
    simp [dualLoss, pivotLoss, hzero]
  smallEntries hcosts hentries hratio := by
    refine h.isDualFeasible hcanonical htolerance le_rfl (by simpa using hcosts) fun j => ?_
    rw [zero_add]
    refine max_le ?_ (max_le (mul_le_of_le_one_right htolerance hratio) ?_)
    · have hentry := mul_le_mul_of_nonneg_left (hentries j) htolerance
      linarith
    · rw [zero_mul]
      exact htolerance

/-- A primal pivot keeps the right-hand sides up to slack and loss. -/
theorem PrimalPivot.keepsFeasible {rule : EnteringRule} (h : t.PrimalPivot rule row r column)
    (hcanonical : t.dictionary.Canonical) (htolerance : 0 ≤ t.tolerance)
    (hpivotTolerance : t.pivotTolerance ≤ t.tolerance) :
    t.KeepsFeasible row r column (t.pivotAt row column) where
  own _ _ hrhs := ⟨_, rhs?_pivotAt h.row_eq h.row_eq, by
    rw [if_pos rfl]
    exact h.neg_le_own hcanonical htolerance hpivotTolerance hrhs⟩
  others _ hslack hrhs i hi s hs := ⟨_, rhs?_pivotAt h.row_eq hs, by
    rw [if_neg hi]
    exact h.neg_loss_le hcanonical htolerance hpivotTolerance hslack hrhs (List.mem_of_getElem? hs)⟩
  withoutTolerance hzero hprimal := by
    have hrhs := isPrimalFeasible_iff_le.mp hprimal
    refine h.isPrimalFeasible hcanonical htolerance hpivotTolerance htolerance hrhs ?_ fun s _ => ?_
    · simp [hzero]
    · simp [primalLoss, pivotLoss, hzero]
  smallEntries hrhs hentries hratio := by
    refine h.isPrimalFeasible hcanonical htolerance hpivotTolerance le_rfl (by simpa using hrhs) ?_
      fun s hs => ?_
    · simpa using htolerance
    · rw [zero_add]
      refine max_le (mul_le_of_le_one_right htolerance (hentries s hs))
        (max_le (mul_le_of_le_one_right htolerance hratio) ?_)
      rw [zero_mul]
      exact htolerance

/-- Each kind of pivot is made, and keeps its own feasibility up to a loss that the tolerance, the entries
and the ratio bound. -/
theorem pivots_keep_feasibility_up_to_loss (t : Tableau ℚ) (hcanonical : t.dictionary.Canonical)
    (htolerance : 0 ≤ t.tolerance) (hpivotTolerance : t.pivotTolerance ≤ t.tolerance) :
    (∀ row r column, t.DualPivot row r column →
        ∃ next, t.pivot row column = .ok next ∧ t.KeepsPriced r column next) ∧
      ∀ rule row r column, t.PrimalPivot rule row r column →
        ∃ next, t.pivot row column = .ok next ∧ t.KeepsFeasible row r column next :=
  ⟨fun _ _ _ h => ⟨_, h.accepted hcanonical htolerance hpivotTolerance,
      h.keepsPriced hcanonical htolerance⟩,
    fun _ _ _ _ h => ⟨_, h.accepted hcanonical htolerance hpivotTolerance,
      h.keepsFeasible hcanonical htolerance hpivotTolerance⟩⟩

/-- A dual pivot on two ratios that are tied, the lower one with the larger entry. The other reduced cost
loses all that the bound allows. -/
theorem whole_loss_of_tied_ratios :
    let t := (LinearProgram.ofMatrix [[1, 0]] [2] [-1 / 1024, 0]).slackTableau.afterEdits
      [.setTolerances (some (1 / 1024)) (some 0), .appendRow [-1, -4] (-1)]
    t.dictionary.Canonical ∧ 0 ≤ t.tolerance ∧ t.pivotTolerance ≤ t.tolerance ∧
      ∃ r next, t.DualPivot 1 r 0 ∧ t.pivot 1 0 = .ok next ∧ t.KeepsPriced r 0 next ∧
        next.reducedCost 1 = -(0 + t.dualLoss r 0 0 1) := by
  intro t
  have hcanonical : t.dictionary.Canonical :=
    ⟨⟨by decide +kernel, by decide +kernel, by decide +kernel, by decide +kernel⟩, by decide +kernel⟩
  have htolerance : 0 ≤ t.tolerance := by decide +kernel
  have hpivotTolerance : t.pivotTolerance ≤ t.tolerance := by decide +kernel
  have hrow : t.rows[1]? = some (t.rows.get ⟨1, by decide +kernel⟩) := List.getElem?_eq_getElem _
  have hdual : t.DualPivot 1 (t.rows.get ⟨1, by decide +kernel⟩) 0 :=
    ⟨hrow, by decide +kernel, by decide +kernel⟩
  obtain ⟨next, hnext, hkeeps⟩ :=
    (pivots_keep_feasibility_up_to_loss t hcanonical htolerance hpivotTolerance).1 _ _ _ hdual
  refine ⟨hcanonical, htolerance, hpivotTolerance, _, next, hdual, hnext, hkeeps, ?_⟩
  rw [(pivot_eq_ok_iff.mp hnext).2.2.2]
  decide +kernel

/-- A dual pivot that ends dual feasibility, and a primal pivot that ends primal feasibility. In both the
choice is tied with a lower ratio, and the entry of that one is four times the pivot. -/
theorem feasibility_lost_by_ties :
    let t := (LinearProgram.ofMatrix [[1, 0]] [2] [-1 / 1024, 0]).slackTableau.afterEdits
      [.setTolerances (some (1 / 1024)) (some 0), .appendRow [-1, -4] (-1)]
    let u := (LinearProgram.ofMatrix [[1], [4]] [1 / 1024, 0] [1]).slackTableau.afterEdits
      [.setTolerances (some (1 / 1024)) (some 0)]
    (t.dictionary.Canonical ∧ 0 ≤ t.tolerance ∧ t.pivotTolerance ≤ t.tolerance ∧
        t.isDualFeasible = true ∧ ∃ r next, t.DualPivot 1 r 0 ∧ t.pivot 1 0 = .ok next ∧
          next.isDualFeasible = false) ∧
      u.dictionary.Canonical ∧ 0 ≤ u.tolerance ∧ u.pivotTolerance ≤ u.tolerance ∧
        u.isPrimalFeasible = true ∧ ∃ r next, u.PrimalPivot .dantzig 0 r 0 ∧ u.pivot 0 0 = .ok next ∧
          next.isPrimalFeasible = false := by
  intro t u
  constructor
  · have hrow : t.rows[1]? = some (t.rows.get ⟨1, by decide +kernel⟩) := List.getElem?_eq_getElem _
    have hpivot : t.pivot 1 0 = .ok (t.pivotAt 1 0) :=
      pivot_eq_ok_iff.mpr ⟨by decide +kernel, by decide +kernel, by decide +kernel, rfl⟩
    exact ⟨⟨⟨by decide +kernel, by decide +kernel, by decide +kernel, by decide +kernel⟩,
      by decide +kernel⟩, by decide +kernel, by decide +kernel, by decide +kernel, _, _,
      ⟨hrow, by decide +kernel, by decide +kernel⟩, hpivot, by decide +kernel⟩
  · have hrow : u.rows[0]? = some (u.rows.get ⟨0, by decide +kernel⟩) := List.getElem?_eq_getElem _
    have hpivot : u.pivot 0 0 = .ok (u.pivotAt 0 0) :=
      pivot_eq_ok_iff.mpr ⟨by decide +kernel, by decide +kernel, by decide +kernel, rfl⟩
    exact ⟨⟨⟨by decide +kernel, by decide +kernel, by decide +kernel, by decide +kernel⟩,
      by decide +kernel⟩, by decide +kernel, by decide +kernel, by decide +kernel, _, _,
      ⟨hrow, by decide +kernel, by decide +kernel⟩, hpivot, by decide +kernel⟩

end Tableau

end WarmSimplex
