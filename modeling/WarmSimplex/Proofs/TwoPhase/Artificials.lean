import WarmSimplex.Proofs.TwoPhase.Start

/-!
# Artificial columns

The first phase maximizes the negated sum of the artificial columns. Its objective row is that of
the sum, with the basic columns cleared. If the sum can be brought to zero, the basic artificial
columns are zero too, so a row that is solved for one can be solved for another column without
changing any right-hand side; a row that mentions no other column says nothing about points and can
go.

Rows are dropped while the list is walked through. What has been passed is solved for columns that
are not artificial, and this is not touched again.
-/

namespace WarmSimplex.TwoPhase

/-! ## Objective rows in terms of the basis -/

section Clearing

variable {columns : ℕ} {rows : List (BasicRow ℚ)} {target : Equation ℚ}

/-- Repricing clears the basic columns. -/
theorem foldl_clearWith_eq_clearBasis (htarget : target.coefficients.length = columns)
    (hwidth : ∀ r ∈ rows, r.coefficients.length = columns) :
    rows.foldl (fun e r => clearWith e r.toEquation r.basic) target = clearBasis target rows := by
  induction rows generalizing target with
  | nil => rfl
  | cons r rest ih =>
    have hr : r.coefficients.length = target.coefficients.length := by
      rw [hwidth r List.mem_cons_self, htarget]
    rw [List.foldl_cons, clearWith_eq_subtractMultiple hr, clearBasis, List.foldl_cons,
      ← clearBasis]
    exact ih (by simp [htarget, hr]) fun s hs => hwidth s (List.mem_cons_of_mem _ hs)

/-- Subtracting the rows that are solved for an artificial column clears the basic columns, if
before it these have coefficient one and the other basic columns have none. -/
theorem foldl_subtract_eq_clearBasis {artificialStart : ℕ}
    (htarget : target.coefficients.length = columns) (hrows : SolvedRows columns rows)
    (hbasic : ∀ r ∈ rows, target.coefficient r.basic = if r.basic < artificialStart then 0 else 1) :
    rows.foldl (fun e r => if r.basic < artificialStart then e
      else e.subtractMultiple 1 r.toEquation) target = clearBasis target rows := by
  induction rows generalizing target with
  | nil => rfl
  | cons r rest ih =>
    have hr : r.coefficients.length = target.coefficients.length := by
      rw [hrows.width r List.mem_cons_self, htarget]
    have hstep : (if r.basic < artificialStart then target
        else target.subtractMultiple 1 r.toEquation) =
          target.subtractMultiple (target.coefficient r.basic) r.toEquation := by
      rw [hbasic r List.mem_cons_self]
      split
      · rw [Equation.subtractMultiple_zero hr]
      · rfl
    rw [List.foldl_cons, hstep, clearBasis, List.foldl_cons, ← clearBasis]
    refine ih (by simp [htarget, hr]) (hrows.sublist (List.sublist_cons_self r rest))
      fun s hs => ?_
    have hne : s.basic ≠ r.basic := by
      have hnodup := hrows.nodup
      rw [List.map_cons, List.nodup_cons] at hnodup
      intro heq
      exact hnodup.1 (heq ▸ List.mem_map_of_mem hs)
    rw [Equation.coefficient_subtractMultiple _ hr,
      hrows.other r List.mem_cons_self s (List.mem_cons_of_mem _ hs) hne, mul_zero, sub_zero,
      hbasic s (List.mem_cons_of_mem _ hs)]

end Clearing

namespace Workspace

section Costs

variable {α : Type} [Scalar α] {w : Workspace α}

/-- The objective row of the first phase before the basic columns are cleared. -/
def artificialCosts (w : Workspace α) : Equation α :=
  ⟨List.replicate w.artificialStart 0 ++ List.replicate (w.columnCount - w.artificialStart) 1, 0⟩

/-- The costs of the first phase are as many as there are columns. -/
theorem length_artificialCosts (hcount : w.artificialStart ≤ w.columnCount) :
    w.artificialCosts.coefficients.length = w.columnCount := by
  simp only [artificialCosts, List.length_append, List.length_replicate]
  omega

/-- The costs of the first phase are one for the artificial columns. -/
theorem coefficient_artificialCosts {j : ℕ} (hj : j < w.columnCount) :
    w.artificialCosts.coefficient j = if j < w.artificialStart then 0 else 1 := by
  rw [artificialCosts, Equation.coefficient_append, List.length_replicate]
  split
  · rename_i hlow
    rw [List.getD_eq_getElem _ _ (by simpa using hlow), List.getElem_replicate]
  · rename_i hhigh
    rw [List.getD_eq_getElem _ _ (by rw [List.length_replicate]; omega), List.getElem_replicate]

/-- From these costs the rows of artificial columns are subtracted. -/
theorem artificialObjective_eq_foldl (w : Workspace α) : w.artificialObjective =
    w.rows.foldl (fun e r => if r.basic < w.artificialStart then e
      else e.subtractMultiple 1 r.toEquation) w.artificialCosts :=
  rfl

end Costs

variable {w later : Workspace ℚ} {v : ℕ → ℚ}

/-- The sum of the artificial columns. -/
def artificialSum (w : Workspace ℚ) (v : ℕ → ℚ) : ℚ :=
  ∑ k ∈ Finset.range (w.columnCount - w.artificialStart), v (w.artificialStart + k)

/-- The costs of the first phase add up to the artificial columns. -/
theorem gap_artificialCosts (w : Workspace ℚ) (v : ℕ → ℚ) :
    w.artificialCosts.gap v = -w.artificialSum v := by
  have hones : ∀ k ∈ Finset.range (w.columnCount - w.artificialStart),
      (List.replicate (w.columnCount - w.artificialStart) (1 : ℚ)).getD k 0 *
        v (w.artificialStart + k) = v (w.artificialStart + k) := by
    intro k hk
    rw [List.getD_eq_getElem _ _ (by simpa using hk), List.getElem_replicate, one_mul]
  have hzeros : (⟨List.replicate w.artificialStart 0, 0⟩ : Equation ℚ).eval v = 0 :=
    Equation.eval_zero _ v
  rw [Equation.gap, artificialCosts, Equation.eval_append, hzeros, List.length_replicate,
    List.length_replicate, Finset.sum_congr rfl hones, zero_add, zero_sub]
  rfl

/-- The artificial columns of a vector that stands for a point add up to zero. -/
theorem artificialSum_eq_zero (hv : ∀ j, w.artificialStart ≤ j → v j = 0) :
    w.artificialSum v = 0 :=
  Finset.sum_eq_zero fun _ _ => hv _ (Nat.le_add_right _ _)

/-- The workspace of the first phase. -/
def forFirstPhase (w : Workspace ℚ) : Workspace ℚ := { w with objective := w.artificialObjective }

/-- The objective row of the first phase is that of the artificial columns with the basic columns
cleared. -/
theorem artificialObjective_eq (hw : SolvedRows w.columnCount w.rows)
    (hcount : w.artificialStart ≤ w.columnCount) :
    w.artificialObjective = clearBasis w.artificialCosts w.rows := by
  have hlength := length_artificialCosts hcount
  exact foldl_subtract_eq_clearBasis hlength hw fun r hr => coefficient_artificialCosts (hw.inside hr)

/-- The first phase starts with a canonical workspace, whose objective row gives the negated sum of
the artificial columns. -/
theorem canonical_forFirstPhase (hw : SolvedRows w.columnCount w.rows)
    (hcount : w.artificialStart ≤ w.columnCount) :
    w.forFirstPhase.dictionary.Canonical ∧ w.forFirstPhase.columnCount = w.columnCount ∧
      ∀ v, w.dictionary.Holds v → w.forFirstPhase.objective.gap v = -w.artificialSum v := by
  have hlength := length_artificialCosts hcount
  have hobjective : w.forFirstPhase.objective = clearBasis w.artificialCosts w.rows :=
    artificialObjective_eq hw hcount
  have hcolumns : w.forFirstPhase.columnCount = w.columnCount := by
    rw [columnCount, hobjective, length_clearBasis hlength hw.width]
  refine ⟨⟨?_, fun r hr => ?_⟩, hcolumns, fun v hv => ?_⟩
  · change SolvedRows w.forFirstPhase.columnCount w.rows
    rwa [hcolumns]
  · change w.forFirstPhase.objective.coefficient r.basic = 0
    rw [hobjective, coefficient_clearBasis hlength hw hr]
  · rw [hobjective, gap_clearBasis hlength hw.width hv, gap_artificialCosts]

/-! ## Taking artificial columns out of the basis -/

/-- The second workspace has other rows for the same points: they are still solved, with right-hand
sides that are not negative, and zero where the basic column is artificial. -/
structure Clears (w later : Workspace ℚ) : Prop where
  solved : SolvedRows later.columnCount later.rows
  nonneg : ∀ r ∈ later.rows, 0 ≤ r.rhs
  idle : ∀ r ∈ later.rows, w.artificialStart ≤ r.basic → r.rhs = 0
  holds_iff : ∀ v, (∀ j, w.artificialStart ≤ j → v j = 0) →
    (later.dictionary.Holds v ↔ w.dictionary.Holds v)
  variableCount : later.variableCount = w.variableCount
  artificialStart : later.artificialStart = w.artificialStart
  columnCount : later.columnCount = w.columnCount

/-- Solving a row of an artificial column for another column keeps the points. -/
theorem Clears.pivot (h : w.Clears later) {row column : ℕ} {r : BasicRow ℚ}
    (hr : later.rows[row]? = some r) (hbasic : w.artificialStart ≤ r.basic)
    (hentry : r.coefficient column ≠ 0) : w.Clears (later.pivot row column) := by
  have hzero : r.rhs = 0 := h.idle r (List.mem_of_getElem? hr) hbasic
  have hdictionary := dictionary_pivot h.solved row column
  have hrows : (later.pivot row column).rows = (later.dictionary.pivot row column).rows :=
    congrArg Dictionary.rows hdictionary
  refine ⟨?_, fun t ht => ?_, fun t ht hartificial => ?_, fun v hv => ?_, ?_, ?_, ?_⟩
  · have hsolved := Dictionary.solvedRows_pivot (d := later.dictionary) h.solved hr hentry
    rwa [← hdictionary] at hsolved
  · rw [hrows] at ht
    rcases Dictionary.rhs_pivot_of_zero (d := later.dictionary) hr hzero ht with hrhs | ⟨s, hs, _, hrhs⟩
    · exact hrhs.ge
    · rw [hrhs]
      exact h.nonneg s hs
  · rw [hrows] at ht
    rcases Dictionary.rhs_pivot_of_zero (d := later.dictionary) hr hzero ht with
      hrhs | ⟨s, hs, hsame, hrhs⟩
    · exact hrhs
    · rw [hrhs]
      exact h.idle s hs (hsame ▸ hartificial)
  · rw [hdictionary, Dictionary.holds_pivot (d := later.dictionary) h.solved hr hentry]
    exact h.holds_iff v hv
  · rw [variableCount_pivot, h.variableCount]
  · rw [artificialStart_pivot, h.artificialStart]
  · rw [columnCount_pivot h.solved, h.columnCount]

/-- Dropping a row of an artificial column that mentions only artificial columns keeps the points. -/
theorem Clears.drop (h : w.Clears later) {row : ℕ} {r : BasicRow ℚ}
    (hr : later.rows[row]? = some r) (hbasic : w.artificialStart ≤ r.basic)
    (hredundant : ∀ j < w.artificialStart, r.coefficient j = 0) :
    w.Clears { later with rows := later.rows.eraseIdx row } := by
  have hsub : (later.rows.eraseIdx row).Sublist later.rows := List.eraseIdx_sublist _ _
  have hdropped : ∀ v, (∀ j, w.artificialStart ≤ j → v j = 0) → r.Holds v := by
    intro v hv
    rw [Equation.Holds, h.idle r (List.mem_of_getElem? hr) hbasic]
    apply Finset.sum_eq_zero
    intro j _
    by_cases hj : j < w.artificialStart
    · rw [hredundant j hj, zero_mul]
    · rw [hv j (not_lt.mp hj), mul_zero]
  refine ⟨h.solved.sublist hsub, fun s hs => h.nonneg s (hsub.subset hs),
    fun s hs => h.idle s (hsub.subset hs), fun v hv => ?_, h.variableCount, h.artificialStart,
    h.columnCount⟩
  rw [← h.holds_iff v hv]
  constructor
  · intro hall s hs
    obtain ⟨i, hi⟩ : ∃ i, later.rows[i]? = some s := List.mem_iff_getElem?.mp hs
    by_cases hrow : i = row
    · rw [hrow, hr, Option.some.injEq] at hi
      exact hi ▸ hdropped v hv
    · exact hall s (List.mem_eraseIdx_iff_getElem?.mpr ⟨i, hrow, hi⟩)
  · exact fun hall s hs => hall s (hsub.subset hs)

/-- A replacement is not artificial, and the row can be solved for it. -/
theorem replacement?_eq_some {r : BasicRow ℚ} {column : ℕ} (h : w.replacement? 0 r = some column) :
    column < w.artificialStart ∧ r.coefficient column ≠ 0 := by
  obtain ⟨hin, hentry, _⟩ := List.findIdx?_eq_some_iff_getElem.mp h
  rw [List.length_take] at hin
  refine ⟨by omega, ?_⟩
  rw [Equation.coefficient, List.getD_eq_getElem _ _ (by omega)]
  simpa [Scalar.abs_rat] using hentry

/-- A row without a replacement mentions artificial columns only. -/
theorem replacement?_eq_none {r : BasicRow ℚ} (h : w.replacement? 0 r = none) :
    ∀ j < w.artificialStart, r.coefficient j = 0 := by
  intro j hj
  by_cases hin : j < r.coefficients.length
  · have hmem : r.coefficients[j] ∈ r.coefficients.take w.artificialStart :=
      List.mem_take_iff_getElem.mpr ⟨j, by omega, rfl⟩
    rw [Equation.coefficient, List.getD_eq_getElem _ _ hin]
    simpa [Scalar.abs_rat] using List.findIdx?_eq_none_iff.mp h _ hmem
  · exact Equation.coefficient_eq_zero_of_le (not_lt.mp hin)

section Passed

variable {α : Type} {w : Workspace α}

/-- The rows before the given one are solved for columns that are not artificial. -/
def Passed (w : Workspace α) (rows : List (BasicRow α)) (row : ℕ) : Prop :=
  ∀ i < row, ∀ r, rows[i]? = some r → r.basic < w.artificialStart

/-- Once all rows are passed, no artificial column is basic. -/
theorem Passed.all {rows : List (BasicRow α)} {row : ℕ} (h : w.Passed rows row)
    (hlength : rows.length ≤ row) : ∀ r ∈ rows, r.basic < w.artificialStart := by
  intro r hr
  obtain ⟨i, hi⟩ := List.mem_iff_getElem?.mp hr
  exact h i ((List.getElem?_eq_some_iff.mp hi).1.trans_le hlength) r hi

/-- The next row is passed if its basic column is not artificial. -/
theorem Passed.succ {rows : List (BasicRow α)} {row : ℕ} (h : w.Passed rows row)
    (hrow : ∀ r, rows[row]? = some r → r.basic < w.artificialStart) : w.Passed rows (row + 1) := by
  intro i hi r hr
  rcases Nat.lt_succ_iff_lt_or_eq.mp hi with hlow | rfl
  · exact h i hlow r hr
  · exact hrow r hr

/-- A pivot changes the basic column of its row only, so that the row is passed. -/
theorem Passed.pivot [Scalar α] {later : Workspace α} {row column : ℕ} (h : w.Passed later.rows row)
    (hcolumn : column < w.artificialStart) : w.Passed (later.pivot row column).rows (row + 1) := by
  intro i hi r hr
  have hbasic : ((later.rows.map (·.basic)).set row column)[i]? = some r.basic := by
    rw [← basis_pivot, List.getElem?_map, hr]
    rfl
  by_cases hrow : row = i
  · rw [List.getElem?_set, if_pos hrow] at hbasic
    split at hbasic
    · rwa [← Option.some.inj hbasic]
    · cases hbasic
  · rw [List.getElem?_set_ne hrow, List.getElem?_map, Option.map_eq_some_iff] at hbasic
    obtain ⟨s, hs, hsame⟩ := hbasic
    rw [← hsame]
    exact h i (by omega) s hs

/-- Removing the next row leaves the rows before it where they are. -/
theorem Passed.eraseIdx {rows : List (BasicRow α)} {row : ℕ} (h : w.Passed rows row) :
    w.Passed (rows.eraseIdx row) row := by
  intro i hi r hr
  rw [List.getElem?_eraseIdx_of_lt hi] at hr
  exact h i hi r hr

end Passed

/-- Walking through the rows takes every artificial column out of the basis and keeps the points. -/
theorem clears_dropArtificials {remaining row : ℕ} (h : w.Clears later)
    (hpassed : w.Passed later.rows row) (hlength : row + remaining = later.rows.length) :
    w.Clears (dropArtificials 0 remaining row later) ∧
      ∀ r ∈ (dropArtificials 0 remaining row later).rows, r.basic < w.artificialStart := by
  induction remaining generalizing row later with
  | zero => exact ⟨h, hpassed.all (by omega)⟩
  | succ remaining ih =>
    unfold dropArtificials
    split
    · rename_i hnone
      exact ⟨h, hpassed.all (List.getElem?_eq_none_iff.mp hnone)⟩
    · rename_i r hr
      by_cases hlow : r.basic < later.artificialStart
      · rw [if_pos hlow]
        refine ih h (hpassed.succ fun s hs => ?_) (by omega)
        rw [hr, Option.some.injEq] at hs
        rw [← hs, ← h.artificialStart]
        exact hlow
      · have hhigh : w.artificialStart ≤ r.basic := by
          rw [← h.artificialStart]
          exact not_lt.mp hlow
        rw [if_neg hlow]
        cases hreplacement : later.replacement? 0 r with
        | some column =>
          obtain ⟨hcolumn, hentry⟩ := replacement?_eq_some hreplacement
          rw [h.artificialStart] at hcolumn
          have hsame : (later.pivot row column).rows.length = later.rows.length := by
            simp [Workspace.pivot, hr]
          exact ih (h.pivot hr hhigh hentry) (hpassed.pivot hcolumn) (by omega)
        | none =>
          have hredundant := replacement?_eq_none hreplacement
          rw [h.artificialStart] at hredundant
          have hrow : row < later.rows.length := by omega
          refine ih (h.drop hr hhigh hredundant) hpassed.eraseIdx ?_
          rw [List.length_eraseIdx_of_lt hrow]
          omega

end Workspace

end WarmSimplex.TwoPhase
