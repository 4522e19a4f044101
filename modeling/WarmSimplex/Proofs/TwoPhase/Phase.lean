import Mathlib.Data.Prod.Lex
import WarmSimplex.Proofs.Dictionary.Pivot
import WarmSimplex.Proofs.Scan
import WarmSimplex.TwoPhase

/-!
# Phases of the two-phase method

A workspace is a dictionary with counters. In exact arithmetic and without a tolerance, a pivot of a
phase keeps the right-hand sides from becoming negative, so every workspace of a phase is the first
one in terms of another feasible basis. A phase ends at its limit, or where no column before its
bound has a negative reduced cost, or at such a column along which no basic column falls.

That the lowest eligible index is taken plays no part in this: it is for the number of pivots, not
for what they keep.
-/

namespace WarmSimplex.TwoPhase

/-- Clearing a column subtracts the multiple that clears it, also if this is none. -/
theorem clearWith_eq_subtractMultiple {target e : Equation ℚ}
    (hwidth : e.coefficients.length = target.coefficients.length) (column : ℕ) :
    clearWith target e column = target.subtractMultiple (target.coefficient column) e := by
  simp only [clearWith]
  split
  · rename_i hfactor
    have hzero : target.coefficient column = 0 := by simpa using hfactor
    rw [hzero, Equation.subtractMultiple_zero hwidth]
  · rfl

namespace Workspace

section Pivots

variable {α : Type} [Scalar α]

/-- A pivot keeps the number of variables. -/
@[simp] theorem variableCount_pivot (w : Workspace α) (row column : ℕ) :
    (w.pivot row column).variableCount = w.variableCount := by
  simp only [pivot]
  split <;> rfl

/-- A pivot keeps the place of the artificial columns. -/
@[simp] theorem artificialStart_pivot (w : Workspace α) (row column : ℕ) :
    (w.pivot row column).artificialStart = w.artificialStart := by
  simp only [pivot]
  split <;> rfl

/-- A pivot keeps the number of rows. -/
@[simp] theorem length_rows_pivot (w : Workspace α) (row column : ℕ) :
    (w.pivot row column).rows.length = w.rows.length := by
  simp only [pivot]
  split <;> simp

/-- A pivot puts its column in the place of the row in the basis. -/
theorem basis_pivot (w : Workspace α) (row column : ℕ) :
    (w.pivot row column).rows.map (·.basic) = (w.rows.map (·.basic)).set row column := by
  cases hr : w.rows[row]? with
  | none =>
    rw [List.set_eq_of_length_le (by simpa using List.getElem?_eq_none_iff.mp hr)]
    simp only [pivot, hr]
  | some r =>
    apply List.ext_getElem (by simp [pivot, hr])
    intro i _ _
    by_cases hi : i = row
    · simp [pivot, hr, hi]
    · simp [pivot, hr, hi, Ne.symm hi]

/-- A pivot takes only its column into the basis. -/
theorem basic_lt_pivot {w : Workspace α} {bound column : ℕ} (h : ∀ r ∈ w.rows, r.basic < bound)
    (hcolumn : column < bound) (row : ℕ) : ∀ r ∈ (w.pivot row column).rows, r.basic < bound := by
  intro r hr
  have hbasis : r.basic ∈ (w.rows.map (·.basic)).set row column := by
    rw [← basis_pivot]
    exact List.mem_map_of_mem hr
  rcases List.mem_or_eq_of_mem_set hbasis with hmem | rfl
  · obtain ⟨s, hs, hsame⟩ := List.mem_map.mp hmem
    exact hsame ▸ h s hs
  · exact hcolumn

end Pivots

/-- The rows and the objective row. -/
def dictionary (w : Workspace ℚ) : Dictionary := ⟨w.rows, w.objective⟩

variable {w : Workspace ℚ} {row column before : ℕ}

/-- In exact arithmetic a pivot of the workspace is one of its dictionary. -/
theorem dictionary_pivot (hw : SolvedRows w.columnCount w.rows) (row column : ℕ) :
    (w.pivot row column).dictionary = w.dictionary.pivot row column := by
  cases hr : w.rows[row]? with
  | none => simp only [dictionary, pivot, Dictionary.pivot, hr]
  | some r =>
    have hlength : (r.divide (r.coefficient column)).coefficients.length = w.columnCount := by
      rw [Equation.length_divide, hw.width r (List.mem_of_getElem? hr)]
    have hother : ∀ s ∈ w.rows, clearWith s.toEquation (r.divide (r.coefficient column)) column =
        s.subtractMultiple (s.coefficient column) (r.divide (r.coefficient column)) :=
      fun s hs => clearWith_eq_subtractMultiple (hlength.trans (hw.width s hs).symm) column
    simp only [dictionary, pivot, Dictionary.pivot, hr, Dictionary.mk.injEq]
    constructor
    · apply List.ext_getElem (by simp)
      intro i hi _
      have hi : i < w.rows.length := by simpa using hi
      rcases eq_or_ne i row with rfl | hne
      · simp
      · simp [hne, hother _ (List.getElem_mem hi)]
    · exact clearWith_eq_subtractMultiple hlength column

/-- A pivot keeps the number of columns. -/
theorem columnCount_pivot (hw : SolvedRows w.columnCount w.rows) (row column : ℕ) :
    (w.pivot row column).columnCount = w.columnCount := by
  have hcolumns := Dictionary.columns_pivot (d := w.dictionary) hw row column
  rwa [← dictionary_pivot hw] at hcolumns

/-! ## What the selections find -/

/-- The entering column lies before the bound and has a negative reduced cost. -/
theorem enteringColumn?_eq_some (h : w.enteringColumn? 0 before = some column) :
    column < before ∧ w.objective.coefficient column < 0 := by
  obtain ⟨hin, hcost, _⟩ := List.findIdx?_eq_some_iff_getElem.mp h
  rw [List.length_take] at hin
  refine ⟨by omega, ?_⟩
  rw [Equation.coefficient, List.getD_eq_getElem _ _ (by omega)]
  simpa using hcost

/-- There is no entering column only if no reduced cost before the bound is negative. -/
theorem enteringColumn?_eq_none (h : w.enteringColumn? 0 before = none) :
    ∀ j < before, 0 ≤ w.objective.coefficient j := by
  intro j hj
  by_cases hin : j < w.objective.coefficients.length
  · have hmem : w.objective.coefficients[j] ∈ w.objective.coefficients.take before :=
      List.mem_take_iff_getElem.mpr ⟨j, by omega, rfl⟩
    rw [Equation.coefficient, List.getD_eq_getElem _ _ hin]
    simpa using List.findIdx?_eq_none_iff.mp h _ hmem
  · rw [Equation.coefficient_eq_zero_of_le (not_lt.mp hin)]

/-- No column before the entering one has a negative reduced cost. -/
theorem enteringColumn?_first (h : w.enteringColumn? 0 before = some column) :
    ∀ j < column, 0 ≤ w.objective.coefficient j := by
  obtain ⟨hin, _, hfirst⟩ := List.findIdx?_eq_some_iff_getElem.mp h
  rw [List.length_take] at hin
  intro j hj
  have hcost := hfirst j hj
  rw [Equation.coefficient, List.getD_eq_getElem _ _ (by omega)]
  simpa using hcost

/-- A bound beats another one without a tolerance if it comes first by ratio and basic column. -/
theorem Bound.beats_zero_iff (next held : Bound ℚ) :
    Bound.beats 0 next held = true ↔
      toLex (next.ratio, next.basic) < toLex (held.ratio, held.basic) := by
  simp only [Bound.beats, Bool.or_eq_true, Bool.and_eq_true, decide_eq_true_eq, sub_zero, add_zero,
    Prod.Lex.toLex_lt_toLex]
  constructor
  · rintro (hlower | ⟨hequal, hbasic⟩)
    · exact .inl hlower
    · exact hequal.lt_or_eq.imp_right fun hratio => ⟨hratio, hbasic⟩
  · exact Or.imp_right fun hsame => ⟨hsame.1.le, hsame.2⟩

/-- The leaving row bounds the increase of the column, and comes first by the bound and by the basic
column among the rows that do. -/
theorem leavingRow?_lowest (hnonneg : ∀ r ∈ w.rows, 0 ≤ r.rhs)
    (h : w.leavingRow? 0 column = some row) :
    ∃ r, w.rows[row]? = some r ∧ 0 < r.coefficient column ∧
      ∀ s ∈ w.rows, 0 < s.coefficient column →
        toLex (r.rhs / r.coefficient column, r.basic) ≤
          toLex (s.rhs / s.coefficient column, s.basic) := by
  have hlarger : ∀ r ∈ w.rows, Scalar.larger r.rhs 0 = r.rhs := fun r hr => by
    rw [Scalar.larger_rat, max_eq_left (hnonneg r hr)]
  obtain ⟨found, hscan, rfl⟩ := Option.map_eq_some_iff.mp h
  have hlowest := rank_le_of_scan_eq_some (fun b : Bound ℚ => toLex (b.ratio, b.basic))
    (fun next held hbeats => ((Bound.beats_zero_iff next held).mp hbeats).le)
    (fun next held hbeats => not_lt.mp fun hlt => by
      rw [(Bound.beats_zero_iff next held).mpr hlt] at hbeats
      cases hbeats) hscan
  obtain ⟨i, r, hr, hpositive, rfl⟩ :=
    (mem_filterMap_zipIdx fun _ _ => rfl).mp (mem_of_scan_eq_some hscan)
  refine ⟨r, hr, hpositive, fun s hs hrise => ?_⟩
  obtain ⟨k, hk⟩ := List.mem_iff_getElem?.mp hs
  have hbound := hlowest _ ((mem_filterMap_zipIdx fun _ _ => rfl).mpr ⟨k, s, hk, hrise, rfl⟩)
  rwa [hlarger r (List.mem_of_getElem? hr), hlarger s hs] at hbound

/-- The leaving row bounds the increase of the column, and no row bounds it more tightly. -/
theorem leavingRow?_eq_some (hnonneg : ∀ r ∈ w.rows, 0 ≤ r.rhs)
    (h : w.leavingRow? 0 column = some row) :
    ∃ r, w.rows[row]? = some r ∧ 0 < r.coefficient column ∧
      ∀ s ∈ w.rows, 0 < s.coefficient column →
        r.rhs / r.coefficient column ≤ s.rhs / s.coefficient column := by
  obtain ⟨r, hr, hpositive, hlowest⟩ := leavingRow?_lowest hnonneg h
  refine ⟨r, hr, hpositive, fun s hs hrise => ?_⟩
  rcases Prod.Lex.toLex_le_toLex.mp (hlowest s hs hrise) with hlower | ⟨hsame, _⟩
  · exact hlower.le
  · exact hsame.le

/-- There is no leaving row only if no row bounds the increase of the column. -/
theorem leavingRow?_eq_none (h : w.leavingRow? 0 column = none) :
    ∀ r ∈ w.rows, r.coefficient column ≤ 0 := by
  rw [leavingRow?, Option.map_eq_none_iff, scan_eq_none_iff] at h
  exact fun r hr => not_lt.mp ((filterMap_zipIdx_eq_nil_iff fun _ _ => rfl).mp h r hr)

/-! ## What a phase keeps -/

/-- The second workspace is the first one in terms of a feasible basis. -/
structure Rewrites (w later : Workspace ℚ) : Prop where
  canonical : later.dictionary.Canonical
  nonneg : ∀ r ∈ later.rows, 0 ≤ r.rhs
  holds_iff : ∀ v, later.dictionary.Holds v ↔ w.dictionary.Holds v
  gap : ∀ v, w.dictionary.Holds v → later.objective.gap v = w.objective.gap v
  variableCount : later.variableCount = w.variableCount
  artificialStart : later.artificialStart = w.artificialStart
  columnCount : later.columnCount = w.columnCount

/-- A workspace with a feasible basis is itself in terms of it. -/
theorem Rewrites.refl (hcanonical : w.dictionary.Canonical) (hnonneg : ∀ r ∈ w.rows, 0 ≤ r.rhs) :
    w.Rewrites w :=
  ⟨hcanonical, hnonneg, fun _ => Iff.rfl, fun _ _ => rfl, rfl, rfl, rfl⟩

/-- A pivot of a phase goes to another feasible basis. -/
theorem Rewrites.pivot {later : Workspace ℚ} (h : w.Rewrites later)
    (hrow : later.leavingRow? 0 column = some row) : w.Rewrites (later.pivot row column) := by
  obtain ⟨r, hr, hpositive, hratio⟩ := leavingRow?_eq_some h.nonneg hrow
  have hsolved : SolvedRows later.columnCount later.rows := h.canonical.solved
  have hdictionary := dictionary_pivot hsolved row column
  have hholds : ∀ v, (later.pivot row column).dictionary.Holds v ↔ later.dictionary.Holds v := by
    intro v
    rw [hdictionary]
    exact Dictionary.holds_pivot (d := later.dictionary) hsolved hr hpositive.ne' v
  refine ⟨?_, ?_, fun v => (hholds v).trans (h.holds_iff v), fun v hv => ?_, ?_, ?_, ?_⟩
  · rw [hdictionary]
    exact Dictionary.canonical_pivot h.canonical hr hpositive.ne'
  · have hnonneg := Dictionary.rhs_nonneg_pivot (d := later.dictionary) hr hpositive hratio h.nonneg
    rwa [← hdictionary] at hnonneg
  · have hgap := Dictionary.gap_pivot (d := later.dictionary) hsolved row column ((h.holds_iff v).mpr hv)
    rw [← hdictionary] at hgap
    exact hgap.trans (h.gap v hv)
  · rw [variableCount_pivot, h.variableCount]
  · rw [artificialStart_pivot, h.artificialStart]
  · rw [columnCount_pivot hsolved, h.columnCount]

/-- What every pivot of a phase keeps, the phase keeps. -/
theorem runPhase_induction {I : Workspace ℚ → Prop}
    (hstep : ∀ w row column, I w → w.enteringColumn? 0 before = some column →
      w.leavingRow? 0 column = some row → I (w.pivot row column))
    (budget : ℕ) (hw : I w) : I (w.runPhase 0 before budget).1 := by
  induction budget generalizing w with
  | zero =>
    unfold runPhase
    split <;> exact hw
  | succ budget ih =>
    unfold runPhase
    split
    · exact hw
    · rename_i column hcolumn
      split
      · exact hw
      · rename_i row hrow
        exact ih (hstep w row column hw hcolumn hrow)

/-- A phase goes to other feasible bases. -/
theorem rewrites_runPhase (hcanonical : w.dictionary.Canonical) (hnonneg : ∀ r ∈ w.rows, 0 ≤ r.rhs)
    (before budget : ℕ) : w.Rewrites (w.runPhase 0 before budget).1 :=
  runPhase_induction (fun _ _ _ h _ hrow => h.pivot hrow) budget (.refl hcanonical hnonneg)

/-- A phase takes only columns before its bound into the basis. -/
theorem basic_lt_runPhase (hbasic : ∀ r ∈ w.rows, r.basic < before) (budget : ℕ) :
    ∀ r ∈ (w.runPhase 0 before budget).1.rows, r.basic < before :=
  runPhase_induction (I := fun w => ∀ r ∈ w.rows, r.basic < before)
    (fun _ row _ hw hcolumn _ => basic_lt_pivot hw (enteringColumn?_eq_some hcolumn).1 row) budget hbasic

/-- A phase that ends optimal has no negative reduced cost before its bound. -/
theorem runPhase_optimal {budget : ℕ} (h : (w.runPhase 0 before budget).2 = .optimal) :
    ∀ j < before, 0 ≤ (w.runPhase 0 before budget).1.objective.coefficient j := by
  induction budget generalizing w with
  | zero =>
    unfold runPhase at h ⊢
    split
    · rename_i hnone
      exact enteringColumn?_eq_none hnone
    · rename_i hsome
      rw [hsome] at h
      cases h
  | succ budget ih =>
    unfold runPhase at h ⊢
    split
    · rename_i hnone
      exact enteringColumn?_eq_none hnone
    · rename_i column hcolumn
      rw [hcolumn] at h
      dsimp only at h
      split
      · rename_i hnone
        rw [hnone] at h
        cases h
      · rename_i row hrow
        rw [hrow] at h
        exact ih h

/-- A phase that ends unbounded has a column of negative reduced cost before its bound along which
no basic column falls. -/
theorem runPhase_unbounded {budget : ℕ} (h : (w.runPhase 0 before budget).2 = .unbounded) :
    ∃ column < before, (w.runPhase 0 before budget).1.objective.coefficient column < 0 ∧
      ∀ r ∈ (w.runPhase 0 before budget).1.rows, r.coefficient column ≤ 0 := by
  induction budget generalizing w with
  | zero =>
    unfold runPhase at h
    split at h <;> cases h
  | succ budget ih =>
    unfold runPhase at h ⊢
    split
    · rename_i hnone
      rw [hnone] at h
      cases h
    · rename_i column hcolumn
      rw [hcolumn] at h
      dsimp only at h
      split
      · rename_i hnone
        obtain ⟨hin, hcost⟩ := enteringColumn?_eq_some hcolumn
        exact ⟨column, hin, hcost, leavingRow?_eq_none hnone⟩
      · rename_i row hrow
        rw [hrow] at h
        exact ih h

end Workspace

end WarmSimplex.TwoPhase
