import WarmSimplex.Proofs.Dictionary.Pivot
import WarmSimplex.Tableau.Pivot

/-!
# The dictionary of a tableau

A tableau is a dictionary with labels. In exact arithmetic its pivots are those of the dictionary,
and repricing clears the basic columns of the objective, so what holds of dictionaries holds of
tableaus.

Labels, tolerances and the decision variables are not part of a dictionary. A pivot leaves them
alone.
-/

namespace WarmSimplex

open TwoPhase (BasicRow)

/-- The row without its label. -/
def Row.unlabelled (r : Row ℚ) : BasicRow ℚ := { toEquation := r.toEquation, basic := r.basic }

/-- Reducing an equation clears its basic columns. -/
theorem Equation.reduce_eq_clearBasis {columns : ℕ} {rows : List (Row ℚ)} {e : Equation ℚ}
    (he : e.coefficients.length = columns)
    (hwidth : ∀ r ∈ rows, r.coefficients.length = columns)
    (hown : ∀ r ∈ rows, r.coefficient r.basic = 1) :
    e.reduce rows = clearBasis e (rows.map Row.unlabelled) := by
  induction rows generalizing e with
  | nil => rfl
  | cons r rest ih =>
    have hr : r.coefficients.length = e.coefficients.length := by
      rw [hwidth r List.mem_cons_self, he]
    have hstep : e.eliminate r.toEquation r.basic =
        e.subtractMultiple (e.coefficient r.basic) r.toEquation :=
      Equation.eliminate_eq_subtractMultiple hr (hown r List.mem_cons_self)
    rw [Equation.reduce, List.foldl_cons, ← Equation.reduce, hstep,
      ih (by simp [he, hr]) (fun s hs => hwidth s (List.mem_cons_of_mem _ hs))
        (fun s hs => hown s (List.mem_cons_of_mem _ hs))]
    rfl

namespace Tableau

/-- The rows without their labels, and the objective row. -/
def dictionary (t : Tableau ℚ) : Dictionary := ⟨t.rows.map Row.unlabelled, t.objective⟩

/-- The point meets every row. -/
def Holds (t : Tableau ℚ) (v : ℕ → ℚ) : Prop := ∀ r ∈ t.rows, r.Holds v

variable {t : Tableau ℚ} {row column : ℕ} {r : Row ℚ}

/-- The rows of the dictionary are the rows of the tableau. -/
theorem forall_mem_dictionary_rows {P : BasicRow ℚ → Prop} :
    (∀ r ∈ t.dictionary.rows, P r) ↔ ∀ r ∈ t.rows, P r.unlabelled :=
  List.forall_mem_map

/-- The dictionary has the solutions of the tableau. -/
theorem holds_dictionary {v : ℕ → ℚ} : t.dictionary.Holds v ↔ t.Holds v :=
  forall_mem_dictionary_rows

/-- A row of the tableau is a row of the dictionary. -/
theorem getElem?_dictionary_rows (hr : t.rows[row]? = some r) :
    t.dictionary.rows[row]? = some r.unlabelled := by
  rw [dictionary, List.getElem?_map, hr]
  rfl

/-- The value of a column is its value at the basic point. -/
theorem value_eq_basicPoint (t : Tableau ℚ) (column : ℕ) :
    t.value column = t.dictionary.basicPoint column := by
  have hfind : t.dictionary.rows.find? (·.basic == column) =
      (t.rows.find? (·.basic == column)).map Row.unlabelled := by
    rw [dictionary, List.find?_map]
    rfl
  rw [value, Dictionary.basicPoint, hfind]
  cases t.rows.find? (·.basic == column) <;> rfl

/-- A column is basic in the dictionary if it is in the tableau. -/
theorem basis_dictionary (t : Tableau ℚ) : t.dictionary.rows.map (·.basic) = t.basis := by
  rw [dictionary, List.map_map]
  rfl

/-- In exact arithmetic a pivot of the tableau is one of its dictionary. -/
theorem dictionary_pivotAt (ht : SolvedRows t.columnCount t.dictionary.rows)
    (hr : t.rows[row]? = some r) (hpivot : r.coefficient column ≠ 0) :
    (t.pivotAt row column).dictionary = t.dictionary.pivot row column := by
  have hmem : r ∈ t.rows := List.mem_of_getElem? hr
  have hwidth := forall_mem_dictionary_rows.mp ht.width
  have hsolved : r.normalize column = r.divide (r.coefficient column) :=
    Equation.normalize_eq_divide hpivot
  have hone : (r.divide (r.coefficient column)).coefficient column = 1 := by
    rw [Equation.coefficient_divide, div_self hpivot]
  have hlength : (r.divide (r.coefficient column)).coefficients.length = t.columnCount := by
    rw [Equation.length_divide]
    exact hwidth r hmem
  have hobjective : t.objective.eliminate (r.normalize column) column =
      t.objective.subtractMultiple (t.objective.coefficient column)
        (r.divide (r.coefficient column)) := by
    rw [hsolved]
    exact Equation.eliminate_eq_subtractMultiple hlength hone
  have hother : ∀ s ∈ t.rows, s.eliminate (r.normalize column) column =
      s.subtractMultiple (s.coefficient column) (r.divide (r.coefficient column)) := by
    intro s hs
    rw [hsolved]
    exact Equation.eliminate_eq_subtractMultiple (hlength.trans (hwidth s hs).symm) hone
  have hdictionary := getElem?_dictionary_rows hr
  simp only [dictionary, pivotAt, hr, Dictionary.pivot, List.getElem?_map, Option.map_some,
    Dictionary.mk.injEq]
  constructor
  · apply List.ext_getElem (by simp)
    intro i hi _
    have hi : i < t.rows.length := by simpa using hi
    rcases eq_or_ne i row with rfl | hne
    · simp [Row.solveFor, Row.unlabelled, hsolved]
    · simp [hne, Row.clear, Row.unlabelled, Row.solveFor, hother _ (List.getElem_mem hi)]
  · exact hobjective

/-- Repricing clears the basic columns of the objective. -/
theorem dictionary_reprice (ht : SolvedRows t.columnCount t.dictionary.rows) :
    t.reprice.dictionary =
      ⟨t.dictionary.rows, clearBasis t.objective t.dictionary.rows⟩ := by
  have hwidth := forall_mem_dictionary_rows.mp ht.width
  have hown := forall_mem_dictionary_rows.mp ht.own
  simp only [dictionary, reprice, withObjective, Dictionary.mk.injEq, true_and]
  exact Equation.reduce_eq_clearBasis rfl hwidth hown

/-! ## What a pivot leaves alone -/

/-- A pivot keeps the label of each row. -/
theorem labels_pivotAt {α : Type} [Scalar α] (t : Tableau α) (row column : ℕ) :
    (t.pivotAt row column).rows.map (·.label) = t.rows.map (·.label) := by
  simp only [pivotAt]
  split
  · rfl
  · rename_i r hr
    apply List.ext_getElem (by simp)
    intro i _ _
    rcases eq_or_ne i row with rfl | hne
    · obtain ⟨hi, rfl⟩ := List.getElem?_eq_some_iff.mp hr
      simp [Row.solveFor]
    · simp [hne, Row.clear]

/-- What pivots leave alone besides the labels. -/
structure Settings (α : Type) where
  decisions : List (Decision α)
  sense : Sense
  tolerance : α
  pivotTolerance : α

/-- The decision variables, the sense and the tolerances of a tableau. -/
def settings {α : Type} (t : Tableau α) : Settings α :=
  ⟨t.decisions, t.sense, t.tolerance, t.pivotTolerance⟩

/-- A pivot keeps the decision variables, the sense and the tolerances. -/
@[simp] theorem settings_pivotAt {α : Type} [Scalar α] (t : Tableau α) (row column : ℕ) :
    (t.pivotAt row column).settings = t.settings := by
  simp only [pivotAt]
  split <;> rfl

/-- The settings decide each of their parts. -/
theorem settings_eq_iff {α : Type} {t u : Tableau α} :
    t.settings = u.settings ↔ t.decisions = u.decisions ∧ t.sense = u.sense ∧
      t.tolerance = u.tolerance ∧ t.pivotTolerance = u.pivotTolerance := by
  simp [settings]

end Tableau

end WarmSimplex
