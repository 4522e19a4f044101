import WarmSimplex.Proofs.Access
import WarmSimplex.Proofs.TwoPhase.Artificials
import WarmSimplex.TwoPhase.Dense

/-!
# A workspace on plain rows

The rows of a workspace, laid out as plain rows with the objective last and the basic columns beside
them. On such a layout every checked computation has a result, and it is the layout of what the workspace
computes. So nothing is read, written or removed that is not there.

All rows of the workspace have to be as wide as its objective, with their basic columns inside. Nothing
else is assumed, neither of the entries nor of the arithmetic.
-/

namespace WarmSimplex.TwoPhase

variable {α : Type}

/-! ## Rows and basic columns -/

/-- There is one more row than basic columns, and all rows have the width. -/
structure Dense.InShape (d : Dense α) (width : ℕ) : Prop where
  rows : d.data.length = d.basics.length + 1
  width : ∀ row ∈ d.data, row.length = width

namespace Workspace

/-- The rows of a workspace with the objective last, and the basic columns beside them. -/
def dense (w : Workspace α) : Dense α where
  data := w.rows.map (·.entries) ++ [w.objective.entries]
  basics := w.rows.map (·.basic)
  variableCount := w.variableCount
  artificialStart := w.artificialStart
  iterations := w.iterations

/-- The rows are as wide as the objective, with their basic columns inside. -/
structure Regular (w : Workspace α) : Prop where
  width : ∀ r ∈ w.rows, r.coefficients.length = w.columnCount
  basic_lt : ∀ r ∈ w.rows, r.basic < w.columnCount
  artificialStart_le : w.artificialStart ≤ w.columnCount

/-- The second workspace is regular, with the columns of the first one. -/
structure Within (first w : Workspace α) : Prop where
  regular : w.Regular
  columnCount : w.columnCount = first.columnCount
  artificialStart : w.artificialStart = first.artificialStart

section Within

variable {first w : Workspace α}

/-- A regular workspace has its own columns. -/
theorem Regular.within (h : w.Regular) : w.Within w :=
  ⟨h, rfl, rfl⟩

/-- Dropping a row keeps the width and the number of columns. -/
theorem Within.eraseIdx (h : first.Within w) (row : ℕ) :
    first.Within { w with rows := w.rows.eraseIdx row } := by
  have hsubset : w.rows.eraseIdx row ⊆ w.rows := (List.eraseIdx_sublist _ _).subset
  exact ⟨⟨fun r hr => h.regular.width r (hsubset hr), fun r hr => h.regular.basic_lt r (hsubset hr),
    h.regular.artificialStart_le⟩, h.columnCount, h.artificialStart⟩

/-- Another objective of the same width keeps the width and the number of columns. -/
theorem Within.withObjective (h : first.Within w) {e : Equation α}
    (he : e.coefficients.length = first.columnCount) : first.Within { w with objective := e } := by
  have hwidth : e.coefficients.length = w.columnCount := he.trans h.columnCount.symm
  exact ⟨⟨fun r hr => (h.regular.width r hr).trans hwidth.symm,
    fun r hr => (h.regular.basic_lt r hr).trans_eq hwidth.symm,
    h.regular.artificialStart_le.trans_eq hwidth.symm⟩, he, h.artificialStart⟩

end Within

section Access

variable {w : Workspace α} {row column i : ℕ} {r : BasicRow α} {entries : List α}

/-- What is laid out at an index: a row, or the objective after them. -/
theorem getElem?_data_dense : w.dense.data[i]? = some entries ↔
    (∃ r, w.rows[i]? = some r ∧ r.entries = entries) ∨
      i = w.rows.length ∧ w.objective.entries = entries := by
  rw [dense, List.getElem?_append, List.length_map]
  split
  · rename_i hlow
    simp [hlow, Nat.ne_of_lt hlow]
  · rename_i hhigh
    have hnone : w.rows[i]? = none := List.getElem?_eq_none (not_lt.mp hhigh)
    rw [List.getElem?_singleton, hnone]
    simp only [reduceCtorEq, false_and, exists_false, false_or]
    split
    · simp; omega
    · simp; omega

/-- A row is laid out at its place. -/
theorem data_dense_of_row (hr : w.rows[i]? = some r) : w.dense.data[i]? = some r.entries :=
  getElem?_data_dense.mpr (.inl ⟨r, hr, rfl⟩)

/-- The objective is laid out after the rows. -/
theorem data_dense_objective (w : Workspace α) :
    w.dense.data[w.rows.length]? = some w.objective.entries :=
  getElem?_data_dense.mpr (.inr ⟨rfl, rfl⟩)

/-- There is one more row than basic columns. -/
theorem length_data_dense (w : Workspace α) : w.dense.data.length = w.rows.length + 1 := by
  simp [dense]

/-- The basic column of a row is at its place. -/
theorem basics_dense (hr : w.rows[i]? = some r) : w.dense.basics[i]? = some r.basic := by
  simp [dense, hr]

/-- The place of the objective. -/
theorem objectiveIndex_dense (w : Workspace α) : w.dense.objectiveIndex = some w.rows.length := by
  rw [Dense.objectiveIndex, length_data_dense]
  rfl

/-- Dropping a row on plain rows. -/
theorem dropRow_dense (hrow : row < w.rows.length) :
    w.dense.dropRow row = some { w with rows := w.rows.eraseIdx row : Workspace α }.dense := by
  have hin : row < w.dense.data.length := by rw [length_data_dense]; omega
  have hbasics : row < w.dense.basics.length := by simpa [dense] using hrow
  simp only [Dense.dropRow, remove_eq_some hin, remove_eq_some hbasics, Option.bind_eq_bind,
    Option.bind_some]
  simp only [dense, List.eraseIdx_map, List.eraseIdx_append_of_lt_length
    (show row < (w.rows.map (·.entries)).length by simpa using hrow)]

/-- Writing the objective of a workspace. -/
theorem write_objective (w : Workspace α) (e : Equation α) :
    write w.dense.data w.rows.length e.entries =
      some { w with objective := e : Workspace α }.dense.data := by
  rw [write_eq_some (by rw [length_data_dense]; omega)]
  simp [dense]

namespace Regular

/-- All that is laid out has the width of the workspace. -/
theorem length_of_mem_data (h : w.Regular) (hentries : entries ∈ w.dense.data) :
    entries.length = w.columnCount + 1 := by
  obtain ⟨i, hi⟩ := List.mem_iff_getElem?.mp hentries
  rcases getElem?_data_dense.mp hi with ⟨r, hr, rfl⟩ | ⟨-, rfl⟩
  · rw [Equation.length_entries, h.width r (List.mem_of_getElem? hr)]
  · exact Equation.length_entries _

/-- The layout is in shape. -/
theorem inShape (h : w.Regular) : w.dense.InShape (w.columnCount + 1) :=
  ⟨by rw [length_data_dense]; simp [dense], fun _ hentries => h.length_of_mem_data hentries⟩

/-- The width of the first row. -/
theorem width_dense (h : w.Regular) : w.dense.width = some (w.columnCount + 1) := by
  have hin : 0 < w.dense.data.length := by rw [length_data_dense]; omega
  rw [Dense.width, List.getElem?_eq_getElem hin, Option.map_some,
    h.length_of_mem_data (List.getElem_mem hin)]

/-- The place of the right-hand side. -/
theorem rhsIndex_dense (h : w.Regular) : w.dense.rhsIndex = some w.columnCount := by
  rw [Dense.rhsIndex, h.width_dense]
  rfl

/-- The right-hand side of a row is its last entry. -/
theorem getElem?_rhs (h : w.Regular) (hr : w.rows[row]? = some r) :
    r.entries[w.columnCount]? = some r.rhs := by
  rw [← h.width r (List.mem_of_getElem? hr), Equation.entries, List.getElem?_concat_length]

end Regular

end Access

end Workspace

/-! ## Single rows -/

section Rows

variable [Scalar α] {target e : Equation α} {column : ℕ}

/-- Subtracting a multiple of a row of the same width. -/
theorem subtract_entries (factor : α) (hwidth : e.coefficients.length = target.coefficients.length) :
    Dense.subtract (target.coefficients.length + 1) factor e.entries target.entries =
      some (target.subtractMultiple factor e).entries := by
  rw [← Equation.length_entries, Dense.subtract]
  refine update_eq_some ?_ fun i t b ht hb => ?_
  · rw [Equation.length_entries, Equation.length_entries, Equation.length_subtractMultiple, hwidth, min_self]
  · rw [Equation.entries_subtractMultiple factor hwidth] at hb
    obtain ⟨_, a, htarget, hsource, rfl⟩ := List.getElem?_zipWith_eq_some.mp hb
    rw [ht, Option.some.injEq] at htarget
    rw [htarget, hsource, Option.map_some]

/-- Dividing all entries of a row. -/
theorem divide_entries (e : Equation α) (divisor : α) :
    update (e.coefficients.length + 1) (fun _ a => some (a / divisor)) e.entries =
      some (e.divide divisor).entries := by
  have hentries : (e.divide divisor).entries = e.entries.map (· / divisor) := by
    simp [Equation.entries, Equation.divide]
  rw [← Equation.length_entries, hentries]
  refine update_eq_some (List.length_map _) fun i a b ha hb => ?_
  rw [List.getElem?_map, ha] at hb
  exact hb

/-- Clearing a column that is there with a row of the same width. -/
theorem clear_entries (hwidth : e.coefficients.length = target.coefficients.length)
    (hcolumn : column < target.coefficients.length) :
    Dense.clear (target.coefficients.length + 1) column e.entries target.entries =
      some (clearWith target e column).entries := by
  rw [Dense.clear, Equation.getElem?_entries hcolumn, clearWith]
  simp only [Option.bind_eq_bind, Option.bind_some]
  split
  · rfl
  · exact subtract_entries _ hwidth

end Rows

namespace Workspace

variable [Scalar α] {w : Workspace α} {row column before : ℕ} {r : BasicRow α} {tolerance : α}

/-! ## Pivots -/

/-- The rows after a pivot. -/
theorem getElem?_rows_pivot (hr : w.rows[row]? = some r) (column i : ℕ) :
    (w.pivot row column).rows[i]? = w.rows[i]?.map fun other =>
      if i = row then { toEquation := r.divide (r.coefficient column), basic := column }
      else { other with
        toEquation := clearWith other.toEquation (r.divide (r.coefficient column)) column } := by
  simp only [pivot, hr, List.getElem?_mapIdx]

/-- The objective after a pivot. -/
theorem objective_pivot (hr : w.rows[row]? = some r) (column : ℕ) :
    (w.pivot row column).objective =
      clearWith w.objective (r.divide (r.coefficient column)) column := by
  simp only [pivot, hr]

/-- A pivot counts. -/
theorem iterations_pivot (hrow : row < w.rows.length) (column : ℕ) :
    (w.pivot row column).iterations = w.iterations + 1 := by
  simp only [pivot, List.getElem?_eq_getElem hrow]

/-- Clearing with an equation of the same width keeps the width. -/
theorem length_clearWith {target e : Equation α}
    (hwidth : e.coefficients.length = target.coefficients.length) (column : ℕ) :
    (clearWith target e column).coefficients.length = target.coefficients.length := by
  simp only [clearWith]
  split
  · rfl
  · rw [Equation.length_subtractMultiple, hwidth, min_self]

namespace Regular

/-- A pivot keeps the number of columns. -/
theorem columnCount_pivot (h : w.Regular) (row column : ℕ) :
    (w.pivot row column).columnCount = w.columnCount := by
  cases hr : w.rows[row]? with
  | none => simp only [pivot, hr]
  | some r =>
    rw [columnCount, objective_pivot hr]
    exact length_clearWith (by rw [Equation.length_divide, h.width r (List.mem_of_getElem? hr)]; rfl) _

/-- A pivot keeps the width of the rows, and puts a column of the workspace into the basis. -/
theorem pivot (h : w.Regular) (hcolumn : column < w.columnCount) (row : ℕ) :
    (w.pivot row column).Regular := by
  cases hr : w.rows[row]? with
  | none => simpa only [Workspace.pivot, hr] using h
  | some r =>
    have hsolved := h.width r (List.mem_of_getElem? hr)
    refine ⟨fun s hs => ?_, fun s hs => ?_, ?_⟩
    · obtain ⟨i, hi⟩ := List.mem_iff_getElem?.mp hs
      rw [getElem?_rows_pivot hr, Option.map_eq_some_iff] at hi
      obtain ⟨other, hother, rfl⟩ := hi
      have hwidth := h.width other (List.mem_of_getElem? hother)
      rw [h.columnCount_pivot]
      split
      · rw [Equation.length_divide, hsolved]
      · rw [length_clearWith (by rw [Equation.length_divide, hsolved, hwidth]), hwidth]
    · rw [h.columnCount_pivot]
      exact basic_lt_pivot h.basic_lt hcolumn row s hs
    · rw [artificialStart_pivot, h.columnCount_pivot]
      exact h.artificialStart_le

/-- What a pivot makes of the other rows and of the objective. -/
theorem clear_dense (h : w.Regular) (hr : w.rows[row]? = some r) (hcolumn : column < w.columnCount) :
    update (w.rows.length + 1)
      (fun i target => if i = row then some target
        else Dense.clear (w.columnCount + 1) column (r.divide (r.coefficient column)).entries target)
      (w.dense.data.set row (r.divide (r.coefficient column)).entries) =
        some (w.pivot row column).dense.data := by
  have hwidth := h.width r (List.mem_of_getElem? hr)
  have hrow : row < w.rows.length := (List.getElem?_eq_some_iff.mp hr).1
  have hclear : ∀ target : Equation α, target.coefficients.length = w.columnCount →
      Dense.clear (w.columnCount + 1) column (r.divide (r.coefficient column)).entries target.entries =
        some (clearWith target (r.divide (r.coefficient column)) column).entries := by
    intro target htarget
    rw [← htarget]
    exact clear_entries (by rw [Equation.length_divide, hwidth, htarget]) (htarget ▸ hcolumn)
  rw [← length_data_dense, ← List.length_set (i := row) (a := (r.divide (r.coefficient column)).entries)]
  refine update_eq_some ?_ fun i a b ha hb => ?_
  · rw [List.length_set, length_data_dense, length_data_dense, length_rows_pivot]
  · rcases getElem?_data_dense.mp hb with ⟨s, hs, rfl⟩ | ⟨rfl, rfl⟩
    · rw [getElem?_rows_pivot hr, Option.map_eq_some_iff] at hs
      obtain ⟨other, hother, rfl⟩ := hs
      by_cases hi : i = row
      · have hin : row < w.dense.data.length := by rw [length_data_dense]; omega
        rw [hi, List.getElem?_set_self hin] at ha
        rw [if_pos hi, if_pos hi, ← ha]
      · rw [List.getElem?_set_ne (Ne.symm hi), data_dense_of_row hother, Option.some.injEq] at ha
        rw [if_neg hi, if_neg hi, ← ha]
        exact hclear _ (h.width other (List.mem_of_getElem? hother))
    · rw [length_rows_pivot] at ha ⊢
      rw [List.getElem?_set_ne hrow.ne, data_dense_objective, Option.some.injEq] at ha
      rw [if_neg hrow.ne', objective_pivot hr, ← ha]
      exact hclear _ rfl

/-- A pivot on plain rows. -/
theorem pivot_dense (h : w.Regular) (hrow : row < w.rows.length) (hcolumn : column < w.columnCount) :
    w.dense.pivot row column = some (w.pivot row column).dense := by
  obtain ⟨r, hr⟩ : ∃ r, w.rows[row]? = some r := ⟨_, List.getElem?_eq_getElem hrow⟩
  have hwidth := h.width r (List.mem_of_getElem? hr)
  have hin : row < w.dense.data.length := by rw [length_data_dense]; omega
  have hbasics : write w.dense.basics row column = some (w.pivot row column).dense.basics := by
    rw [write_eq_some (by simpa [dense] using hrow), dense, dense, basis_pivot]
  have hdivide := divide_entries r.toEquation (r.coefficient column)
  rw [hwidth] at hdivide
  simp only [Dense.pivot, h.width_dense, data_dense_of_row hr,
    Equation.getElem?_entries (hwidth.symm ▸ hcolumn), Option.bind_eq_bind, Option.bind_some, hbasics,
    hdivide, write_eq_some hin, length_data_dense, h.clear_dense hr hcolumn]
  simp [dense, iterations_pivot hrow]

end Regular

/-! ## Selections -/

/-- Choosing the entering column on plain rows. -/
theorem enteringColumn_dense (tolerance : α) (hbefore : before ≤ w.columnCount) :
    w.dense.enteringColumn tolerance before = some (w.enteringColumn? tolerance before) := by
  have hlength : before ≤ w.objective.entries.length := by
    rw [Equation.length_entries]
    exact Nat.le_succ_of_le hbefore
  simp only [Dense.enteringColumn, objectiveIndex_dense, data_dense_objective, Option.bind_eq_bind,
    Option.bind_some]
  rw [findM?_range _ hlength, Equation.entries, List.take_append_of_le_length hbefore]
  rfl

/-- A scan takes the tighter one of the bound in hand and the next one. -/
theorem scan_eq_foldl (tolerance : α) (bounds : List (Bound α)) :
    scan (Bound.beats tolerance) bounds =
      bounds.foldl (fun held next => some (Dense.tighter tolerance held next)) none := by
  cases bounds with
  | nil => rfl
  | cons first rest =>
    rw [List.foldl_cons]
    exact (List.foldl_hom some fun _ _ => rfl).symm

/-- A replacement for the basic column of a row on plain rows. -/
theorem replacement_dense (tolerance : α) (hr : w.rows[row]? = some r)
    (hstart : w.artificialStart ≤ r.coefficients.length) :
    w.dense.replacement tolerance row = some (w.replacement? tolerance r) := by
  have hlength : w.artificialStart ≤ r.entries.length := by
    rw [Equation.length_entries]
    exact Nat.le_succ_of_le hstart
  simp only [Dense.replacement, data_dense_of_row hr, Option.bind_eq_bind, Option.bind_some]
  rw [show w.dense.artificialStart = w.artificialStart from rfl, findM?_range _ hlength,
    Equation.entries, List.take_append_of_le_length hstart]
  rfl

namespace Regular

/-- Choosing the leaving row on plain rows. -/
theorem leavingRow_dense (h : w.Regular) (tolerance : α) (hcolumn : column < w.columnCount) :
    w.dense.leavingRow tolerance column = some (w.leavingRow? tolerance column) := by
  have hwalk : (List.range w.rows.length).foldlM (w.dense.consider tolerance w.columnCount column)
      none = some (scan (Bound.beats tolerance) (w.bounds tolerance column)) := by
    rw [scan_eq_foldl, bounds, List.foldl_filterMap]
    refine (foldlM_range_eq_some id _ (I := fun _ => True)
      (fun i r hr held _ => ⟨?_, trivial⟩) trivial).1
    have hcoefficient := Equation.getElem?_entries ((h.width r (List.mem_of_getElem? hr)).symm ▸ hcolumn)
    simp only [Dense.consider, data_dense_of_row hr, hcoefficient, h.getElem?_rhs hr, basics_dense hr,
      id_eq, Option.bind_eq_bind, Option.bind_some]
    by_cases hbound : tolerance < r.coefficient column
    · rw [if_pos hbound, if_pos hbound]
    · rw [if_neg hbound, if_neg hbound]
  simp only [Dense.leavingRow, objectiveIndex_dense, h.rhsIndex_dense, Option.bind_eq_bind,
    Option.bind_some, hwalk]
  rfl

end Regular

/-! ## Objectives -/

namespace Regular

/-- The objective of the first phase before rows are subtracted. -/
theorem ones_dense (h : w.Regular) :
    (List.range' w.artificialStart (w.columnCount - w.artificialStart)).foldlM
      (fun objective j => write objective j 1) (List.replicate (w.columnCount + 1) (0 : α)) =
        some w.artificialCosts.entries := by
  have hstart := h.artificialStart_le
  have hsplit : w.columnCount + 1 = w.artificialStart + (w.columnCount - w.artificialStart + 1) := by
    omega
  have hroom : w.columnCount - w.artificialStart ≤
      (List.replicate (w.columnCount - w.artificialStart + 1) (0 : α)).length := by
    rw [List.length_replicate]
    exact Nat.le_succ _
  have hwritten := foldlM_write_range' (List.replicate w.artificialStart (0 : α)) _ 1 hroom
  rw [List.length_replicate, ← List.replicate_add, ← hsplit, List.drop_replicate,
    Nat.add_sub_cancel_left] at hwritten
  rw [hwritten, artificialCosts, Equation.entries, List.append_assoc]
  rfl

/-- Subtracting the rows of artificial columns on plain rows. -/
theorem priceOut_dense (h : w.Regular) :
    (List.range w.rows.length).foldlM (w.dense.priceOut (w.columnCount + 1)) w.artificialCosts.entries =
        some w.artificialObjective.entries ∧
      w.artificialObjective.coefficients.length = w.columnCount := by
  refine foldlM_range_eq_foldl Equation.entries _ (I := fun e => e.coefficients.length = w.columnCount)
    (fun i r hr e he => ?_) (length_artificialCosts h.artificialStart_le)
  have hwidth : r.coefficients.length = e.coefficients.length := by
    rw [h.width r (List.mem_of_getElem? hr), he]
  have hsubtract := subtract_entries (1 : α) hwidth
  rw [he] at hsubtract
  simp only [Dense.priceOut, basics_dense hr, data_dense_of_row hr, hsubtract, Option.bind_eq_bind,
    Option.bind_some]
  by_cases hlow : r.basic < w.artificialStart
  · exact ⟨by rw [if_pos hlow]; exact if_pos hlow, by rwa [if_pos hlow]⟩
  · refine ⟨by rw [if_neg hlow]; exact if_neg hlow, ?_⟩
    rw [if_neg hlow, Equation.length_subtractMultiple, hwidth, min_self, he]

/-- Setting the objective aside on plain rows. -/
theorem setAside_dense (h : w.Regular) : w.dense.setAside =
    some (⟨w.objective.entries, w.columnCount + 1⟩,
      { w with objective := w.artificialObjective : Workspace α }.dense) := by
  simp only [Dense.setAside, objectiveIndex_dense, h.width_dense, predecessor_succ,
    data_dense_objective, Option.bind_eq_bind, Option.bind_some]
  rw [show w.dense.artificialStart = w.artificialStart from rfl, h.ones_dense, Option.bind_some,
    h.priceOut_dense.1, Option.bind_some, write_objective]
  rfl

/-- Clearing the basic columns in an objective on plain rows. -/
theorem clearBasic_dense (h : w.Regular) {e : Equation α} (he : e.coefficients.length = w.columnCount) :
    (List.range w.rows.length).foldlM (w.dense.clearBasic (w.columnCount + 1)) e.entries =
        some (w.reprice e).objective.entries ∧ (w.reprice e).columnCount = w.columnCount := by
  refine foldlM_range_eq_foldl Equation.entries _ (I := fun e => e.coefficients.length = w.columnCount)
    (fun i r hr e he => ?_) he
  have hmem := List.mem_of_getElem? hr
  have hwidth : r.coefficients.length = e.coefficients.length := by rw [h.width r hmem, he]
  have hclear := clear_entries hwidth (he.symm ▸ h.basic_lt r hmem)
  rw [he] at hclear
  simp only [Dense.clearBasic, basics_dense hr, data_dense_of_row hr, hclear, Option.bind_eq_bind,
    Option.bind_some, true_and]
  rw [length_clearWith hwidth, he]

/-- Putting an objective back on plain rows. -/
theorem restore_dense (h : w.Regular) {e : Equation α} (he : e.coefficients.length = w.columnCount) :
    w.dense.restore ⟨e.entries, w.columnCount + 1⟩ = some (w.reprice e).dense := by
  simp only [Dense.restore, objectiveIndex_dense, (h.clearBasic_dense he).1, Option.bind_eq_bind,
    Option.bind_some, write_objective]
  rfl

end Regular

/-! ## Values -/

/-- Of several rows with a basic column, the last one gives its value. -/
theorem getElem?_foldl_set (rows : List (BasicRow α)) {count column : ℕ} (hcolumn : column < count) :
    (rows.foldl (fun values r => if r.basic < count then values.set r.basic r.rhs else values)
      (List.replicate count 0))[column]? =
        some (match rows.reverse.find? (·.basic == column) with
          | some r => r.rhs
          | none => 0) := by
  induction rows using List.reverseRecOn with
  | nil => simp [hcolumn]
  | append_singleton before last ih =>
    rw [List.foldl_append, List.foldl_cons, List.foldl_nil, List.reverse_append, List.reverse_singleton,
      List.singleton_append, List.find?_cons]
    have hin := (List.getElem?_eq_some_iff.mp ih).1
    by_cases hlast : last.basic = column
    · rw [if_pos (hlast ▸ hcolumn), hlast, List.getElem?_set_self hin, beq_self_eq_true]
    · rw [beq_false_of_ne hlast, ← ih]
      split
      · exact List.getElem?_set_ne hlast
      · rfl

/-- The values are those of the last rows with each basic column. -/
theorem values_eq_foldl (w : Workspace α) : w.values =
    w.rows.foldl (fun values r => if r.basic < w.variableCount then values.set r.basic r.rhs else values)
      (List.replicate w.variableCount 0) := by
  have hlength : (w.rows.foldl (fun values r => if r.basic < w.variableCount
      then values.set r.basic r.rhs else values) (List.replicate w.variableCount 0)).length =
        w.variableCount :=
    List.foldlRecOn (motive := fun (values : List α) => values.length = w.variableCount) w.rows _
      List.length_replicate fun values hvalues r _ => by
        split
        · rwa [List.length_set]
        · exact hvalues
  apply List.ext_getElem?
  intro column
  by_cases hcolumn : column < w.variableCount
  · rw [getElem?_foldl_set w.rows hcolumn, values, List.getElem?_map, List.getElem?_range hcolumn]
    rfl
  · rw [List.getElem?_eq_none (by simpa [values] using hcolumn), List.getElem?_eq_none (by omega)]

/-- Reading the values off plain rows. -/
theorem Regular.values_dense (h : w.Regular) : w.dense.values = some w.values := by
  have hplace : (List.range w.rows.length).foldlM (w.dense.place w.columnCount)
      (List.replicate w.variableCount 0) = some w.values := by
    rw [values_eq_foldl]
    refine (foldlM_range_eq_foldl id _ (I := fun values => values.length = w.variableCount)
      (fun i r hr values hvalues => ?_) List.length_replicate).1
    simp only [Dense.place, basics_dense hr, data_dense_of_row hr, h.getElem?_rhs hr, id_eq,
      Option.bind_eq_bind, Option.bind_some]
    by_cases hvariable : r.basic < w.variableCount
    · have hin : r.basic < values.length := hvalues.symm ▸ hvariable
      rw [write_eq_some hin, if_pos hvariable, List.length_set]
      exact ⟨if_pos hvariable, hvalues⟩
    · rw [if_neg hvariable]
      exact ⟨if_neg hvariable, hvalues⟩
  have hcount : w.dense.basics.length = w.rows.length := List.length_map _
  simp only [Dense.values, h.rhsIndex_dense, Option.bind_eq_bind, Option.bind_some, hcount]
  exact hplace

end Workspace

end WarmSimplex.TwoPhase
