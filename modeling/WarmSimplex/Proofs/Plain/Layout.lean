import WarmSimplex.Proofs.Access
import WarmSimplex.Proofs.Shape.Checked
import WarmSimplex.Plain

/-!
# A tableau on plain lists

The rows, labels and decision variables of a tableau, laid out as parallel lists. What is read from the
layout is what the tableau has there. On the layout of a tableau that fits together every computation has a
result, and it is the layout of what the tableau comes to: building, pivots, new constraints, repricing.

So the lists are written in step with each other, although each is written on its own, and nothing is read,
written or inserted that is out of range.
-/

namespace WarmSimplex

variable {α : Type}

/-- The tableau on plain lists. -/
def Tableau.plain (t : Tableau α) : Plain α where
  rows := t.rows.map (·.entries)
  objective := t.objective.entries
  basis := t.rows.map (·.basic)
  structuralCount := t.decisions.length
  tolerance := t.tolerance
  pivotTolerance := t.pivotTolerance
  sense := t.sense
  costs := t.decisions.map (·.cost)
  variableNames := t.decisions.map (·.name)
  labels := t.rows.map (·.label)

/-! ## Reading -/

namespace Equation

/-- All entries but the last one are the coefficients. -/
theorem take_entries (e : Equation α) : e.entries.take e.coefficients.length = e.coefficients :=
  List.take_left

/-- The last entry is the right-hand side. -/
theorem getElem?_rhs (e : Equation α) : e.entries[e.coefficients.length]? = some e.rhs :=
  List.getElem?_concat_length

end Equation

namespace Tableau

section Reading

variable (t : Tableau α)

/-- The number of columns can be read off. -/
@[simp]
theorem columnCount_plain : t.plain.columnCount = some t.columnCount := by
  change predecessor t.objective.entries.length = _
  rw [Equation.length_entries]
  rfl

/-- A row without its right-hand side. -/
@[simp]
theorem coefficients_plain (row : ℕ) : t.plain.coefficients row = t.row? row := by
  rw [Plain.coefficients, row?, plain, List.getElem?_map]
  cases t.rows[row]? with
  | none => rfl
  | some r =>
    simp only [Option.map_some, Option.bind_eq_bind, Option.bind_some, Equation.length_entries,
      predecessor_succ, Equation.take_entries]

/-- The entry of a row in a column. -/
@[simp]
theorem coefficient_plain (row column : ℕ) :
    t.plain.coefficient row column = t.coefficient? row column := by
  rw [Plain.coefficient, coefficient?, plain, List.getElem?_map]
  cases t.rows[row]? with
  | none => rfl
  | some r => rfl

/-- The right-hand side of a row. -/
@[simp]
theorem rhs_plain (row : ℕ) : t.plain.rhs row = t.rhs? row := by
  rw [Plain.rhs, rhs?, plain, List.getElem?_map]
  cases t.rows[row]? with
  | none => rfl
  | some r =>
    simp only [Option.map_some, Option.bind_eq_bind, Option.bind_some, Equation.length_entries,
      predecessor_succ, Equation.getElem?_rhs]

/-- The reduced cost of each column. -/
@[simp]
theorem reducedCosts_plain : t.plain.reducedCosts = some t.reducedCosts := by
  rw [Plain.reducedCosts, columnCount_plain]
  exact congrArg some (Equation.take_entries _)

/-- The objective value. -/
@[simp]
theorem objectiveValue_plain : t.plain.objectiveValue = some t.objectiveValue := by
  rw [Plain.objectiveValue, columnCount_plain]
  exact Equation.getElem?_rhs _

end Reading

end Tableau

/-! ## Elimination -/

namespace Plain

variable [Scalar α] {e target : Equation α} {column : ℕ}

/-- Rows of the same length are subtracted entry by entry. -/
theorem subtract_eq_zipWith (factor : α) {target source : List α} (h : source.length = target.length) :
    Plain.subtract factor target source = List.zipWith (fun t a => t - factor * a) target source := by
  induction target generalizing source with
  | nil =>
    rw [List.eq_nil_of_length_eq_zero h]
    rfl
  | cons t target ih =>
    cases source with
    | nil => cases h
    | cons a source => exact congrArg ((t - factor * a) :: ·) (ih (Nat.succ_inj.mp h))

/-- Clearing a column that is there with a row of the same width. -/
theorem eliminate_entries (hwidth : e.coefficients.length = target.coefficients.length)
    (hcolumn : column < target.coefficients.length) :
    Plain.eliminate target.entries e.entries column = some (target.eliminate e column).entries := by
  have hlength : e.entries.length = target.entries.length := by
    rw [Equation.length_entries, Equation.length_entries, hwidth]
  have hin : column < (target.subtractMultiple (target.coefficient column) e).coefficients.length := by
    rwa [Equation.length_subtractMultiple, hwidth, min_self]
  rw [Plain.eliminate, Equation.getElem?_entries hcolumn, Option.bind_eq_bind, Option.bind_some,
    Equation.eliminate]
  split
  · rfl
  · rw [subtract_eq_zipWith _ hlength, ← Equation.entries_subtractMultiple _ hwidth,
      Equation.write_coefficient hin]

/-- Dividing a row and putting an exact one in the column that it is solved for. -/
theorem write_divided (e : Equation α) (hcolumn : column < e.coefficients.length) :
    write (e.entries.map (· / e.coefficient column)) column 1 = some (e.normalize column).entries := by
  have hentries : e.entries.map (· / e.coefficient column) = (e.divide (e.coefficient column)).entries := by
    rw [Equation.entries, List.map_append]
    rfl
  rw [hentries, Equation.write_coefficient (by rwa [Equation.length_divide])]
  rfl

/-- Clearing the basic columns of rows, each of which is there. -/
theorem reduce_entries {rows : List (Row α)} (hbasic : ∀ r ∈ rows, r.basic < e.coefficients.length)
    (hwidth : ∀ r ∈ rows, r.coefficients.length = e.coefficients.length) :
    Plain.reduce e.entries (rows.map (·.entries)) (rows.map (·.basic)) =
      some (e.reduce rows).entries := by
  rw [Plain.reduce, List.zip_map', List.foldlM_map]
  refine (foldlM_eq_some Equation.entries _
    (I := fun target => target.coefficients.length = e.coefficients.length)
    (fun r hr target htarget => ⟨?_, ?_⟩) rfl).1
  · exact eliminate_entries ((hwidth r hr).trans htarget.symm) (htarget.symm ▸ hbasic r hr)
  · rw [Equation.length_eliminate r.basic ((hwidth r hr).trans htarget.symm), htarget]

end Plain

/-! ## Changes -/

namespace Tableau

/-- A row is laid out at its place. -/
theorem rows_plain {t : Tableau α} {row : ℕ} {r : Row α} (hr : t.rows[row]? = some r) :
    t.plain.rows[row]? = some r.entries := by
  rw [plain, List.getElem?_map, hr, Option.map_some]

/-- There are as many rows as constraints. -/
@[simp]
theorem length_rows_plain (t : Tableau α) : t.plain.rows.length = t.rowCount := List.length_map _

/-- There are as many basic columns as constraints. -/
@[simp]
theorem length_basis_plain (t : Tableau α) : t.plain.basis.length = t.rowCount := List.length_map _

variable [Scalar α] {t : Tableau α} {n m row column : ℕ} {r : Row α}

/-- The rows after a pivot. -/
theorem getElem?_rows_pivotAt (hr : t.rows[row]? = some r) (column i : ℕ) :
    (t.pivotAt row column).rows[i]? = t.rows[i]?.map fun other =>
      if i = row then r.solveFor column else other.clear (r.solveFor column).toEquation column := by
  rw [pivotAt, hr, List.getElem?_mapIdx]

/-- The objective after a pivot. -/
theorem objective_pivotAt (hr : t.rows[row]? = some r) (column : ℕ) :
    (t.pivotAt row column).objective = t.objective.eliminate (r.normalize column) column := by
  rw [pivotAt, hr]
  rfl

/-- All but the rows, the basic columns and the objective row stay as they are in a pivot. -/
theorem plain_pivotAt (t : Tableau α) (row column : ℕ) : (t.pivotAt row column).plain =
    { t.plain with
      rows := (t.pivotAt row column).plain.rows
      basis := (t.pivotAt row column).plain.basis
      objective := (t.pivotAt row column).plain.objective } := by
  have hlabels := labels_pivotAt t row column
  rw [plain, plain, hlabels, decisions_pivotAt]
  rw [pivotAt]
  split
  · rfl
  · rfl

namespace HasShape

/-- The objective is written in terms of the basis on plain lists. -/
theorem reprice_plain (ht : t.HasShape n m) : t.plain.reprice = some t.reprice.plain := by
  have hobjective : t.objective.coefficients.length = n + m := ht.columns
  have hreduce := Plain.reduce_entries (hobjective.symm ▸ ht.basic_lt) (hobjective.symm ▸ ht.width)
  exact congrArg (Option.map t.plain.withObjective) hreduce

/-- What a pivot makes of the other rows. An empty one stands in the place of the row itself. -/
theorem update_plain (ht : t.HasShape n m) (hr : t.rows[row]? = some r) (hcolumn : column < n + m) :
    update t.rowCount
      (fun i target => if i = row then some target
        else Plain.eliminate target (r.normalize column).entries column) (t.plain.rows.set row []) =
      some ((t.pivotAt row column).plain.rows.set row []) := by
  have hrow : row < t.rowCount := (List.getElem?_eq_some_iff.mp hr).1
  rw [← length_rows_plain, ← List.length_set (i := row) (a := [])]
  refine update_eq_some ?_ fun i a b ha hb => ?_
  · rw [List.length_set, List.length_set, length_rows_plain, length_rows_plain, rowCount_pivotAt]
  · by_cases hi : i = row
    · rw [hi, List.getElem?_set_self (by simpa using hrow)] at ha hb
      rw [if_pos hi, ← ha, hb]
    · rw [List.getElem?_set_ne (Ne.symm hi), plain, List.getElem?_map, Option.map_eq_some_iff] at ha hb
      obtain ⟨other, hother, rfl⟩ := ha
      obtain ⟨cleared, hcleared, rfl⟩ := hb
      rw [getElem?_rows_pivotAt hr, hother, Option.map_some, if_neg hi, Option.some.injEq] at hcleared
      have hwidth := ht.width other (List.mem_of_getElem? hother)
      have hsolved := ht.width r (List.mem_of_getElem? hr)
      rw [if_neg hi, ← hcleared]
      exact Plain.eliminate_entries (by rw [Equation.length_normalize, hsolved, hwidth]) (hwidth.symm ▸ hcolumn)

/-- A pivot on plain lists. -/
theorem pivot_plain (ht : t.HasShape n m) (row column : ℕ) :
    t.plain.pivot row column = some ((t.pivot row column).map (·.plain)) := by
  rw [Plain.pivot, Tableau.pivot, columnCount_plain, Option.bind_eq_bind, Option.bind_some,
    length_rows_plain]
  split
  · rename_i hinside
    obtain ⟨hrow, hcolumn⟩ := hinside
    rw [ht.columns] at hcolumn
    rw [coefficient_plain, ht.coefficient?_eq (ht.rowCount ▸ hrow) hcolumn, Option.bind_eq_bind,
      Option.bind_some]
    dsimp only
    by_cases hdegenerate : t.isDegenerate (t.coefficient row column) = true
    · rw [if_pos hdegenerate]
      exact if_pos hdegenerate
    · rw [if_neg hdegenerate]
      refine (if_neg hdegenerate).trans ?_
      obtain ⟨r, hr, hread⟩ := exists_row_of_lt hrow
      have hwidth := ht.width r (List.mem_of_getElem? hr)
      have hobjective : t.objective.coefficients.length = n + m := ht.columns
      have htake : write t.plain.rows row [] = some (t.plain.rows.set row []) :=
        write_eq_some (by simpa using hrow) _
      have hsolved := Plain.write_divided r.toEquation (hwidth.symm ▸ hcolumn)
      have hcleared : Plain.eliminate t.plain.objective (r.normalize column).entries column =
          some (t.pivotAt row column).plain.objective := by
        rw [plain, plain, objective_pivotAt hr]
        exact Plain.eliminate_entries (by rw [Equation.length_normalize, hwidth, hobjective])
          (hobjective.symm ▸ hcolumn)
      have hput : write ((t.pivotAt row column).plain.rows.set row []) row (r.normalize column).entries =
          some (t.pivotAt row column).plain.rows := by
        have hrows : (t.pivotAt row column).plain.rows[row]? = some (r.solveFor column).entries :=
          rows_plain (by rw [getElem?_rows_pivotAt hr, hr, Option.map_some, if_pos rfl])
        obtain ⟨hin, hget⟩ := List.getElem?_eq_some_iff.mp hrows
        rw [write_eq_some (by rwa [List.length_set]), List.set_set]
        change some (List.set _ row (r.solveFor column).entries) = _
        rw [← hget, List.set_getElem_self]
      have hbasis : write t.plain.basis row column = some (t.pivotAt row column).plain.basis := by
        rw [write_eq_some (by simpa using hrow)]
        exact congrArg some (basis_pivotAt t row column).symm
      rw [rows_plain hr, hread]
      simp only [Option.bind_eq_bind, Option.bind_some, htake, hsolved, List.length_set,
        length_rows_plain, ht.update_plain hr hcolumn, hcleared, hput, hbasis]
      rw [Except.map, plain_pivotAt]
  · rfl

end HasShape

/-- A new constraint adds an entry to each list of the rows. -/
theorem plain_appendStored (t : Tableau α) (c : StoredConstraint α) : (t.appendStored c).plain =
    { t.plain with
      rows := t.addZeroColumn.plain.rows ++
        [((t.newEquation c.coefficients c.label.rhs).reduce t.addZeroColumn.rows).entries]
      objective := t.addZeroColumn.plain.objective
      basis := t.plain.basis ++ [t.columnCount]
      labels := t.plain.labels ++ [c.label] } := by
  simp [plain, appendStored, addZeroColumn]

/-- The row of a new constraint is written over zeros. -/
theorem write_newEquation {coefficients : List α} (hwidth : coefficients.length ≤ t.columnCount)
    (rhs : α) : ∃ first second,
      writeAll (List.replicate (t.columnCount + 2) 0) coefficients = some first ∧
      write first t.columnCount 1 = some second ∧
      write second (t.columnCount + 1) rhs = some (t.newEquation coefficients rhs).entries := by
  have hfilled : (coefficients ++ List.replicate (t.columnCount - coefficients.length) (0 : α)).length =
      t.columnCount := by
    rw [List.length_append, List.length_replicate]
    omega
  have hzeros : (List.replicate (t.columnCount + 2) (0 : α)).drop coefficients.length =
      List.replicate (t.columnCount - coefficients.length) 0 ++ [0, 0] := by
    rw [List.drop_replicate, show t.columnCount + 2 - coefficients.length =
      t.columnCount - coefficients.length + 2 by omega, List.replicate_add]
    rfl
  have hslack := write_append_cons
    (coefficients ++ List.replicate (t.columnCount - coefficients.length) (0 : α)) [0] 0 1
  have hrhs := Equation.write_rhs (t.newEquation coefficients rhs).coefficients 0 rhs
  rw [hfilled] at hslack
  rw [length_newEquation hwidth] at hrhs
  refine ⟨_, _, writeAll_eq_some (by rw [List.length_replicate]; omega), ?_, hrhs⟩
  rw [hzeros, ← List.append_assoc, hslack, newEquation, Equation.entries, List.append_assoc _ [1]]
  rfl

namespace HasShape

/-- A column of zeros is inserted before the right-hand sides. -/
theorem insert_plain (ht : t.HasShape n m) :
    t.plain.rows.mapM (insertAt · t.columnCount 0) = some t.addZeroColumn.plain.rows := by
  rw [plain, plain, addZeroColumn, List.mapM_map, List.map_map]
  refine mapM_eq_some_map fun r hr => ?_
  have hcolumns : t.columnCount = r.coefficients.length := by rw [ht.columns, ht.width r hr]
  rw [hcolumns]
  exact r.insertAt_entries 0

/-- Adding a constraint on plain lists. -/
theorem append_plain (ht : t.HasShape n m) (c : StoredConstraint α) :
    t.plain.append c = some ((t.append c).map (·.plain)) := by
  rw [Plain.append, Tableau.append, appendFault?, columnCount_plain, Option.bind_eq_bind,
    Option.bind_some]
  by_cases hwide : t.columnCount < c.coefficients.length
  · rw [if_pos hwide, if_pos hwide]
    rfl
  · rw [if_neg hwide, if_neg hwide]
    cases nonFinite? .newConstraint c.coefficients <|> nonFinite? .newRightHandSide [c.label.rhs] with
    | some fault => rfl
    | none =>
      obtain ⟨first, second, hfirst, hsecond, hrow⟩ :=
        write_newEquation (not_lt.mp hwide) c.label.rhs
      have hnew := length_newEquation (not_lt.mp hwide) c.label.rhs
      have hbasis : t.plain.basis = t.addZeroColumn.rows.map (·.basic) := by
        rw [plain, addZeroColumn, List.map_map]
        rfl
      have hreduce : Plain.reduce (t.newEquation c.coefficients c.label.rhs).entries
          t.addZeroColumn.plain.rows t.plain.basis =
            some ((t.newEquation c.coefficients c.label.rhs).reduce t.addZeroColumn.rows).entries := by
        rw [hbasis]
        refine Plain.reduce_entries (List.forall_mem_map.mpr fun r hr => ?_)
          (List.forall_mem_map.mpr fun r hr => ?_)
        · rw [hnew, ht.columns]
          exact Nat.lt_succ_of_lt (ht.basic_lt r hr)
        · rw [hnew, Equation.length_addColumn, ht.width r hr, ht.columns]
      have hobjective : insertAt t.plain.objective t.columnCount 0 =
          some t.addZeroColumn.plain.objective := t.objective.insertAt_entries 0
      simp only [Option.bind_eq_bind, Option.bind_some, hfirst, hsecond, hrow, ht.insert_plain,
        hobjective, hreduce]
      rw [Except.map, plain_appendStored]

end HasShape

end Tableau

end WarmSimplex
