import WarmSimplex.Proofs.Plain.Solve
import WarmSimplex.Plain.Solution

/-!
# Solutions on plain lists

What is read from the layout of a tableau for a solution is what the checked computations read from the
tableau: values through the list of basic columns, names, costs and labels through lists of their own. If
the tableau fits together the solution is that of the tableau.

The map of the basic values keeps the last value of a column, so a later row counts before an earlier one.
It goes no further than the columns.
-/

namespace WarmSimplex

variable {α : Type}

/-! ## The map of the basic values -/

namespace Plain

variable {pairs : List (ℕ × α)}

/-- Keys are below the bound that is found for them. -/
theorem key_lt_keyBound {pair : ℕ × α} (h : pair ∈ pairs) : pair.1 < keyBound pairs := by
  induction pairs with
  | nil => cases h
  | cons first rest ih =>
    rw [keyBound, List.foldr_cons, ← keyBound]
    rcases List.mem_cons.mp h with rfl | hrest
    · exact (Nat.lt_succ_self _).trans_le (Nat.le_max_left _ _)
    · exact (ih hrest).trans_le (Nat.le_max_right _ _)

/-- The bound is the least one. -/
theorem keyBound_le {columns : ℕ} (h : ∀ pair ∈ pairs, pair.1 < columns) : keyBound pairs ≤ columns := by
  induction pairs with
  | nil => exact Nat.zero_le _
  | cons first rest ih =>
    obtain ⟨hfirst, hrest⟩ := List.forall_mem_cons.mp h
    exact max_le hfirst (ih hrest)

/-- No value is kept beyond the bound. -/
theorem lastValue?_eq_none {key : ℕ} (h : keyBound pairs ≤ key) : lastValue? pairs key = none := by
  rw [lastValue?, Option.map_eq_none_iff, List.find?_eq_none]
  intro pair hpair hkey
  have hbelow := key_lt_keyBound (List.mem_reverse.mp hpair)
  rw [beq_iff_eq.mp hkey] at hbelow
  exact absurd hbelow (not_lt.mpr h)

/-- The keys may be looked for further up. -/
theorem sortedMap_eq {columns : ℕ} (h : keyBound pairs ≤ columns) : sortedMap pairs =
    (List.range columns).filterMap fun key => (lastValue? pairs key).map (key, ·) := by
  obtain ⟨further, rfl⟩ := Nat.exists_eq_add_of_le h
  have hrest : ((List.range further).map (keyBound pairs + ·)).filterMap
      (fun key => (lastValue? pairs key).map (key, ·)) = [] := by
    rw [List.filterMap_eq_nil_iff]
    refine List.forall_mem_map.mpr fun i _ => ?_
    rw [lastValue?_eq_none (Nat.le_add_right _ i)]
    rfl
  rw [List.range_add, List.filterMap_append, hrest, List.append_nil, sortedMap]

/-- The value that counts for a column is in the last row that it is basic in. -/
theorem lastValue?_basic (rows : List (Row α)) (column : ℕ) :
    lastValue? (rows.map fun r => (r.basic, r.rhs)) column =
      (rows.reverse.find? (·.basic == column)).map (·.rhs) := by
  rw [lastValue?, ← List.map_reverse, List.find?_map, Option.map_map]
  rfl

end Plain

/-! ## Single columns and constraints -/

namespace Tableau

section Columns

variable (t : Tableau α) {i column : ℕ} {r : Row α} {d : Decision α}

/-- The first row that a column is basic in. -/
@[simp]
theorem basicRow_plain (column : ℕ) : t.plain.basicRow? column = t.basicRow? column := by
  rw [Plain.basicRow?, plain, List.findIdx?_map]
  rfl

/-- A column is basic if there is a row that it is basic in. -/
theorem isSome_basicRow (column : ℕ) : (t.basicRow? column).isSome = t.isBasic column := by
  rw [basicRow?, List.findIdx?_isSome, isBasic]

/-- The row that a column is basic in. -/
theorem find?_basic (column : ℕ) :
    t.rows.find? (·.basic == column) = (t.basicRow? column).bind fun row => t.rows[row]? :=
  List.find?_eq_bind_findIdx?_getElem?

/-- The row that a column is basic in is there. -/
theorem exists_of_basicRow {row : ℕ} (h : t.basicRow? column = some row) : ∃ r, t.rows[row]? = some r := by
  obtain ⟨hrow, _⟩ := List.findIdx?_eq_some_iff_getElem.mp h
  exact ⟨_, List.getElem?_eq_getElem hrow⟩

/-- The name of a decision variable. -/
theorem columnName_plain (hd : t.decisions[column]? = some d) :
    t.plain.columnName column = some d.name := by
  have hin : column < t.plain.structuralCount := (List.getElem?_eq_some_iff.mp hd).1
  rw [Plain.columnName, if_pos hin, plain, List.getElem?_map, hd]
  rfl

/-- The label of a constraint is at its index. -/
theorem labels_plain (hr : t.rows[i]? = some r) : t.plain.labels[i]? = some r.label := by
  rw [plain, List.getElem?_map, hr]
  rfl

/-- The values of the basic columns. -/
theorem HasShape.basicValues_plain {t : Tableau α} {n m : ℕ} (ht : t.HasShape n m) :
    t.plain.basicValues = some t.basicValues := by
  have hpairs : (t.plain.basis.zipIdx.mapM fun pair =>
      (t.plain.rhs pair.2).map (pair.1, ·)) = some (t.rows.map fun r => (r.basic, r.rhs)) := by
    have hread : ∀ pair ∈ t.rows.zipIdx, (t.plain.rhs pair.2).map (pair.1.basic, ·) =
        some (pair.1.basic, pair.1.rhs) := by
      intro pair hpair
      rw [rhs_plain, rhs?, List.mem_zipIdx_iff_getElem?.mp hpair]
      rfl
    have hwalk := mapM_eq_some_map hread
    rw [map_zipIdx_fst fun r : Row α => (r.basic, r.rhs)] at hwalk
    rw [plain, List.zipIdx_map, List.mapM_map]
    exact hwalk
  have hbound : Plain.keyBound (t.rows.map fun r => (r.basic, r.rhs)) ≤ t.columnCount :=
    Plain.keyBound_le (List.forall_mem_map.mpr fun r hr => ht.columns.symm ▸ ht.basic_lt r hr)
  have hbind : t.plain.basicValues = some (Plain.sortedMap (t.rows.map fun r => (r.basic, r.rhs))) := by
    rw [Plain.basicValues]
    exact congrArg (Option.bind · fun pairs => some (Plain.sortedMap pairs)) hpairs
  rw [hbind, Plain.sortedMap_eq hbound, basicValues]
  simp only [Plain.lastValue?_basic, Option.map_map]
  rfl

variable [Scalar α]

/-- The value of a column. -/
@[simp]
theorem value_plain (column : ℕ) : t.plain.value column = some (t.value column) := by
  rw [Plain.value, basicRow_plain, value, find?_basic]
  cases hbasic : t.basicRow? column with
  | none => rfl
  | some row =>
    obtain ⟨r, hr⟩ := exists_of_basicRow t hbasic
    rw [Option.bind_some, hr]
    dsimp only
    rw [rhs_plain, rhs?, hr]
    rfl

/-- The price of a constraint. -/
theorem shadowPrice_plain (hr : t.rows[i]? = some r) :
    t.plain.shadowPrice i = Checked.shadowPrice t i r.label := by
  rw [Plain.shadowPrice, labels_plain t hr]
  rfl

/-- A decision variable at the current basis. -/
theorem variableReport_plain (hd : t.decisions[column]? = some d) :
    t.plain.variableReport column = Checked.variableReport t column d := by
  rw [Plain.variableReport, columnName_plain t hd, value_plain, basicRow_plain, isSome_basicRow]
  rfl

/-- The name of a constraint, if it has no slack. -/
theorem bindingName_plain (hr : t.rows[i]? = some r) :
    t.plain.bindingName i = some (if t.isBinding i then some r.label.name else none) := by
  rw [Plain.bindingName, value_plain, labels_plain t hr, Option.bind_eq_bind, Option.bind_some]
  split
  · rename_i hzero
    exact congrArg some (if_pos (decide_eq_true hzero)).symm
  · rename_i hslack
    exact congrArg some (if_neg (ne_true_of_eq_false (decide_eq_false hslack))).symm

/-- The changes of a basic cost that keep one more reduced cost. -/
theorem keepCost_plain (column : ℕ) (changes : Interval α) (a : α) (k : ℕ) :
    t.plain.keepCost column changes a k = Checked.keepCost t column changes a k := by
  rw [Plain.keepCost, basicRow_plain, isSome_basicRow]
  rfl

/-- The changes of a column's cost. -/
theorem costChanges_plain (column : ℕ) : t.plain.costChanges column = Checked.costChanges t column := by
  rw [Plain.costChanges, basicRow_plain, Checked.costChanges, find?_basic]
  cases hbasic : t.basicRow? column with
  | none => rfl
  | some row =>
    obtain ⟨r, hr⟩ := exists_of_basicRow t hbasic
    rw [Option.bind_some, hr]
    dsimp only
    rw [coefficients_plain, row?, hr]
    exact foldlM_congr (fun pair _ changes => keepCost_plain t column changes pair.1 pair.2) _

/-- The range of the objective coefficient of a decision variable. -/
theorem costRange_plain (hd : t.decisions[column]? = some d) :
    t.plain.costRange column = Checked.costRange t column d := by
  have hcost : t.plain.costs[column]? = some d.cost := by
    rw [plain, List.getElem?_map, hd]
    rfl
  rw [Plain.costRange, hcost, columnName_plain t hd, costChanges_plain]
  rfl

/-- The changes of a right-hand side that the rows allow. -/
theorem keepRhs_plain (slack : ℕ) :
    (List.range t.rowCount).foldlM (t.plain.keepRhs slack) .all = t.rows.foldlM (fun changes r =>
      r.entries[slack]?.map fun rate => changes.keepNonNegative t.tolerance r.rhs rate) .all := by
  refine foldlM_range_eq (fun i r hr changes => ?_) _
  rw [Plain.keepRhs, coefficient_plain, coefficient?, rhs_plain, rhs?, hr]
  cases hrate : r.entries[slack]? with
  | none => rw [Option.bind_some, hrate]; rfl
  | some rate => rw [Option.bind_some, hrate]; rfl

/-- The range of the right-hand side of a constraint. -/
theorem rhsRange_plain (hr : t.rows[i]? = some r) :
    t.plain.rhsRange i = Checked.rhsRange t i r.label := by
  rw [Plain.rhsRange, labels_plain t hr, length_rows_plain, keepRhs_plain]
  rfl

/-- Prices and ranges at the current basis. -/
theorem analysis_plain : t.plain.analysis = Checked.analysis t := by
  have hprices : (List.range t.rowCount).mapM t.plain.shadowPrice =
      t.rows.zipIdx.mapM fun pair => Checked.shadowPrice t pair.2 pair.1.label :=
    mapM_range_eq fun i r hr => shadowPrice_plain t hr
  have hreports : (List.range t.decisions.length).mapM t.plain.variableReport =
      t.decisions.zipIdx.mapM fun pair => Checked.variableReport t pair.2 pair.1 :=
    mapM_range_eq fun column d hd => variableReport_plain t hd
  have hbinding : (List.range t.rowCount).mapM t.plain.bindingName = some (t.rows.zipIdx.map fun pair =>
      if t.isBinding pair.2 then some pair.1.label.name else none) :=
    mapM_range_eq_some fun i r hr => bindingName_plain t hr
  have hcosts : (List.range t.decisions.length).mapM t.plain.costRange =
      t.decisions.zipIdx.mapM fun pair => Checked.costRange t pair.2 pair.1 :=
    mapM_range_eq fun column d hd => costRange_plain t hd
  have hrhs : (List.range t.rowCount).mapM t.plain.rhsRange =
      t.rows.zipIdx.mapM fun pair => Checked.rhsRange t pair.2 pair.1.label :=
    mapM_range_eq fun i r hr => rhsRange_plain t hr
  have hdecisions : t.plain.structuralCount = t.decisions.length := rfl
  rw [Plain.analysis, length_rows_plain, hdecisions, hprices, hreports, hbinding, hcosts, hrhs,
    Checked.analysis]
  simp only [Option.bind_eq_bind, Option.bind_some, List.filterMap_map]
  rfl

end Columns

end Tableau

/-! ## Solutions -/

namespace Tableau.HasShape

variable [Scalar α] {t : Tableau α} {n m : ℕ}

/-- The solution at the current basis. -/
theorem readSolution_plain (ht : t.HasShape n m) (iterations : ℕ) :
    t.plain.readSolution iterations = some (t.readSolution iterations) := by
  have hprices : ((List.range t.rowCount).mapM fun i =>
      (t.plain.reducedCost (t.plain.slackColumn i)).map (i, ·)) = _ := ht.mapM_slackCosts
  rw [Plain.readSolution, ht.basicValues_plain, length_rows_plain, hprices, objectiveValue_plain,
    analysis_plain, ht.checked_analysis]
  rfl

/-- The solution that a report stands for. -/
theorem extract_plain (ht : t.HasShape n m) (report : Report α) :
    t.plain.extract report.plain = some (t.extract report) := by
  rw [Plain.extract, Tableau.extract]
  change (if report.status = .optimal then t.plain.readSolution report.iterations else _) = _
  rw [ht.readSolution_plain]
  split
  · rfl
  · rfl

/-- The solution of a tableau as it stands. -/
theorem solution_plain (ht : t.HasShape n m) : t.plain.solution = some t.solution := by
  have hrhs : (List.range t.rowCount).mapM t.plain.rhs = some (t.rows.map (·.rhs)) := by
    rw [← map_zipIdx_fst]
    refine mapM_range_eq_some fun i r hr => ?_
    rw [rhs_plain, rhs?, hr]
    rfl
  rw [Plain.solution, Tableau.solution, isPrimalFeasible_plain, isDualFeasible_plain,
    ht.readSolution_plain, length_rows_plain, hrhs, reducedCosts_plain]
  simp only [Option.bind_eq_bind, Option.bind_some, List.countP_map]
  change (if t.isOptimal then _ else _) = _
  split
  · rfl
  · rfl

end Tableau.HasShape

end WarmSimplex
