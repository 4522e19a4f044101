import WarmSimplex.Proofs.History

/-!
# The shape of a tableau

Every row is as wide as the objective row, with a column for each decision variable and for the slack
of each row, and every basic column is one of these. Building a tableau makes this so, and every edit
keeps it, accepted or refused. Labels and columns that are there keep their index.

Nothing is assumed of the arithmetic: entries may be undefined or infinite, and tolerances may be
anything.
-/

namespace WarmSimplex

namespace Tableau

section Parts

variable {α : Type} {t u : Tableau α} {n m : ℕ}

/-- The tableau has the given numbers of decision variables and constraints, and all parts of it fit
together. -/
structure HasShape (t : Tableau α) (n m : ℕ) : Prop where
  structural : t.structuralCount = n
  rowCount : t.rowCount = m
  columns : t.columnCount = n + m
  width : ∀ r ∈ t.rows, r.coefficients.length = n + m
  basic_lt : ∀ r ∈ t.rows, r.basic < n + m
  relation : ∀ r ∈ t.rows, r.label.relation ≠ .eq

/-- The objective row may be replaced by one of the same width. -/
theorem HasShape.withObjective (ht : t.HasShape n m) {objective : Equation α}
    (hwidth : objective.coefficients.length = n + m) :
    (t.withObjective objective).HasShape n m :=
  ⟨ht.structural, ht.rowCount, hwidth, ht.width, ht.basic_lt, ht.relation⟩

/-- A tableau that fits together does so with its own counts. -/
theorem HasShape.self (ht : t.HasShape n m) : t.HasShape t.structuralCount t.rowCount := by
  rw [ht.structural, ht.rowCount]
  exact ht

/-- The slack of a constraint that is there is a column. -/
theorem HasShape.slackColumn_lt (ht : t.HasShape n m) {i : ℕ} (hi : i < m) :
    t.slackColumn i < n + m := by
  rw [slackColumn, ht.structural]
  exact Nat.add_lt_add_left hi n

/-- The sizes of all parts of a tableau, and the ranges of its indices. There is a basic column and a label
for each row here, since the row carries them; `Plain.Fits` says it of lists that do not. -/
structure WellShaped (t : Tableau α) : Prop where
  rows : ∀ r ∈ t.rows, r.entries.length = t.structuralCount + t.rowCount + 1
  objective : t.objective.entries.length = t.structuralCount + t.rowCount + 1
  basis : t.basis.length = t.rowCount ∧ ∀ column ∈ t.basis, column < t.columnCount
  labels : (t.rows.map (·.label)).length = t.rowCount ∧ ∀ r ∈ t.rows, r.label.relation ≠ .eq
  names : (t.decisions.map (·.name)).length = t.structuralCount
  costs : (t.decisions.map (·.cost)).length = t.structuralCount
  slacks : ∀ i < t.rowCount, (t.column? (t.slackColumn i)).map (·.kind) = some (.slack i)

/-- A tableau that fits together has its sizes and ranges from its counts. -/
theorem HasShape.wellShaped (ht : t.HasShape n m) : t.WellShaped where
  rows r hr := by
    rw [Equation.entries, List.length_append, ht.width r hr, ht.structural, ht.rowCount]
    rfl
  objective := by
    have hwidth : t.objective.coefficients.length = n + m := ht.columns
    rw [Equation.entries, List.length_append, hwidth, ht.structural, ht.rowCount]
    rfl
  basis := ⟨List.length_map _, List.forall_mem_map.mpr fun r hr => ht.columns ▸ ht.basic_lt r hr⟩
  labels := ⟨List.length_map _, ht.relation⟩
  names := List.length_map _
  costs := List.length_map _
  slacks i hi := by
    rw [column?, ht.columns, if_pos (ht.slackColumn_lt (ht.rowCount ▸ hi))]
    simp [slackColumn]

/-- Decision variables and constraints that are there stay where they are. -/
structure KeepsIndices (t u : Tableau α) : Prop where
  decisions : u.decisions = t.decisions
  labels : t.rows.map (·.label) <+: u.rows.map (·.label)

namespace KeepsIndices

/-- Nothing moves if nothing happens. -/
theorem refl (t : Tableau α) : t.KeepsIndices t := ⟨rfl, List.prefix_rfl⟩

/-- What stays twice stays. -/
theorem trans {next : Tableau α} (htu : t.KeepsIndices u) (hu : u.KeepsIndices next) :
    t.KeepsIndices next :=
  ⟨hu.decisions.trans htu.decisions, htu.labels.trans hu.labels⟩

/-- The label of a constraint that is there. -/
theorem label_eq (h : t.KeepsIndices u) {i : ℕ} (hi : i < t.rowCount) :
    u.rows[i]?.map (·.label) = t.rows[i]?.map (·.label) := by
  obtain ⟨further, hfurther⟩ := h.labels
  have hlength : i < (t.rows.map (·.label)).length := by
    rw [List.length_map]
    exact hi
  rw [← List.getElem?_map, ← hfurther, List.getElem?_append_left hlength, List.getElem?_map]

/-- A pivot moves nothing. -/
theorem pivotAt [Scalar α] (t : Tableau α) (row column : ℕ) :
    t.KeepsIndices (t.pivotAt row column) :=
  ⟨decisions_pivotAt t row column, (labels_pivotAt t row column).symm ▸ List.prefix_rfl⟩

/-- A new constraint comes after those that are there. -/
theorem appendStored [Scalar α] (t : Tableau α) (c : StoredConstraint α) :
    t.KeepsIndices (t.appendStored c) := by
  refine ⟨rfl, ?_⟩
  simp [Tableau.appendStored, addZeroColumn, Function.comp_def]

end KeepsIndices

/-- Columns that are there keep their names. -/
theorem HasShape.columnName_eq (ht : t.HasShape n m) (hu : t.KeepsIndices u) {column : ℕ}
    (hcolumn : column < t.columnCount) : u.columnName? column = t.columnName? column := by
  have hstructural : u.structuralCount = t.structuralCount := congrArg List.length hu.decisions
  rw [columnName?, columnName?, hstructural, hu.decisions]
  split
  · rfl
  · have hrow : column - t.structuralCount < t.rowCount := by
      rw [ht.columns] at hcolumn
      have := ht.structural
      have := ht.rowCount
      omega
    have hname := congrArg (Option.map Label.name) (hu.label_eq hrow)
    rw [Option.map_map, Option.map_map] at hname
    exact congrArg (Option.map ("slack_" ++ ·)) hname

end Parts

end Tableau

variable {α : Type} [Scalar α]

/-- A further column without a coefficient changes no coefficient. -/
theorem Equation.coefficient_addColumn_zero (e : Equation α) (column : ℕ) :
    (e.addColumn 0).coefficient column = e.coefficient column := by
  simp only [addColumn, coefficient, List.getD_eq_getElem?_getD, List.getElem?_append]
  split
  · rfl
  · rename_i hlast
    rw [List.getElem?_eq_none (not_lt.mp hlast)]
    cases column - e.coefficients.length <;> rfl

/-- Clearing the basic columns of rows of the same width keeps the width. -/
theorem Equation.length_reduce {e : Equation α} {rows : List (Row α)}
    (hwidth : ∀ r ∈ rows, r.coefficients.length = e.coefficients.length) :
    (e.reduce rows).coefficients.length = e.coefficients.length := by
  induction rows generalizing e with
  | nil => rfl
  | cons r rest ih =>
    obtain ⟨hr, hrest⟩ := List.forall_mem_cons.mp hwidth
    have hfirst := length_eliminate r.basic hr
    change ((e.eliminate r.toEquation r.basic).reduce rest).coefficients.length = _
    rw [ih (by rwa [hfirst]), hfirst]

/-- A `≤` form is not labelled as an equation. -/
theorem Constraint.relation_of_stored? {c : Constraint α} {s : StoredConstraint α}
    (hs : c.stored? = some s) : s.label.relation ≠ .eq := by
  obtain ⟨name, coefficients, relation, rhs⟩ := c
  obtain ⟨sign, hsign, rfl⟩ := Option.map_eq_some_iff.mp hs
  rintro rfl
  cases hsign

/-- The forms of a program are as wide as asked for, and none is labelled as an equation. -/
theorem forall_of_storeAll {width : ℕ} {constraints : List (Constraint α)}
    {stored : List (StoredConstraint α)} (h : storeAll width constraints = .ok stored) :
    ∀ s ∈ stored, s.coefficients.length = width ∧ s.label.relation ≠ .eq := by
  induction constraints generalizing stored with
  | nil =>
    cases h
    simp
  | cons c rest ih =>
    rw [storeAll] at h
    split at h
    · cases h
    · rename_i s hs
      split at h
      · cases h
      · rename_i others hothers
        cases h
        obtain ⟨hwidth, hform⟩ := Constraint.store_eq_ok hs
        refine List.forall_mem_cons.mpr ⟨⟨?_, Constraint.relation_of_stored? hform⟩, ih hothers⟩
        obtain ⟨sign, _, rfl⟩ := Option.map_eq_some_iff.mp hform
        rw [List.length_map, hwidth]

namespace Tableau

variable {t u : Tableau α} {n m : ℕ}

/-! ## Single changes -/

/-- A row of the tableau with its entries. -/
theorem exists_row_of_lt {row : ℕ} (hrow : row < t.rowCount) :
    ∃ r, t.rows[row]? = some r ∧ ∀ column, t.coefficient row column = r.coefficient column := by
  have hr : t.rows[row]? = some (t.rows.get ⟨row, hrow⟩) := List.getElem?_eq_getElem hrow
  exact ⟨_, hr, fun column => by rw [coefficient, hr]⟩

/-- A new constraint leaves the entries of the older rows as they are. -/
theorem coefficient_appendStored {row : ℕ} (hrow : row < t.rowCount) (c : StoredConstraint α)
    (column : ℕ) : (t.appendStored c).coefficient row column = t.coefficient row column := by
  obtain ⟨r, hr, hread⟩ := exists_row_of_lt hrow
  have hwider : (t.appendStored c).rows[row]? = some { r with toEquation := r.addColumn 0 } := by
    have hlength : row < t.addZeroColumn.rows.length := by
      rw [addZeroColumn, List.length_map]
      exact hrow
    change (t.addZeroColumn.rows ++ _)[row]? = _
    rw [List.getElem?_append_left hlength, addZeroColumn, List.getElem?_map, hr]
    rfl
  rw [hread, coefficient, hwider]
  exact r.coefficient_addColumn_zero column

namespace HasShape

/-- Repricing keeps the shape. -/
theorem reprice (ht : t.HasShape n m) :
    t.reprice.HasShape n m := by
  apply ht.withObjective
  have hobjective : t.objective.coefficients.length = n + m := ht.columns
  rw [Equation.length_reduce fun r hr => (ht.width r hr).trans hobjective.symm, hobjective]

/-- A pivot on a column of the tableau keeps the shape, whatever its entry is. -/
theorem pivotAt (ht : t.HasShape n m) (row : ℕ) {column : ℕ}
    (hcolumn : column < n + m) :
    (t.pivotAt row column).HasShape n m := by
  rw [Tableau.pivotAt]
  split
  · exact ht
  · rename_i r hr
    have hmem : r ∈ t.rows := List.mem_of_getElem? hr
    have hsolved : (r.solveFor column).coefficients.length = n + m := by
      change (r.normalize column).coefficients.length = _
      rw [Equation.length_normalize, ht.width r hmem]
    have hobjective : t.objective.coefficients.length = n + m := ht.columns
    -- each row is the one that was solved, or an older one with the column cleared
    have hrows : ∀ s ∈ t.rows.mapIdx fun i other =>
        if i = row then r.solveFor column else other.clear (r.solveFor column).toEquation column,
        s = r.solveFor column ∨
          ∃ other ∈ t.rows, s = other.clear (r.solveFor column).toEquation column := by
      intro s hs
      obtain ⟨i, hi, rfl⟩ := List.mem_mapIdx.mp hs
      split
      · exact .inl rfl
      · exact .inr ⟨_, List.getElem_mem hi, rfl⟩
    refine ⟨ht.structural, ?_, ?_, fun s hs => ?_, fun s hs => ?_, fun s hs => ?_⟩
    · rw [← ht.rowCount, Tableau.rowCount, List.length_mapIdx]
      rfl
    · change (t.objective.eliminate _ column).coefficients.length = _
      rw [Equation.length_eliminate column (hsolved.trans hobjective.symm), hobjective]
    · rcases hrows s hs with rfl | ⟨other, hother, rfl⟩
      · exact hsolved
      · have hwidth := ht.width other hother
        change (other.eliminate _ column).coefficients.length = _
        rw [Equation.length_eliminate column (hsolved.trans hwidth.symm), hwidth]
    · rcases hrows s hs with rfl | ⟨other, hother, rfl⟩
      · exact hcolumn
      · exact ht.basic_lt other hother
    · rcases hrows s hs with rfl | ⟨other, hother, rfl⟩
      · exact ht.relation r hmem
      · exact ht.relation other hother

/-- A new constraint makes room for itself and its slack. -/
theorem appendStored (ht : t.HasShape n m) {c : StoredConstraint α}
    (hwidth : c.coefficients.length ≤ t.columnCount) (hrelation : c.label.relation ≠ .eq) :
    (t.appendStored c).HasShape n (m + 1) := by
  have hcolumns : t.objective.coefficients.length = n + m := ht.columns
  have hwider : ∀ r ∈ t.addZeroColumn.rows,
      r.coefficients.length = n + (m + 1) ∧
        r.basic < n + (m + 1) ∧ r.label.relation ≠ .eq := by
    refine List.forall_mem_map.mpr fun r hr => ⟨?_, ?_, ht.relation r hr⟩
    · rw [Equation.length_addColumn, ht.width r hr, Nat.add_assoc]
    · exact (ht.basic_lt r hr).trans (Nat.lt_succ_self _)
  have hnew : (t.newEquation c.coefficients c.label.rhs).coefficients.length =
      n + (m + 1) := by
    rw [length_newEquation hwidth, ht.columns, Nat.add_assoc]
  have hlast : ∀ r ∈ (t.appendStored c).rows, r ∈ t.addZeroColumn.rows ∨
      r.coefficients.length = n + (m + 1) ∧ r.basic = t.columnCount ∧
        r.label = c.label := by
    intro r hr
    rcases List.mem_append.mp hr with hold | hr
    · exact .inl hold
    · cases List.mem_singleton.mp hr
      refine .inr ⟨?_, rfl, rfl⟩
      rw [Equation.length_reduce fun r hr => (hwider r hr).1.trans hnew.symm, hnew]
  refine ⟨ht.structural, ?_, ?_, fun r hr => ?_, fun r hr => ?_, fun r hr => ?_⟩
  · rw [rowCount_appendStored, ht.rowCount]
  · rw [columnCount_appendStored, ht.columns, Nat.add_assoc]
  · exact (hlast r hr).elim (fun hold => (hwider r hold).1) fun h => h.1
  · refine (hlast r hr).elim (fun hold => (hwider r hold).2.1) fun h => ?_
    rw [h.2.1, ht.columns]
    exact Nat.lt_succ_self _
  · exact (hlast r hr).elim (fun hold => (hwider r hold).2.2) fun h => h.2.2 ▸ hrelation

end HasShape

/-! ## Solves -/

/-- A tableau on the way of a solve: the shape is that of the start, and nothing has moved. -/
structure OnTheWay (t u : Tableau α) : Prop where
  shape : u.HasShape t.structuralCount t.rowCount
  indices : t.KeepsIndices u

/-- The loop of the solver keeps the shape and moves nothing. -/
theorem OnTheWay.iterate {p : Progress α} (hp : t.OnTheWay p.tableau) (rule : EnteringRule)
    (deadline : Deadline) (budget : ℕ) :
    t.OnTheWay (p.iterate rule deadline budget).1.tableau := by
  refine Progress.iterate_induction (I := t.OnTheWay) rule
    (fun u next kind row columns column hu _ _ hpivot => ?_) deadline budget p hp
  obtain ⟨_, hcolumn, _, rfl⟩ := pivot_eq_ok_iff.mp hpivot
  exact ⟨hu.shape.pivotAt row (hu.shape.columns ▸ hcolumn), hu.indices.trans (.pivotAt u row column)⟩

/-- The feasibility phase starts with a zero objective of the width of the tableau. -/
theorem OnTheWay.idleEnd (ht : t.HasShape t.structuralCount t.rowCount) (options : SolveOptions) :
    t.OnTheWay (t.idleEnd options).1.tableau := by
  have hstart : t.OnTheWay (t.withObjective (Equation.zero t.columnCount)) :=
    ⟨ht.withObjective (by rw [Equation.length_zero, ht.columns]), rfl, List.prefix_rfl⟩
  exact hstart.iterate (p := Progress.start _) _ _ _

/-- The objective that comes back after the feasibility phase fits the tableau that was reached. -/
theorem OnTheWay.restoreFeasibility (ht : t.HasShape t.structuralCount t.rowCount)
    (options : SolveOptions) : t.OnTheWay (t.restoreFeasibility options).1.tableau := by
  have hreached := OnTheWay.idleEnd ht options
  exact ⟨(hreached.shape.withObjective ht.columns).reprice, hreached.indices.decisions,
    hreached.indices.labels⟩

/-- A run keeps the shape and moves nothing, whatever its verdict is. -/
theorem OnTheWay.run (ht : t.HasShape t.structuralCount t.rowCount) (options : SolveOptions) :
    t.OnTheWay (t.run options).1.tableau := by
  have hrestored := OnTheWay.restoreFeasibility ht options
  rcases t.run_cases options with hrun | ⟨_, hrun⟩ | hrun
  · rw [hrun]
    exact OnTheWay.iterate (p := Progress.start t) ⟨ht, .refl t⟩ _ _ _
  · rwa [hrun]
  · rw [hrun]
    exact hrestored.iterate _ _ _

/-! ## Edits -/

/-- The tableau fits together, and what was there before is where it was. -/
structure Extends (t u : Tableau α) (n : ℕ) : Prop where
  shape : ∃ m, u.HasShape n m
  indices : t.KeepsIndices u

namespace HasShape

/-- Adding a constraint in `≤` form keeps a tableau together. -/
theorem append (ht : t.HasShape n m) {c : StoredConstraint α} (hrelation : c.label.relation ≠ .eq)
    (h : t.append c = .ok u) : t.Extends u n := by
  obtain ⟨hfault, rfl⟩ := append_eq_ok_iff.mp h
  refine ⟨⟨m + 1, ht.appendStored ?_ hrelation⟩, .appendStored t c⟩
  by_contra hwide
  rw [appendFault?, if_pos (not_le.mp hwide)] at hfault
  cases hfault

/-- Adding a constraint keeps a tableau together. -/
theorem addConstraint (ht : t.HasShape n m) {c : Constraint α} (h : t.addConstraint c = .ok u) :
    t.Extends u n := by
  obtain ⟨s, hs, happend⟩ := append_of_addConstraint h
  exact ht.append (Constraint.relation_of_stored? hs) happend

/-- Adding an equation keeps a tableau together. -/
theorem addEquality (ht : t.HasShape n m) {name : String} {coefficients : List α} {rhs : α}
    (h : t.addEquality name coefficients rhs = .ok u) : t.Extends u n := by
  obtain ⟨upper, hupper, hlower⟩ := addConstraint_of_addEquality h
  obtain ⟨⟨k, hshape⟩, hfirst⟩ := ht.addConstraint hupper
  obtain ⟨hlast, hsecond⟩ := hshape.addConstraint hlower
  exact ⟨hlast, hfirst.trans hsecond⟩

/-- An edit that is not refused keeps a tableau together. -/
theorem perform (ht : t.HasShape n m) {e : Edit α} {reply : Reply α}
    (h : t.perform e = .ok (u, reply)) : t.Extends u n := by
  cases e with
  | setTolerances tolerance pivotTolerance =>
    cases h
    exact ⟨⟨m, ht.structural, ht.rowCount, ht.columns, ht.width, ht.basic_lt, ht.relation⟩,
      rfl, List.prefix_rfl⟩
  | appendRow coefficients rhs =>
    obtain ⟨made, hmade, heq⟩ := map_eq_ok h
    cases heq
    exact ht.append (by simp) hmade
  | addConstraint name coefficients relation rhs =>
    obtain ⟨made, hmade, heq⟩ := map_eq_ok h
    cases heq
    exact ht.addConstraint hmade
  | addEquality name coefficients rhs =>
    obtain ⟨made, hmade, heq⟩ := map_eq_ok h
    cases heq
    exact ht.addEquality hmade
  | pivot row column =>
    obtain ⟨made, hmade, heq⟩ := map_eq_ok h
    cases heq
    obtain ⟨_, hcolumn, _, rfl⟩ := pivot_eq_ok_iff.mp hmade
    exact ⟨⟨m, ht.pivotAt row (ht.columns ▸ hcolumn)⟩, .pivotAt t row column⟩
  | solve options =>
    cases h
    have hrun := OnTheWay.run ht.self options
    exact ⟨⟨_, ht.structural ▸ hrun.shape⟩, hrun.indices⟩

/-- A history keeps a tableau together, whatever is refused on the way. -/
theorem afterEdits (ht : t.HasShape n m) (history : List (Edit α)) :
    t.Extends (t.afterEdits history) n := by
  induction history generalizing t m with
  | nil => exact ⟨⟨m, ht⟩, .refl t⟩
  | cons e rest ih =>
    have hfirst : t.Extends (t.afterEdit e) n := by
      rw [Tableau.afterEdit]
      split
      · rename_i hperform
        exact ht.perform hperform
      · exact ⟨⟨m, ht⟩, .refl t⟩
    obtain ⟨k, hshape⟩ := hfirst.shape
    have hrest := ih hshape
    exact ⟨hrest.shape, hfirst.indices.trans hrest.indices⟩

end HasShape

/-! ## Tableaus that were built -/

/-- The tableau was built from a matrix or from a program. -/
def IsInitial (t : Tableau α) : Prop :=
  (∃ a b c, ofMatrix a b c = .ok t) ∨ ∃ p : LinearProgram α, p.toTableau = .ok t

/-- Constraints of the right width make a tableau that fits together. -/
theorem hasShape_ofStored {decisions : List (Decision α)} {sense : Sense} {costs : List α}
    {stored : List (StoredConstraint α)} (hcosts : costs.length = decisions.length)
    (hstored : ∀ s ∈ stored, s.coefficients.length = decisions.length ∧ s.label.relation ≠ .eq) :
    (ofStored decisions sense costs stored).HasShape decisions.length stored.length := by
  have hrows : ∀ r ∈ (ofStored decisions sense costs stored).rows,
      ∃ c i, stored[i]? = some c ∧ r.coefficients = c.coefficients ++ unitEntries stored.length i ∧
        r.basic = decisions.length + i ∧ r.label = c.label := by
    intro r hr
    obtain ⟨⟨c, i⟩, hmem, rfl⟩ := List.mem_map.mp hr
    exact ⟨c, i, List.mem_zipIdx_iff_getElem?.mp hmem, rfl, rfl, rfl⟩
  refine ⟨rfl, ?_, ?_, fun r hr => ?_, fun r hr => ?_, fun r hr => ?_⟩
  · simp [rowCount, ofStored]
  · simp [columnCount, ofStored, hcosts]
  · obtain ⟨c, i, hc, hcoefficients, _⟩ := hrows r hr
    rw [hcoefficients, List.length_append, (hstored c (List.mem_of_getElem? hc)).1, unitEntries,
      List.length_set, List.length_replicate]
  · obtain ⟨c, i, hc, _, hbasic, _⟩ := hrows r hr
    rw [hbasic]
    exact Nat.add_lt_add_left (List.getElem?_eq_some_iff.mp hc).1 _
  · obtain ⟨c, i, hc, _, _, hlabel⟩ := hrows r hr
    rw [hlabel]
    exact (hstored c (List.mem_of_getElem? hc)).2

/-- A tableau that was built fits together. -/
theorem IsInitial.hasShape (ht : t.IsInitial) : ∃ n m, t.HasShape n m := by
  rcases ht with ⟨a, b, c, hmade⟩ | ⟨p, hmade⟩
  · rw [ofMatrix] at hmade
    split at hmade
    · cases hmade
    · rename_i hfault
      cases hmade
      obtain ⟨_, hshape⟩ := (Option.orElse_eq_none _ _).mp hfault
      refine ⟨_, _, hasShape_ofStored (by simp) fun s hs => ?_⟩
      obtain ⟨⟨⟨row, rhs⟩, i⟩, hmem, rfl⟩ := List.mem_map.mp hs
      have hrow : row ∈ a := (List.of_mem_zip (List.fst_mem_of_mem_zipIdx hmem)).1
      simp [width_of_shapeFault? hshape row hrow]
  · rw [LinearProgram.toTableau] at hmade
    split at hmade
    · cases hmade
    · rename_i hobjective
      split at hmade
      · cases hmade
      · rename_i stored hstored
        split at hmade
        · cases hmade
        · cases hmade
          have hdecisions : p.decisions.length = p.variableCount := by
            rw [LinearProgram.decisions, List.length_zipWith, not_not.mp hobjective]
            exact min_self _
          refine ⟨_, _, hasShape_ofStored ?_ (hdecisions.symm ▸ forall_of_storeAll hstored)⟩
          rw [hdecisions, LinearProgram.costs, List.length_map, not_not.mp hobjective]

/-- The tableau has one more constraint, with its slack as the last column and as the basic column of
the last row. The entries that were there are where they were. -/
structure GainsConstraint (t u : Tableau α) : Prop where
  rowCount : u.rowCount = t.rowCount + 1
  columnCount : u.columnCount = t.columnCount + 1
  basis : u.basis = t.basis ++ [t.slackColumn t.rowCount]
  entries : ∀ i < t.rowCount, ∀ column, u.coefficient i column = t.coefficient i column
  reducedCosts : ∀ column, u.reducedCost column = t.reducedCost column

/-- A constraint that is accepted comes last, with its slack. -/
theorem HasShape.gainsConstraint (ht : t.HasShape n m) {c : StoredConstraint α}
    (h : t.append c = .ok u) : t.GainsConstraint u := by
  obtain ⟨_, rfl⟩ := append_eq_ok_iff.mp h
  refine ⟨rowCount_appendStored t c, columnCount_appendStored t c, ?_,
    fun i hi column => coefficient_appendStored hi c column,
    fun column => t.objective.coefficient_addColumn_zero column⟩
  rw [basis_appendStored, slackColumn, ht.columns, ht.structural, ht.rowCount]

end Tableau

end WarmSimplex
