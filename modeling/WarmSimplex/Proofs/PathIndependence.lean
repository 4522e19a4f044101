import WarmSimplex.Proofs.Dictionary.Uniqueness
import WarmSimplex.Proofs.Shape

/-!
# The tableau is a function of its basis

Whatever pivots and solves led to it, and whenever its constraints were added, a tableau has the rows
and the objective row that belong to its basis. So a pivot is undone by the pivot back, and a
constraint may be added before or after pivots on the older rows.

The basis is compared row by row. The columns that a new constraint mentions may be slacks, so the
order in which constraints are added matters, and it is the same on both sides here.
-/

namespace WarmSimplex

open TwoPhase (BasicRow)

/-- The points that meet constraints with their slacks depend on their coefficients and right-hand
sides only. -/
theorem SlackForm.congr {firstSlack : ℕ} {given other : List (StoredConstraint ℚ)}
    (hsame : given.map (·.equation) = other.map (·.equation)) {v : ℕ → ℚ}
    (hv : SlackForm firstSlack given v) : SlackForm firstSlack other v := by
  intro i c hc
  have hentry : (given[i]?).map (·.equation) = some c.equation := by
    rw [← List.getElem?_map, hsame, List.getElem?_map, hc]
    rfl
  obtain ⟨b, hb, hequation⟩ := Option.map_eq_some_iff.mp hentry
  have hholds : b.equation.eval v + v (firstSlack + i) = b.equation.rhs := hv i b hb
  rwa [hequation] at hholds

/-- The edit adds a constraint, or two for an equation. -/
def Edit.AddsConstraint : Edit ℚ → Prop
  | .appendRow _ _ => True
  | .addConstraint _ _ _ _ => True
  | .addEquality _ _ _ => True
  | _ => False

/-- The edit pivots on one of the given numbers of rows and columns. -/
def Edit.PivotsWithin (rows columns : ℕ) : Edit ℚ → Prop
  | .pivot row column => row < rows ∧ column < columns
  | _ => False

/-- An edit that pivots has a row and a column. -/
theorem Edit.PivotsWithin.exists_eq {rows columns : ℕ} {e : Edit ℚ}
    (he : e.PivotsWithin rows columns) :
    ∃ row column, e = .pivot row column ∧ row < rows ∧ column < columns := by
  cases e with
  | pivot row column => exact ⟨row, column, rfl, he⟩
  | setTolerances tolerance pivotTolerance => cases he
  | appendRow coefficients rhs => cases he
  | addConstraint name coefficients relation rhs => cases he
  | addEquality name coefficients rhs => cases he
  | solve options => cases he

/-- A result that is paired with something is still the first of the pair. -/
theorem map_fst_map {ε β γ : Type} (x : Except ε β) (c : γ) : (x.map (·, c)).map Prod.fst = x := by
  cases x <;> rfl

namespace Tableau

variable {t u : Tableau ℚ} {costs : List ℚ} {given other : List (StoredConstraint ℚ)}
  {c : StoredConstraint ℚ} {row column : ℕ} {r : Row ℚ}

/-! ## Two tableaus with one basis -/

/-- A tableau is its dictionary with the labels and the settings. -/
theorem eq_of_dictionary (hdictionary : u.dictionary = t.dictionary)
    (hlabels : u.rows.map (·.label) = t.rows.map (·.label)) (hsettings : u.settings = t.settings) :
    u = t := by
  obtain ⟨hdecisions, hsense, htolerance, hpivotTolerance⟩ := settings_eq_iff.mp hsettings
  have hrows : u.rows = t.rows := by
    have hunlabelled : u.rows.map Row.unlabelled = t.rows.map Row.unlabelled :=
      congrArg Dictionary.rows hdictionary
    apply List.ext_getElem
    · simpa using congrArg List.length hlabels
    · intro i hi hi'
      have hlabel := congrArg (·[i]?) hlabels
      have hentries := congrArg (·[i]?) hunlabelled
      simp only [List.getElem?_map, List.getElem?_eq_getElem hi, List.getElem?_eq_getElem hi',
        Option.map_some, Option.some.injEq, Row.unlabelled, BasicRow.mk.injEq] at hlabel hentries
      cases hr : u.rows[i]
      cases hs : t.rows[i]
      simp_all
  have hobjective : u.objective = t.objective := congrArg Dictionary.objective hdictionary
  cases t
  cases u
  simp_all

/-- Tableaus that encode the same equations and have the same basis have the same rows and the same
objective row. -/
theorem Encodes.dictionary_eq (ht : t.Encodes costs given) (hu : u.Encodes costs other)
    (hstructural : u.structuralCount = t.structuralCount)
    (hsame : given.map (·.equation) = other.map (·.equation)) (hbasis : u.basis = t.basis) :
    u.dictionary = t.dictionary := by
  have hlength : given.length = other.length := by simpa using congrArg List.length hsame
  have hholds : ∀ v, t.Holds v → u.Holds v := by
    intro v hv
    rw [hu.holds_iff, hstructural]
    exact ((ht.holds_iff v).mp hv).congr hsame
  refine ht.canonical.eq_of_basis hu.canonical ?_ ?_ (fun v hv => ?_) fun v hv => ?_
  · change u.columnCount = t.columnCount
    rw [hu.columns, ht.columns, hstructural, hlength]
  · rw [basis_dictionary, basis_dictionary, hbasis]
  · exact holds_dictionary.mpr (hholds v (holds_dictionary.mp hv))
  · have hv := holds_dictionary.mp hv
    exact (hu.gap v (hholds v hv)).trans (ht.gap v hv).symm

/-- Tableaus that encode the same constraints and have the same basis and settings are equal. -/
theorem Encodes.eq_of_basis (ht : t.Encodes costs given) (hu : u.Encodes costs given)
    (hsettings : u.settings = t.settings) (hbasis : u.basis = t.basis) : u = t :=
  eq_of_dictionary
    (ht.dictionary_eq hu (congrArg List.length (settings_eq_iff.mp hsettings).1) rfl hbasis)
    (hu.labels.trans ht.labels.symm) hsettings

/-! ## A pivot and the way back -/

/-- A pivot keeps the number of columns. -/
theorem Encodes.columnCount_pivotAt (ht : t.Encodes costs given) (hr : t.rows[row]? = some r)
    (hpivot : r.coefficient column ≠ 0) : (t.pivotAt row column).columnCount = t.columnCount := by
  rw [(ht.pivotAt hr hpivot).columns, ht.columns, structuralCount, decisions_pivotAt]
  rfl

/-- The row of a pivot is solved for its column. -/
theorem getElem?_pivotAt (hr : t.rows[row]? = some r) :
    (t.pivotAt row column).rows[row]? = some (r.solveFor column) := by
  simp [pivotAt, hr, List.getElem?_mapIdx]

/-- After a pivot, the entry in the column that has left the basis is the inverse of the pivot. -/
theorem Encodes.coefficient_solveFor (ht : t.Encodes costs given) (hr : t.rows[row]? = some r)
    (hpivot : r.coefficient column ≠ 0) :
    (r.solveFor column).coefficient r.basic = (r.coefficient column)⁻¹ := by
  have hown : r.coefficient r.basic = 1 :=
    forall_mem_dictionary_rows.mp ht.canonical.solved.own r (List.mem_of_getElem? hr)
  change (r.normalize column).coefficient r.basic = _
  rw [Equation.normalize_eq_divide hpivot, Equation.coefficient_divide, hown, one_div]

/-- The pivot back on the column that has left the basis undoes a pivot. -/
theorem Encodes.pivotAt_back (ht : t.Encodes costs given) (hr : t.rows[row]? = some r)
    (hpivot : r.coefficient column ≠ 0) :
    (t.pivotAt row column).pivotAt row r.basic = t := by
  have hback : (r.solveFor column).coefficient r.basic ≠ 0 := by
    rw [ht.coefficient_solveFor hr hpivot]
    exact inv_ne_zero hpivot
  have hencodes := (ht.pivotAt hr hpivot).pivotAt (getElem?_pivotAt hr) hback
  refine ht.eq_of_basis hencodes (by rw [settings_pivotAt, settings_pivotAt]) ?_
  obtain ⟨hrow, rfl⟩ := List.getElem?_eq_some_iff.mp hr
  have hlength : row < t.basis.length := by simpa [basis] using hrow
  have hbasic : t.rows[row].basic = t.basis[row] := by simp [basis]
  rw [basis_pivotAt, basis_pivotAt, List.set_set, hbasic, List.set_getElem_self]

/-- The pivot back is accepted unless the inverse of the pivot is smaller than the pivot tolerance. -/
theorem Encodes.pivot_back (ht : t.Encodes costs given) {next : Tableau ℚ}
    (hmade : t.pivot row column = .ok next) (hentry : t.coefficient row column ≠ 0) {basic : ℕ}
    (hbasic : t.basis[row]? = some basic) :
    (∀ back, next.pivot row basic = .ok back → back = t) ∧
      (next.pivot row basic = .ok t ↔ t.pivotTolerance ≤ |(t.coefficient row column)⁻¹|) := by
  obtain ⟨hrow, _, _, rfl⟩ := pivot_eq_ok_iff.mp hmade
  rw [basis, List.getElem?_map] at hbasic
  obtain ⟨r, hr, rfl⟩ := Option.map_eq_some_iff.mp hbasic
  have hread : t.coefficient row column = r.coefficient column := by rw [coefficient, hr]
  rw [hread] at hentry ⊢
  have hback := ht.pivotAt_back hr hentry
  have hinside : r.basic < (t.pivotAt row column).columnCount := by
    rw [ht.columnCount_pivotAt hr hentry]
    exact ht.canonical.solved.inside (List.mem_of_getElem? (getElem?_dictionary_rows hr))
  have hinverse : (t.pivotAt row column).coefficient row r.basic = (r.coefficient column)⁻¹ := by
    rw [coefficient, getElem?_pivotAt hr]
    exact ht.coefficient_solveFor hr hentry
  have htolerance : (t.pivotAt row column).pivotTolerance = t.pivotTolerance :=
    (settings_eq_iff.mp (settings_pivotAt t row column)).2.2.2
  refine ⟨fun back hmade => ?_, ?_⟩
  · obtain ⟨_, _, _, rfl⟩ := pivot_eq_ok_iff.mp hmade
    exact hback
  · rw [pivot_eq_ok_iff, rowCount_pivotAt, hinverse, isDegenerate, htolerance, Scalar.abs_rat]
    simp [hrow, hinside, hback, Scalar.isNaN]

/-! ## A constraint before or after pivots -/

/-- A pivot on an older row and a new constraint can change places. -/
theorem Encodes.appendStored_pivotAt (ht : t.Encodes costs given) (hr : t.rows[row]? = some r)
    (hpivot : r.coefficient column ≠ 0) (hc : c.coefficients.length ≤ t.columnCount) :
    (t.pivotAt row column).appendStored c = (t.appendStored c).pivotAt row column := by
  have hrow : row < t.rowCount := (List.getElem?_eq_some_iff.mp hr).1
  have hcolumns := ht.columnCount_pivotAt hr hpivot
  have hwider : row < (t.appendStored c).rowCount := by
    rw [rowCount_appendStored]
    exact hrow.trans (Nat.lt_succ_self _)
  obtain ⟨s, hs, hread⟩ := exists_row_of_lt hwider
  have hentry : s.coefficient column = r.coefficient column := by
    rw [← hread, coefficient_appendStored hrow, coefficient, hr]
  refine ((ht.appendStored hc).pivotAt hs (hentry ▸ hpivot)).eq_of_basis
    ((ht.pivotAt hr hpivot).appendStored (hcolumns ▸ hc)) ?_ ?_
  · rw [settings_pivotAt]
    exact settings_pivotAt t row column
  · rw [basis_appendStored, basis_pivotAt, basis_pivotAt, basis_appendStored, hcolumns,
      List.set_append_left _ _ (by rw [basis, List.length_map]; exact hrow)]

/-- What an attempted pivot inside the tableau leads to. -/
theorem afterEdit_pivot (hrow : row < t.rowCount) (hcolumn : column < t.columnCount) :
    t.afterEdit (.pivot row column) =
      if t.isDegenerate (t.coefficient row column) then t else t.pivotAt row column := by
  rw [afterEdit, perform, pivot, if_pos ⟨hrow, hcolumn⟩]
  dsimp only
  split
  · rename_i next _ hmade
    split at hmade
    · cases hmade
    · rename_i husable
      rw [if_neg husable]
      cases hmade
      rfl
  · rename_i hrefused
    split at hrefused
    · rename_i hdegenerate
      rw [if_pos hdegenerate]
    · cases hrefused

/-- Something done to a tableau changes places with an edit if it does so with what the edit makes. -/
theorem afterEdit_comm_of_map (f : Tableau ℚ → Tableau ℚ) {e : Edit ℚ}
    {made before : Except (TableauError ℚ) (Tableau ℚ)}
    (hmade : ((f t).perform e).map Prod.fst = made) (hbefore : (t.perform e).map Prod.fst = before)
    (hcomm : made = before.map f) : (f t).afterEdit e = f (t.afterEdit e) := by
  subst hmade hbefore
  rw [afterEdit, afterEdit]
  cases hperform : t.perform e with
  | error fault =>
    rw [hperform] at hcomm
    cases hlater : (f t).perform e with
    | error _ => rfl
    | ok result =>
      rw [hlater] at hcomm
      cases hcomm
  | ok result =>
    rw [hperform] at hcomm
    obtain ⟨later, hlater, hfst⟩ := map_eq_ok hcomm
    rw [hlater]
    exact hfst

/-- A place for a pivot that is not a zero, unless the pivot is refused there. -/
structure PivotPlace (t : Tableau ℚ) (row column : ℕ) : Prop where
  encodes : ∃ costs given, t.Encodes costs given
  row_lt : row < t.rowCount
  column_lt : column < t.columnCount
  offZero : t.PivotOffZero (.pivot row column)

namespace PivotPlace

variable {next : Tableau ℚ}

/-- A pivot that is not refused is not on a zero. -/
theorem exists_row (h : t.PivotPlace row column)
    (husable : t.isDegenerate (t.coefficient row column) = false) :
    ∃ r, t.rows[row]? = some r ∧ r.coefficient column ≠ 0 := by
  obtain ⟨r, hr, hread⟩ := exists_row_of_lt h.row_lt
  have hentry := h.offZero _ (pivot_eq_ok_iff.mpr ⟨h.row_lt, h.column_lt, husable, rfl⟩)
  exact ⟨r, hr, hread column ▸ hentry⟩

/-- An attempted pivot keeps the numbers of rows and columns. -/
theorem counts (h : t.PivotPlace row column) :
    (t.afterEdit (.pivot row column)).rowCount = t.rowCount ∧
      (t.afterEdit (.pivot row column)).columnCount = t.columnCount := by
  rw [afterEdit_pivot h.row_lt h.column_lt]
  split
  · exact ⟨rfl, rfl⟩
  · rename_i husable
    obtain ⟨costs, given, ht⟩ := h.encodes
    obtain ⟨r, hr, hpivot⟩ := h.exists_row (Bool.eq_false_iff.mpr husable)
    exact ⟨rowCount_pivotAt t row column, ht.columnCount_pivotAt hr hpivot⟩

/-- The place is still there after a constraint was added. -/
theorem append (h : t.PivotPlace row column) (hmade : t.append c = .ok next) :
    next.PivotPlace row column := by
  obtain ⟨costs, given, ht⟩ := h.encodes
  have hencodes := ht.append hmade
  obtain ⟨_, rfl⟩ := append_eq_ok_iff.mp hmade
  have hentry := coefficient_appendStored h.row_lt c column
  refine ⟨⟨costs, _, hencodes⟩, ?_, ?_, fun next hpivot => ?_⟩
  · rw [rowCount_appendStored]
    exact h.row_lt.trans (Nat.lt_succ_self _)
  · rw [columnCount_appendStored]
    exact h.column_lt.trans (Nat.lt_succ_self _)
  · obtain ⟨_, _, husable, _⟩ := pivot_eq_ok_iff.mp hpivot
    rw [hentry] at husable ⊢
    exact h.offZero _ (pivot_eq_ok_iff.mpr ⟨h.row_lt, h.column_lt, husable, rfl⟩)

/-- An attempted pivot and a constraint in `≤` form can change places. -/
theorem append_comm (h : t.PivotPlace row column) (c : StoredConstraint ℚ) :
    (t.afterEdit (.pivot row column)).append c =
      (t.append c).map (·.afterEdit (.pivot row column)) := by
  have hfault : (t.afterEdit (.pivot row column)).appendFault? c = t.appendFault? c := by
    rw [appendFault?, appendFault?, h.counts.2]
  cases happend : t.append c with
  | error fault =>
    rw [Tableau.append] at happend
    split at happend
    · rename_i found hfound
      cases happend
      rw [Tableau.append, hfault, hfound]
      rfl
    · cases happend
  | ok next =>
    have hplace := h.append happend
    obtain ⟨hnone, rfl⟩ := append_eq_ok_iff.mp happend
    refine append_eq_ok_iff.mpr ⟨hfault.trans hnone, ?_⟩
    dsimp only
    rw [afterEdit_pivot hplace.row_lt hplace.column_lt, afterEdit_pivot h.row_lt h.column_lt,
      coefficient_appendStored h.row_lt]
    change (if t.isDegenerate (t.coefficient row column) then _ else _) = _
    split
    · rfl
    · rename_i husable
      obtain ⟨costs, given, ht⟩ := h.encodes
      obtain ⟨r, hr, hpivot⟩ := h.exists_row (Bool.eq_false_iff.mpr husable)
      refine (ht.appendStored_pivotAt hr hpivot ?_).symm
      by_contra hwide
      rw [appendFault?, if_pos (not_le.mp hwide)] at hnone
      cases hnone

/-- An attempted pivot and a constraint can change places. -/
theorem addConstraint_comm (h : t.PivotPlace row column) (c : Constraint ℚ) :
    (t.afterEdit (.pivot row column)).addConstraint c =
      (t.addConstraint c).map (·.afterEdit (.pivot row column)) := by
  rw [Tableau.addConstraint, Tableau.addConstraint]
  split
  · rfl
  · exact h.append_comm _

/-- An attempted pivot and an equation can change places. -/
theorem addEquality_comm (h : t.PivotPlace row column) (name : String) (coefficients : List ℚ)
    (rhs : ℚ) :
    (t.afterEdit (.pivot row column)).addEquality name coefficients rhs =
      (t.addEquality name coefficients rhs).map (·.afterEdit (.pivot row column)) := by
  rw [Tableau.addEquality, Tableau.addEquality, h.counts.2, h.addConstraint_comm]
  split
  · rfl
  · cases hupper : t.addConstraint ⟨name ++ "_le", coefficients, .le, rhs⟩ with
    | error fault => rfl
    | ok upper =>
      obtain ⟨_, _, happend⟩ := append_of_addConstraint hupper
      exact (h.append happend).addConstraint_comm _

/-- An attempted pivot and an edit that adds a constraint can change places. -/
theorem afterEdit_comm (h : t.PivotPlace row column) {e : Edit ℚ} (he : e.AddsConstraint) :
    (t.afterEdit (.pivot row column)).afterEdit e = (t.afterEdit e).afterEdit (.pivot row column) := by
  have hname : (t.afterEdit (.pivot row column)).nextConstraintName = t.nextConstraintName := by
    rw [nextConstraintName, nextConstraintName, h.counts.1]
  cases e with
  | appendRow coefficients rhs =>
    refine afterEdit_comm_of_map (afterEdit · (.pivot row column)) (map_fst_map _ _)
      (map_fst_map _ _) ?_
    rw [appendRow, appendRow, hname, h.append_comm]
  | addConstraint name coefficients relation rhs =>
    refine afterEdit_comm_of_map (afterEdit · (.pivot row column)) (map_fst_map _ _)
      (map_fst_map _ _) ?_
    rw [hname, h.addConstraint_comm]
  | addEquality name coefficients rhs =>
    refine afterEdit_comm_of_map (afterEdit · (.pivot row column)) (map_fst_map _ _)
      (map_fst_map _ _) ?_
    rw [hname, h.addEquality_comm]
  | setTolerances tolerance pivotTolerance => cases he
  | pivot row column => cases he
  | solve options => cases he

end PivotPlace

/-- Pivots on the rows and columns that are there, and a constraint, can change places. -/
theorem Encodes.afterEdits_comm (ht : t.Encodes costs given) (htolerance : 0 ≤ t.tolerance)
    {e : Edit ℚ} (he : e.AddsConstraint) {pivots : List (Edit ℚ)}
    (hwithin : ∀ d ∈ pivots, d.PivotsWithin t.rowCount t.columnCount)
    (hpivots : t.PivotsOffZero pivots) :
    (t.afterEdits pivots).afterEdit e = (t.afterEdit e).afterEdits pivots := by
  induction pivots generalizing t given with
  | nil => rfl
  | cons d rest ih =>
    obtain ⟨hd, hrest⟩ := List.forall_mem_cons.mp hwithin
    obtain ⟨row, column, rfl, hrow, hcolumn⟩ := hd.exists_eq
    have hplace : t.PivotPlace row column := ⟨⟨costs, given, ht⟩, hrow, hcolumn, hpivots.1⟩
    obtain ⟨hrows, hcolumns⟩ := hplace.counts
    have hnext := ht.afterEdit htolerance hpivots.1
    have hsettings := settings_afterEdit t (.pivot row column)
    have hnonneg : 0 ≤ (t.afterEdit (.pivot row column)).tolerance := by
      rwa [(settings_eq_iff.mp hsettings).2.2.1]
    have hlater := ih hnext hnonneg (by rwa [hrows, hcolumns]) hpivots.2
    change ((t.afterEdit (.pivot row column)).afterEdits rest).afterEdit e =
      ((t.afterEdit e).afterEdit (.pivot row column)).afterEdits rest
    rw [hlater, hplace.afterEdit_comm he]

/-- The constraints that a history adds, in `≤` form and without their names. -/
def addedEquations (t : Tableau ℚ) (history : List (Edit ℚ)) : List (Equation ℚ) :=
  (storedForms (t.added history)).map (·.equation)

/-- The tableaus agree in their rows and in the objective row. -/
structure SameEntries (t u : Tableau ℚ) : Prop where
  rows : ∀ i, t.row? i = u.row? i
  rightHandSides : t.rightHandSides = u.rightHandSides
  reducedCosts : t.reducedCosts = u.reducedCosts
  objectiveValue : t.objectiveValue = u.objectiveValue

/-- Tableaus with the same dictionary have the same entries. -/
theorem sameEntries_of_dictionary (h : t.dictionary = u.dictionary) : t.SameEntries u := by
  have hrows : t.rows.map Row.unlabelled = u.rows.map Row.unlabelled :=
    congrArg Dictionary.rows h
  have hobjective : t.objective = u.objective := congrArg Dictionary.objective h
  refine ⟨fun i => ?_, ?_, congrArg Equation.coefficients hobjective, congrArg Equation.rhs hobjective⟩
  · have hentry := congrArg (fun rows => rows[i]?.map (·.coefficients)) hrows
    simpa [row?, Row.unlabelled, Function.comp_def] using hentry
  · have hentries := congrArg (List.map (·.rhs)) hrows
    simpa [rightHandSides, Row.unlabelled, Function.comp_def] using hentries

end Tableau

/-- Two histories that add the same constraints in the same order and end with the same basis end with
the same entries, whatever they pivoted and solved in between. From any tableau on the way, the pivot
back undoes a pivot, and a constraint may be added before or after pivots on the older rows. -/
theorem Origin.afterEdits_determined_by_basis {o : Origin} {t : Tableau ℚ} (ht : o.tableau = .ok t) :
    (∀ first second, t.Careful first → t.Careful second →
      t.addedEquations first = t.addedEquations second →
      (t.afterEdits first).basis = (t.afterEdits second).basis →
      (t.afterEdits first).SameEntries (t.afterEdits second)) ∧
    ∀ history, t.Careful history →
      let reached := t.afterEdits history
      (∀ row column basic next, reached.basis[row]? = some basic →
        reached.coefficient row column ≠ 0 → reached.pivot row column = .ok next →
        (∀ back, next.pivot row basic = .ok back → back = reached) ∧
          (next.pivot row basic = .ok reached ↔
            reached.pivotTolerance ≤ |(reached.coefficient row column)⁻¹|)) ∧
      ∀ pivots e, (∀ d ∈ pivots, d.PivotsWithin reached.rowCount reached.columnCount) →
        reached.PivotsOffZero pivots → e.AddsConstraint →
        (reached.afterEdits pivots).afterEdit e = (reached.afterEdit e).afterEdits pivots := by
  refine ⟨fun first second hfirst hsecond hadded hbasis => ?_, fun history hhistory => ?_⟩
  · obtain ⟨hone, _⟩ := Origin.encodes_of_pivotsOffZero ht hfirst.tolerance hfirst.offZero
    obtain ⟨htwo, _⟩ := Origin.encodes_of_pivotsOffZero ht hsecond.tolerance hsecond.offZero
    refine Tableau.sameEntries_of_dictionary (htwo.dictionary_eq hone ?_ ?_ hbasis)
    · rw [Tableau.structuralCount, Tableau.structuralCount,
        (t.decisions_and_sense_afterEdits first).1, (t.decisions_and_sense_afterEdits second).1]
    · rw [storedForms_append, storedForms_append, List.map_append, List.map_append]
      exact congrArg _ hadded.symm
  · obtain ⟨hencodes, htolerance⟩ :=
      Origin.encodes_of_pivotsOffZero ht hhistory.tolerance hhistory.offZero
    exact ⟨fun row column basic next hbasic hentry hmade => hencodes.pivot_back hmade hentry hbasic,
      fun pivots e hwithin hpivots he => hencodes.afterEdits_comm htolerance he hwithin hpivots⟩

/-- A cut before and after the pivots that lead to one basis, and edits from there. -/
theorem same_entries_after_cut :
    let o : Origin := .matrix [[1, 1], [1, 3]] [4, 6] [3, 2]
    let t := o.start.slackTableau
    let first : List (Edit ℚ) := [.solve {}, .appendRow [1] 3, .solve {}]
    let second : List (Edit ℚ) :=
      [.setTolerances (some 0) none, .addConstraint (some "cap") [-1] .ge (-3), .pivot 0 0, .pivot 2 1]
    let reached := t.afterEdits second
    let pivots : List (Edit ℚ) := [.pivot 2 4, .pivot 0 2]
    let e : Edit ℚ := .addEquality none [0, 1, 0, 2] 5
    o.tableau = .ok t ∧ t.Careful first ∧ t.Careful second ∧
      t.addedEquations first = t.addedEquations second ∧
      (t.afterEdits first).basis = reached.basis ∧ (t.afterEdits first).SameEntries reached ∧
      (∀ next, reached.pivot 2 4 = .ok next → next.pivot 2 1 = .ok reached) ∧
      (reached.afterEdits pivots).afterEdit e = (reached.afterEdit e).afterEdits pivots := by
  intro o t first second reached pivots e
  have ht : o.tableau = .ok t := by with_unfolding_all rfl
  have hfirst : t.Careful first :=
    ⟨by simp [first, Edit.SetsNonneg], trivial, trivial, trivial, trivial⟩
  have hsecond : t.Careful second := by
    have hone : (t.afterEdits (second.take 2)).coefficient 0 0 ≠ 0 := by decide +kernel
    have htwo : (t.afterEdits (second.take 3)).coefficient 2 1 ≠ 0 := by decide +kernel
    exact ⟨by simp [second, Edit.SetsNonneg], trivial, trivial, fun _ _ => hone, fun _ _ => htwo,
      trivial⟩
  have hadded : t.addedEquations first = t.addedEquations second := by decide +kernel
  have hbasis : (t.afterEdits first).basis = reached.basis := by decide +kernel
  have hentry : reached.coefficient 2 4 ≠ 0 := by decide +kernel
  have hlater : (reached.afterEdit (.pivot 2 4)).coefficient 0 2 ≠ 0 := by decide +kernel
  obtain ⟨hsame, hreached⟩ := Origin.afterEdits_determined_by_basis ht
  obtain ⟨hback, hcomm⟩ := hreached second hsecond
  refine ⟨ht, hfirst, hsecond, hadded, hbasis, hsame first second hfirst hsecond hadded hbasis,
    fun next hmade => ?_, ?_⟩
  · exact (hback 2 4 1 next (by decide +kernel) hentry hmade).2.mpr (by decide +kernel)
  · refine hcomm pivots e ?_ ⟨fun _ _ => hentry, fun _ _ => hlater, trivial⟩ trivial
    have hcounts : reached.rowCount = 3 ∧ reached.columnCount = 5 := by decide +kernel
    change ∀ d ∈ pivots, d.PivotsWithin reached.rowCount reached.columnCount
    simp [pivots, Edit.PivotsWithin, hcounts]

end WarmSimplex
