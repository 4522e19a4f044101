import WarmSimplex.Proofs.Scan
import WarmSimplex.Solve

/-!
# Moves

What the next move of the solver says about the tableau that it is made on. A verdict comes with the
signs that justify it, and a pivot with the signs of its row and column. Later proofs look at these
and not at the scans that found them.

Which of several candidates a scan picks is left open, since no verdict depends on it.
-/

namespace WarmSimplex

variable {α : Type} [Scalar α]

/-- Ranking keeps to the candidates. -/
theorem mem_of_mem_rankCandidates {tolerance : α} {count : ℕ}
    {candidates : List (EnteringCandidate α)} {c : EnteringCandidate α}
    (hc : c ∈ rankCandidates tolerance count candidates) : c ∈ candidates := by
  induction count generalizing candidates with
  | zero => cases hc
  | succ count ih =>
    rw [rankCandidates] at hc
    split at hc
    · cases hc
    · rename_i best hbest
      rcases List.mem_cons.mp hc with rfl | hrest
      · exact mem_of_scan_eq_some hbest
      · exact List.mem_of_mem_eraseP (ih hrest)

/-- Ranking all candidates gives none only if there are none. -/
theorem rankCandidates_eq_nil_iff {tolerance : α} {candidates : List (EnteringCandidate α)} :
    rankCandidates tolerance candidates.length candidates = [] ↔ candidates = [] := by
  cases candidates with
  | nil => simp [rankCandidates]
  | cons first rest =>
    rw [List.length_cons, rankCandidates]
    cases hscan : scan (EnteringCandidate.below tolerance) (first :: rest) with
    | none => simpa using scan_eq_none_iff.mp hscan
    | some best => simp

namespace Tableau

/-! ## What the selections find -/

section Selections

variable {t : Tableau α} {row column : ℕ}

/-- The leaving row is infeasible. -/
theorem leavingRow?_eq_some (h : t.leavingRow? = some row) :
    ∃ r, t.rows[row]? = some r ∧ r.rhs < -t.tolerance := by
  obtain ⟨ranked, hscan, rfl⟩ := Option.map_eq_some_iff.mp h
  obtain ⟨i, r, hr, hrhs, rfl⟩ :=
    (mem_filterMap_zipIdx fun _ _ => rfl).mp (mem_of_scan_eq_some hscan)
  exact ⟨r, hr, hrhs⟩

/-- There is no leaving row only if no row is infeasible. -/
theorem leavingRow?_eq_none_iff : t.leavingRow? = none ↔ ∀ r ∈ t.rows, ¬r.rhs < -t.tolerance := by
  rw [leavingRow?, Option.map_eq_none_iff, scan_eq_none_iff]
  exact filterMap_zipIdx_eq_nil_iff fun _ _ => rfl

/-- A candidate of a dual pivot has a negative coefficient. -/
theorem mem_dualCandidates {c : EnteringCandidate α} (hc : c ∈ t.dualCandidates row) :
    ∃ r, t.rows[row]? = some r ∧ r.coefficients[c.column]? = some c.coefficient ∧
      c.coefficient < -t.tolerance := by
  rw [dualCandidates] at hc
  split at hc
  · cases hc
  · rename_i r hr
    obtain ⟨j, a, ha, hneg, rfl⟩ := (mem_filterMap_zipIdx fun _ _ => rfl).mp hc
    exact ⟨r, hr, ha, hneg⟩

/-- A row without a candidate has no negative coefficient. -/
theorem dualCandidates_eq_nil_iff {r : Row α} (hr : t.rows[row]? = some r) :
    t.dualCandidates row = [] ↔ ∀ a ∈ r.coefficients, ¬a < -t.tolerance := by
  rw [dualCandidates, hr]
  exact filterMap_zipIdx_eq_nil_iff fun _ _ => rfl

/-- An improving column has a negative reduced cost. -/
theorem mem_improvingColumns {ranked : Ranked α} (h : ranked ∈ t.improvingColumns) :
    t.reducedCosts[ranked.index]? = some ranked.value ∧ ranked.value < -t.tolerance := by
  obtain ⟨j, d, hd, hneg, rfl⟩ := (mem_filterMap_zipIdx fun _ _ => rfl).mp h
  exact ⟨hd, hneg⟩

/-- No column is improving only if no reduced cost is negative. -/
theorem improvingColumns_eq_nil_iff :
    t.improvingColumns = [] ↔ ∀ d ∈ t.reducedCosts, ¬d < -t.tolerance :=
  filterMap_zipIdx_eq_nil_iff fun _ _ => rfl

/-- The entering column of a primal pivot is improving, by either rule. -/
theorem primalEntering?_eq_some {rule : EnteringRule} (h : t.primalEntering? rule = some column) :
    column < t.columnCount ∧ t.reducedCost column < -t.tolerance := by
  have hmem : ∃ ranked ∈ t.improvingColumns, ranked.index = column := by
    cases rule with
    | bland =>
      obtain ⟨ranked, hhead, hindex⟩ := Option.map_eq_some_iff.mp h
      exact ⟨ranked, List.mem_of_head? hhead, hindex⟩
    | dantzig =>
      obtain ⟨ranked, hscan, hindex⟩ := Option.map_eq_some_iff.mp h
      exact ⟨ranked, mem_of_scan_eq_some hscan, hindex⟩
  obtain ⟨ranked, hranked, rfl⟩ := hmem
  obtain ⟨hcost, hneg⟩ := mem_improvingColumns hranked
  refine ⟨(List.getElem?_eq_some_iff.mp hcost).1, ?_⟩
  have hvalue : t.reducedCost ranked.index = ranked.value := by
    rw [reducedCost, Equation.coefficient, List.getD_eq_getElem?_getD]
    exact congrArg (fun entry : Option α => entry.getD 0) hcost
  rwa [hvalue]

/-- There is no entering column only if no column is improving. -/
theorem primalEntering?_eq_none_iff {rule : EnteringRule} :
    t.primalEntering? rule = none ↔ ∀ d ∈ t.reducedCosts, ¬d < -t.tolerance := by
  rw [← improvingColumns_eq_nil_iff]
  cases rule with
  | bland => rw [primalEntering?, Option.map_eq_none_iff, List.head?_eq_none_iff]
  | dantzig => rw [primalEntering?, Option.map_eq_none_iff, scan_eq_none_iff]

/-- The leaving row of a primal pivot bounds the entering column. -/
theorem primalLeaving?_eq_some (h : t.primalLeaving? column = some row) :
    ∃ r, t.rows[row]? = some r ∧ t.ratioThreshold < r.entry column := by
  obtain ⟨ranked, hscan, rfl⟩ := Option.map_eq_some_iff.mp h
  obtain ⟨i, r, hr, hentry, rfl⟩ :=
    (mem_filterMap_zipIdx fun _ _ => rfl).mp (mem_of_scan_eq_some hscan)
  exact ⟨r, hr, hentry⟩

/-- There is no leaving row only if no row bounds the entering column. -/
theorem primalLeaving?_eq_none_iff :
    t.primalLeaving? column = none ↔ ∀ r ∈ t.rows, ¬t.ratioThreshold < r.entry column := by
  rw [primalLeaving?, Option.map_eq_none_iff, scan_eq_none_iff]
  exact filterMap_zipIdx_eq_nil_iff fun _ _ => rfl

end Selections

/-! ## What a move says -/

/-- The moves that the signs of a tableau allow. -/
inductive Allows (t : Tableau α) : Move α → Prop
  | optimal (primal : ∀ r ∈ t.rows, ¬r.rhs < -t.tolerance)
      (dual : ∀ d ∈ t.reducedCosts, ¬d < -t.tolerance) : Allows t (.stop .optimal)
  | infeasible {row : ℕ} {r : Row α} (hr : t.rows[row]? = some r) (hrhs : r.rhs < -t.tolerance)
      (hcoefficients : ∀ a ∈ r.coefficients, ¬a < -t.tolerance) :
      Allows t (.stop (.infeasible (t.certificate row)))
  | unbounded {column : ℕ} (primal : ∀ r ∈ t.rows, ¬r.rhs < -t.tolerance)
      (hcolumn : column < t.columnCount) (hcost : t.reducedCost column < -t.tolerance)
      (hbound : ∀ r ∈ t.rows, ¬t.ratioThreshold < r.entry column) : Allows t (.stop .unbounded)
  | dualPivot {row : ℕ} {r : Row α} {columns : List ℕ} (hr : t.rows[row]? = some r)
      (hrhs : r.rhs < -t.tolerance)
      (hcolumns : ∀ column ∈ columns, column < r.coefficients.length ∧
        r.coefficient column < -t.tolerance) : Allows t (.pivot .dual row columns)
  | primalPivot {row column : ℕ} {r : Row α} (primal : ∀ r ∈ t.rows, ¬r.rhs < -t.tolerance)
      (hcolumn : column < t.columnCount) (hcost : t.reducedCost column < -t.tolerance)
      (hr : t.rows[row]? = some r) (hentry : t.ratioThreshold < r.entry column) :
      Allows t (.pivot .primal row [column])

/-- The next move is one that the signs allow. -/
theorem allows_nextMove (t : Tableau α) (rule : EnteringRule) : t.Allows (t.nextMove rule) := by
  rw [nextMove]
  cases hleaving : t.leavingRow? with
  | some row =>
    obtain ⟨r, hr, hrhs⟩ := leavingRow?_eq_some hleaving
    dsimp only
    cases hcandidates : t.enteringCandidates row with
    | nil =>
      have hnone := (dualCandidates_eq_nil_iff hr).mp (rankCandidates_eq_nil_iff.mp hcandidates)
      exact .infeasible hr hrhs hnone
    | cons best others =>
      refine .dualPivot hr hrhs fun column hcolumn => ?_
      obtain ⟨c, hc, rfl⟩ := List.mem_map.mp hcolumn
      rw [← hcandidates] at hc
      obtain ⟨s, hs, hcoefficient, hneg⟩ := mem_dualCandidates (mem_of_mem_rankCandidates hc)
      cases hr.symm.trans hs
      refine ⟨(List.getElem?_eq_some_iff.mp hcoefficient).1, ?_⟩
      rwa [Equation.coefficient, List.getD_eq_getElem?_getD, hcoefficient]
  | none =>
    have hprimal := leavingRow?_eq_none_iff.mp hleaving
    dsimp only
    cases hentering : t.primalEntering? rule with
    | none => exact .optimal hprimal (primalEntering?_eq_none_iff.mp hentering)
    | some column =>
      obtain ⟨hcolumn, hcost⟩ := primalEntering?_eq_some hentering
      dsimp only
      cases hrow : t.primalLeaving? column with
      | none => exact .unbounded hprimal hcolumn hcost (primalLeaving?_eq_none_iff.mp hrow)
      | some row =>
        obtain ⟨r, hr, hentry⟩ := primalLeaving?_eq_some hrow
        exact .primalPivot hprimal hcolumn hcost hr hentry

/-- A pivot that is offered is a dual one on the leaving row, or a primal one on the entering column if
no row has to leave. -/
theorem nextMove_eq_pivot {t : Tableau α} {rule : EnteringRule} {kind : PivotKind} {row : ℕ}
    {columns : List ℕ} (h : t.nextMove rule = .pivot kind row columns) :
    (kind = .dual ∧ t.leavingRow? = some row ∧ ∃ best others,
        t.enteringCandidates row = best :: others ∧ columns = (best :: others).map (·.column)) ∨
      (kind = .primal ∧ t.leavingRow? = none ∧ ∃ column, columns = [column] ∧
        t.primalEntering? rule = some column ∧ t.primalLeaving? column = some row) := by
  rw [nextMove] at h
  split at h
  · rename_i leaving hleaving
    split at h
    · cases h
    · rename_i best others hcandidates
      cases h
      exact .inl ⟨rfl, hleaving, best, others, hcandidates, rfl⟩
  · rename_i hleaving
    split at h
    · cases h
    · rename_i column hentering
      split at h
      · cases h
      · rename_i leaving hrow
        cases h
        exact .inr ⟨rfl, hleaving, column, rfl, hentering, hrow⟩

end Tableau

end WarmSimplex
