import WarmSimplex.Proofs.Dictionary.Bland
import WarmSimplex.Proofs.History
import WarmSimplex.Proofs.RatioTests

/-!
# Solving by the lowest index

Without tolerances, a solve of a feasible tableau that takes the first column of negative reduced cost
comes to an end if, among the rows that keep this column at zero, the one with the lowest basic column
leaves. It then never comes back to a basis.

The ratio test takes the lowest row instead, and then a solve can go round in a cycle for as long as
it is allowed to. Which programs have such cycles is not looked at here.
-/

namespace WarmSimplex

/-! ## The tableaus of a run -/

section Visited

variable {α : Type} [Scalar α]

namespace Tableau

/-- The tableau after the next pivot, if there is one to make and it is not refused. -/
def next? (rule : EnteringRule) (t : Tableau α) : Option (Tableau α) :=
  match t.nextMove rule with
  | .stop _ => none
  | .pivot _ row columns => (t.pivotFirst row columns).2.map (·.2)

/-- The tableaus that the loop goes through, from its first to its last one. -/
def visited (rule : EnteringRule) (budget : ℕ) (t : Tableau α) : List (Tableau α) :=
  trail (next? rule) budget t

/-- A solve of a feasible tableau is the loop alone. -/
theorem status_of_isPrimalFeasible {t : Tableau α} (h : t.isPrimalFeasible = true)
    (options : SolveOptions) :
    (t.solve options).1.status = ((Progress.start t).iterate options.rule options.deadline
      options.maxIterations).2.status := by
  change (t.run options).2.status = _
  rw [run_of_feasible (.inl h)]

end Tableau

namespace Progress

variable {rule : EnteringRule} {p : Progress α}

/-- The loop goes on from the tableau after its next pivot. -/
theorem iterate_of_next?_eq_some {next : Tableau α} (h : p.tableau.next? rule = some next)
    (budget : ℕ) :
    ∃ q : Progress α, q.tableau = next ∧
      p.iterate rule .none (budget + 1) = q.iterate rule .none budget := by
  rw [Tableau.next?] at h
  split at h
  · cases h
  · rename_i kind row columns hmove
    rw [Option.map_eq_some_iff] at h
    obtain ⟨⟨column, made⟩, hmade, rfl⟩ := h
    refine ⟨(p.reject (p.tableau.pivotFirst row columns).1).advance ⟨kind, row, column⟩ made, rfl, ?_⟩
    have hfirst : p.tableau.pivotFirst row columns =
        ((p.tableau.pivotFirst row columns).1, some (column, made)) := Prod.ext rfl hmade
    conv_lhs => unfold iterate
    simp only [hmove, Deadline.isOver, Bool.false_eq_true, if_false]
    rw [hfirst]

/-- The loop stays at a tableau that it cannot pivot on. -/
theorem iterate_of_next?_eq_none (h : p.tableau.next? rule = none) (budget : ℕ) :
    (p.iterate rule .none budget).1.tableau = p.tableau := by
  unfold iterate
  split
  · rfl
  · rfl
  · rename_i kind row columns budget hmove
    have hnone : (p.tableau.pivotFirst row columns).2 = none := by
      rw [Tableau.next?, hmove] at h
      exact Option.map_eq_none_iff.mp h
    simp only [Deadline.isOver, Bool.false_eq_true, if_false]
    split
    · rfl
    · rename_i hsome
      rw [hsome] at hnone
      cases hnone

/-- The last tableau that the loop goes through is the one that it ends with. -/
theorem getLast?_visited (rule : EnteringRule) (budget : ℕ) (p : Progress α) :
    (p.tableau.visited rule budget).getLast? = some (p.iterate rule .none budget).1.tableau := by
  induction budget generalizing p with
  | zero =>
    have hstays : (p.iterate rule .none 0).1 = p := by
      unfold iterate
      split <;> first | rfl | contradiction
    rw [hstays]
    rfl
  | succ budget ih =>
    cases hnext : p.tableau.next? rule with
    | none =>
      rw [iterate_of_next?_eq_none hnext, Tableau.visited, trail_of_stop hnext]
      rfl
    | some next =>
      obtain ⟨q, rfl, hiterate⟩ := iterate_of_next?_eq_some hnext budget
      rw [Tableau.visited, getLast?_trail_of_step hnext, hiterate, ← ih q, Tableau.visited]

/-- The loop runs out of pivots, however many it is allowed, if it comes to tableaus only from which
it goes on to one of them. -/
theorem iterate_of_cycle {cycle : List (Tableau α)}
    (hcycle : ∀ t ∈ cycle, ∃ next ∈ cycle, t.next? rule = some next) (budget : ℕ)
    (hp : p.tableau ∈ cycle) : (p.iterate rule .none budget).2 = .iterationLimit := by
  obtain ⟨next, hmem, hnext⟩ := hcycle _ hp
  induction budget generalizing p next with
  | zero =>
    unfold iterate
    split
    · rename_i verdict _ hmove
      rw [Tableau.next?, hmove] at hnext
      cases hnext
    · rfl
    · contradiction
  | succ budget ih =>
    obtain ⟨q, rfl, hiterate⟩ := iterate_of_next?_eq_some hnext budget
    obtain ⟨after, hafter, hgoes⟩ := hcycle _ hmem
    rw [hiterate]
    exact ih hmem after hafter hgoes

end Progress

end Visited

/-! ## What the selections find -/

namespace Tableau

/-- No column before the one that enters by the lowest index is improving. -/
theorem primalEntering?_first {α : Type} [Scalar α] {t : Tableau α} {column : ℕ}
    (h : t.primalEntering? .bland = some column) :
    ∀ j < column, ¬t.reducedCost j < -t.tolerance := by
  have hinside := (primalEntering?_eq_some h).1
  obtain ⟨ranked, hhead, rfl⟩ := Option.map_eq_some_iff.mp h
  obtain ⟨i, d, _, _, rfl, hfirst⟩ := exists_of_head?_filterMap_zipIdx (fun _ _ => rfl) hhead
  intro j hj
  have hlength : j < t.reducedCosts.length := hj.trans hinside
  have hcost : t.reducedCost j = t.reducedCosts[j] := List.getD_eq_getElem _ _ hlength
  rw [hcost]
  exact hfirst j hj _ (List.getElem?_eq_getElem hlength)

variable {t : Tableau ℚ} {row column budget : ℕ}

/-! ## Pivots without tolerances -/

/-- If the row that leaves keeps the entering column at zero, it is the one with the lowest basic
column among the rows that do so. -/
def LeavesLowest (t : Tableau ℚ) : Prop :=
  ∀ column ∈ t.primalEntering? .bland, ∀ row ∈ t.primalLeaving? column, ∀ r ∈ t.rows[row]?,
    r.rhs = 0 → ∀ s ∈ t.rows, 0 < s.coefficient column → s.rhs = 0 → r.basic ≤ s.basic

/-- Whether the lowest basic column leaves can be decided. -/
instance (t : Tableau ℚ) : Decidable t.LeavesLowest :=
  inferInstanceAs (Decidable (∀ column ∈ t.primalEntering? .bland,
    ∀ row ∈ t.primalLeaving? column, ∀ r ∈ t.rows[row]?,
      r.rhs = 0 → ∀ s ∈ t.rows, 0 < s.coefficient column → s.rhs = 0 → r.basic ≤ s.basic))

namespace ExactlyFeasible

/-- The basis of the tableau is feasible. -/
theorem rewrites (h : t.ExactlyFeasible) : t.dictionary.Rewrites t.dictionary :=
  .refl h.canonical (forall_mem_dictionary_rows.mpr h.nonneg)

/-- What the entering column and the leaving row say about the tableau. -/
theorem signs (h : t.ExactlyFeasible) (hcolumn : t.primalEntering? .bland = some column)
    (hrow : t.primalLeaving? column = some row) :
    t.reducedCost column < 0 ∧ (∀ j < column, 0 ≤ t.reducedCost j) ∧
      ∃ r, t.rows[row]? = some r ∧ 0 < r.coefficient column ∧
        ∀ s ∈ t.rows, 0 < s.coefficient column →
          r.rhs / r.coefficient column ≤ s.rhs / s.coefficient column := by
  obtain ⟨hinside, hcost⟩ := primalEntering?_eq_some hcolumn
  have hfirst := primalEntering?_first hcolumn
  rw [h.tolerance, neg_zero] at hcost hfirst
  exact ⟨hcost, fun j hj => not_lt.mp (hfirst j hj), h.exists_tightest hinside hrow⟩

/-- The loop pivots on the entering column and the leaving row, or stops with an answer. -/
theorem next_cases (h : t.ExactlyFeasible) :
    (t.next? .bland = none ∧
        (t.nextMove .bland = .stop .optimal ∨ t.nextMove .bland = .stop .unbounded)) ∨
      ∃ row column, t.primalEntering? .bland = some column ∧
        t.primalLeaving? column = some row ∧ t.next? .bland = some (t.pivotAt row column) := by
  have hleaving := h.leavingRow?_eq_none
  cases hcolumn : t.primalEntering? .bland with
  | none =>
    have hmove : t.nextMove .bland = .stop .optimal := by simp only [nextMove, hleaving, hcolumn]
    exact .inl ⟨by rw [next?, hmove], .inl hmove⟩
  | some column =>
    cases hrow : t.primalLeaving? column with
    | none =>
      have hmove : t.nextMove .bland = .stop .unbounded := by
        simp only [nextMove, hleaving, hcolumn, hrow]
      exact .inl ⟨by rw [next?, hmove], .inr hmove⟩
    | some row =>
      have hmove : t.nextMove .bland = .pivot .primal row [column] := by
        simp only [nextMove, hleaving, hcolumn, hrow]
      obtain ⟨r, hr, _⟩ := primalLeaving?_eq_some hrow
      have hmade := pivot_of_exact h.pivotTolerance (List.getElem?_eq_some_iff.mp hr).1
        (primalEntering?_eq_some hcolumn).1
      refine .inr ⟨row, column, rfl, hrow, ?_⟩
      rw [next?, hmove]
      simp only [pivotFirst_cons hmade, Option.map_some]

/-- The pivot of the loop goes to another feasible basis, and it is one by the lowest index if the
lowest basic column leaves. -/
theorem next (h : t.ExactlyFeasible) {next : Tableau ℚ} (hnext : t.next? .bland = some next) :
    next.ExactlyFeasible ∧ (t.LeavesLowest → t.dictionary.BlandStep next.dictionary) := by
  rcases h.next_cases with ⟨hnone, _⟩ | ⟨row, column, hcolumn, hrow, hsome⟩
  · cases hnone.symm.trans hnext
  · cases hsome.symm.trans hnext
    obtain ⟨hcost, hfirst, r, hr, hrises, htightest⟩ := h.signs hcolumn hrow
    refine ⟨h.pivotAt hr hrises htightest, fun hlowest => ?_⟩
    have hsame := dictionary_pivotAt h.canonical.solved hr hrises.ne'
    exact ⟨row, column, r.unlabelled, ⟨getElem?_dictionary_rows hr, hcost, hfirst, hrises,
      forall_mem_dictionary_rows.mpr htightest, fun hzero => forall_mem_dictionary_rows.mpr
        (hlowest column hcolumn row hrow r hr hzero)⟩, hsame⟩

/-! ## Runs without tolerances -/

/-- The loop gives an answer, or makes as many pivots as it is allowed. -/
theorem iterate_verdict {p : Progress ℚ} (h : p.tableau.ExactlyFeasible) (budget : ℕ) :
    (p.iterate .bland .none budget).2 = .optimal ∨ (p.iterate .bland .none budget).2 = .unbounded ∨
      (p.tableau.visited .bland budget).length = budget + 1 := by
  induction budget generalizing p with
  | zero => exact .inr (.inr rfl)
  | succ budget ih =>
    rcases h.next_cases with ⟨_, hmove⟩ | ⟨row, column, _, _, hnext⟩
    · unfold Progress.iterate
      rcases hmove with hmove | hmove <;> simp [hmove]
    · obtain ⟨q, hq, hiterate⟩ := Progress.iterate_of_next?_eq_some hnext budget
      have hrest := ih (p := q) (hq ▸ (h.next hnext).1)
      rw [visited, trail_of_step hnext, hiterate, List.length_cons, Nat.add_right_cancel_iff]
      rwa [hq, visited] at hrest

end ExactlyFeasible

/-- The basic columns of the dictionary are the basis. -/
theorem basicColumns_dictionary (t : Tableau ℚ) :
    t.dictionary.basicColumns = t.basis.toFinset := by
  rw [Dictionary.basicColumns, basis_dictionary]

/-- From a feasible basis, as long as the lowest basic column leaves, the loop never comes back to a
basis, and it gives an answer if it is allowed as many pivots as there are bases. -/
theorem ExactlyFeasible.visits_bases_once (h : t.ExactlyFeasible)
    (hlowest : ∀ u ∈ t.visited .bland budget, u.LeavesLowest) :
    ((t.visited .bland budget).map (·.basis.toFinset)).Nodup ∧
      (t.columnCount.choose t.rowCount ≤ budget →
        ((Progress.start t).iterate .bland .none budget).2 = .optimal ∨
          ((Progress.start t).iterate .bland .none budget).2 = .unbounded) := by
  have hrows : t.dictionary.rows.length = t.rowCount := List.length_map _
  obtain ⟨hnodup, hlength⟩ : ((t.visited .bland budget).map (·.dictionary.basicColumns)).Nodup ∧
      (t.visited .bland budget).length ≤ t.columnCount.choose t.dictionary.rows.length :=
    Dictionary.visits_bases_once (f := dictionary) (I := ExactlyFeasible) (Q := LeavesLowest)
      (fun _ _ hu hleaves hnext => ⟨(hu.next hnext).1, (hu.next hnext).2 hleaves⟩) h h.rewrites hlowest
  simp only [basicColumns_dictionary] at hnodup
  rw [hrows] at hlength
  refine ⟨hnodup, fun henough => ?_⟩
  rcases iterate_verdict (p := Progress.start t) h budget with hend | hend | hall
  · exact .inl hend
  · exact .inr hend
  · have hall : (t.visited .bland budget).length = budget + 1 := hall
    omega

end Tableau

/-- A solve without tolerances that takes the lowest index never comes back to a basis from a feasible
tableau, and gives an answer if it is allowed as many pivots as there are bases, as long as the lowest
basic column leaves wherever the entering column is kept at zero. -/
theorem Origin.solve_visits_bases_once {o : Origin} {t : Tableau ℚ} (ht : o.tableau = .ok t)
    {history : List (Edit ℚ)} (hhistory : ∀ e ∈ history, e.SetsNonneg)
    (hpivots : t.PivotsOffZero history) (htolerance : (t.afterEdits history).tolerance = 0)
    (hpivotTolerance : (t.afterEdits history).pivotTolerance = 0)
    (hfeasible : (t.afterEdits history).isPrimalFeasible = true) {budget : ℕ}
    (hlowest : ∀ u ∈ (t.afterEdits history).visited .bland budget, u.LeavesLowest) :
    let reached := t.afterEdits history
    let status := (reached.solve { maxIterations := budget, rule := .bland }).1.status
    ((reached.visited .bland budget).map (·.basis.toFinset)).Nodup ∧
      (reached.columnCount.choose reached.rowCount ≤ budget →
        status = .optimal ∨ status = .unbounded) := by
  intro reached status
  obtain ⟨hencodes, _⟩ := Origin.encodes_of_pivotsOffZero ht hhistory hpivots
  have hexact : reached.ExactlyFeasible :=
    .of_isPrimalFeasible hencodes.canonical htolerance hpivotTolerance hfeasible
  obtain ⟨hnodup, hends⟩ := hexact.visits_bases_once hlowest
  refine ⟨hnodup, fun henough => ?_⟩
  have hstatus : status = ((Progress.start reached).iterate .bland .none budget).2.status :=
    Tableau.status_of_isPrimalFeasible hfeasible _
  rcases hends henough with hend | hend
  · exact .inl (by rw [hstatus, hend]; rfl)
  · exact .inr (by rw [hstatus, hend]; rfl)

/-- A degenerate tableau, reached by a cut and a pivot, that is solved within its 35 bases. -/
theorem solve_ends_within_bases :
    let o : Origin := .matrix [[1, -1, 1], [2, -1, 0], [1, -2, 1]] [0, 0, 0] [2, 1, 1]
    let t := o.start.slackTableau
    let history : List (Edit ℚ) :=
      [.setTolerances (some 0) (some 0), .appendRow [1, 1] 4, .pivot 0 0]
    o.tableau = .ok t ∧ (∀ e ∈ history, e.SetsNonneg) ∧ t.PivotsOffZero history ∧
      (t.afterEdits history).tolerance = 0 ∧ (t.afterEdits history).pivotTolerance = 0 ∧
      (t.afterEdits history).isPrimalFeasible = true ∧
      (∀ u ∈ (t.afterEdits history).visited .bland 35, u.LeavesLowest) ∧
      (t.afterEdits history).columnCount.choose (t.afterEdits history).rowCount ≤ 35 ∧
      let reached := t.afterEdits history
      let status := (reached.solve { maxIterations := 35, rule := .bland }).1.status
      ((reached.visited .bland 35).map (·.basis.toFinset)).Nodup ∧
        (reached.columnCount.choose reached.rowCount ≤ 35 →
          status = .optimal ∨ status = .unbounded) := by
  intro o t history
  have ht : o.tableau = .ok t := by with_unfolding_all rfl
  have hhistory : ∀ e ∈ history, e.SetsNonneg := by simp [history, Edit.SetsNonneg]
  have hpivots : t.PivotsOffZero history := by
    have hentry : ((t.afterEdit (.setTolerances (some 0) (some 0))).afterEdit
        (.appendRow [1, 1] 4)).coefficient 0 0 ≠ 0 := by decide +kernel
    exact ⟨trivial, trivial, fun _ _ => hentry, trivial⟩
  have htolerance : (t.afterEdits history).tolerance = 0 := by decide +kernel
  have hpivotTolerance : (t.afterEdits history).pivotTolerance = 0 := by decide +kernel
  have hfeasible : (t.afterEdits history).isPrimalFeasible = true := by decide +kernel
  have hlowest : ∀ u ∈ (t.afterEdits history).visited .bland 35, u.LeavesLowest := by
    decide +kernel
  exact ⟨ht, hhistory, hpivots, htolerance, hpivotTolerance, hfeasible, hlowest, by decide +kernel,
    Origin.solve_visits_bases_once ht hhistory hpivots htolerance hpivotTolerance hfeasible hlowest⟩

/-- A feasible tableau with 35 bases whose ties the ratio test breaks by the row: the solve comes back
to a basis, and it runs out of pivots however many it is allowed. -/
theorem solve_cycles_by_lowest_row :
    let o : Origin := .matrix [[2, -1, 0, -1], [1, -2, 0, -1], [1, 2, 1, -2]] [0, 0, 0] [-2, 2, 2, -2]
    let t := o.start.slackTableau
    let reached := t.afterEdits [.setTolerances (some 0) (some 0)]
    o.tableau = .ok t ∧ reached.tolerance = 0 ∧ reached.pivotTolerance = 0 ∧
      reached.isPrimalFeasible = true ∧ reached.columnCount.choose reached.rowCount = 35 ∧
      ¬((reached.visited .bland 35).map (·.basis.toFinset)).Nodup ∧
      ∀ budget,
        (reached.solve { maxIterations := budget, rule := .bland }).1.status = .iterationLimit := by
  intro o t reached
  have ht : o.tableau = .ok t := by with_unfolding_all rfl
  have hfeasible : reached.isPrimalFeasible = true := by decide +kernel
  -- after six pivots the next tableau is the second one again
  have hcycle : ∀ u ∈ reached.visited .bland 6, ∃ next ∈ reached.visited .bland 6,
      u.next? .bland = some next := by decide +kernel
  have hback : ¬((reached.visited .bland 35).map (·.basis.toFinset)).Nodup := by decide +kernel
  refine ⟨ht, by decide +kernel, by decide +kernel, hfeasible, by decide +kernel, hback,
    fun budget => ?_⟩
  have hlimit : ((Progress.start reached).iterate .bland .none budget).2 = .iterationLimit :=
    Progress.iterate_of_cycle hcycle budget (mem_trail _ 6 reached)
  rw [Tableau.status_of_isPrimalFeasible hfeasible, hlimit]
  rfl

end WarmSimplex
