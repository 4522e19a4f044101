import WarmSimplex.Proofs.BasicSolutions
import WarmSimplex.Proofs.Dictionary.Uniqueness
import WarmSimplex.Proofs.Intervals
import WarmSimplex.Proofs.RatioTests

/-!
# Ranges of the objective coefficients

A basis has one objective row, whatever the costs are: the one that is zero on the basis and gives the
objective at every solution. If one cost changes, the objective row changes at the column itself and, if
the column is basic, by a multiple of its row. The range of the cost says exactly how far this goes
before a reduced cost turns negative.

The ranges speak about one cost at a time. Constraints may be over slacks, since the rows do not change.
-/

namespace WarmSimplex

namespace LinearProgram

/-- The program with another objective coefficient for one of its variables. -/
def withCost (p : LinearProgram ℚ) (j : ℕ) (c : ℚ) : LinearProgram ℚ :=
  { p with objective := { p.objective with coefficients := p.objective.coefficients.set j c } }

/-- The objective row of a basis: it is zero on the basis, and its distance is the objective, turned into
one to maximize, at every solution. Its coefficients are the reduced costs. -/
structure PricedRow (p : LinearProgram ℚ) (basis : List ℕ) (e : Equation ℚ) : Prop where
  width : e.coefficients.length = p.variableCount + p.inequalities.length
  basic : ∀ j ∈ basis, e.coefficient j = 0
  gap : ∀ v, p.SolvedBy v → e.gap v = p.gain (valuesOf p.variableCount v)

/-- Another cost changes the gain by what the variable has of it. -/
theorem gain_withCost {p : LinearProgram ℚ} {j : ℕ} (hj : j < p.objective.coefficients.length) (c : ℚ)
    (x : List ℚ) :
    (p.withCost j c).gain x = p.gain x +
      p.objective.sense.sign * (c - p.objective.coefficients.getD j 0) * x.getD j 0 := by
  have hdot : ∀ coefficients : List ℚ, Scalar.dot coefficients x =
      (⟨coefficients, 0⟩ : Equation ℚ).eval (fun k => x.getD k 0) := fun coefficients =>
    (Equation.eval_eq_dot (e := ⟨coefficients, 0⟩) fun _ => .inr rfl).symm
  have hset := Equation.eval_setCoefficient (e := ⟨p.objective.coefficients, 0⟩) hj c
    (fun k => x.getD k 0)
  rw [gain, gain, evaluate, evaluate, hdot, hdot, withCost]
  change p.objective.sense.sign *
    ((⟨p.objective.coefficients, 0⟩ : Equation ℚ).setCoefficient j c).eval _ = _
  rw [hset]
  change _ * (_ + (c - p.objective.coefficients.getD j 0) * _) = _
  ring

end LinearProgram

namespace Tableau

/-- The range of an objective coefficient in which the reduced costs of the basis stay at or above zero,
and outside of which they do not. Whatever the coefficient is, the basis has exactly one objective row. -/
structure CostRangeExact (t : Tableau ℚ) (p : LinearProgram ℚ) (j : ℕ) (range : SensitivityRange ℚ) :
    Prop where
  name : p.variableNames[j]? = some range.name
  current : p.objective.coefficients[j]? = some range.current
  contains : range.range.Contains range.current
  pricedRow : ∀ c, ∃! e, (p.withCost j c).PricedRow t.basis e
  dual_iff : ∀ c e, (p.withCost j c).PricedRow t.basis e →
    ((∀ d ∈ e.coefficients, 0 ≤ d) ↔ range.range.Contains c)

/-- The objective row after the cost of a column changed. The row of a basic column clears it again. -/
def repriceColumn (t : Tableau ℚ) (j : ℕ) (change : ℚ) : Equation ℚ :=
  let changed := t.objective.setCoefficient j (t.reducedCost j - change)
  match t.rows.find? (·.basic == j) with
  | none => changed
  | some r => changed.subtractMultiple (-change) r.toEquation

variable {t : Tableau ℚ} {p : LinearProgram ℚ} {j k : ℕ} {x : ℚ} {r : Row ℚ}

/-- The rows are as wide as the objective row with another reduced cost. -/
theorem length_setReducedCost (ht : t.dictionary.Canonical) (hr : r ∈ t.rows) (j : ℕ) (x : ℚ) :
    r.coefficients.length =
      (t.objective.setCoefficient j (t.reducedCost j - x)).coefficients.length := by
  rw [Equation.length_setCoefficient]
  exact forall_mem_dictionary_rows.mp ht.solved.width r hr

/-- The change of a column's own reduced cost, before it is cleared. -/
theorem coefficient_setReducedCost (hj : j < t.columnCount) :
    (t.objective.setCoefficient j (t.reducedCost j - x)).coefficient k =
      t.reducedCost k - if k = j then x else 0 := by
  split
  · rename_i hk
    rw [hk]
    exact Equation.coefficient_setCoefficient_self _ hj
  · rename_i hk
    rw [sub_zero]
    exact Equation.coefficient_setCoefficient_of_ne _ _ (Ne.symm hk)

/-- The cost of a column outside the basis moves its own reduced cost. -/
theorem coefficient_repriceColumn_nonbasic (hj : j < t.columnCount)
    (hfind : t.rows.find? (·.basic == j) = none) :
    (t.repriceColumn j x).coefficient k = t.reducedCost k - if k = j then x else 0 := by
  rw [repriceColumn, hfind]
  exact coefficient_setReducedCost hj

/-- The cost of a basic column moves the reduced costs at the rates of its row. -/
theorem coefficient_repriceColumn_basic (ht : t.dictionary.Canonical) (hj : j < t.columnCount)
    (hfind : t.rows.find? (·.basic == j) = some r) :
    (t.repriceColumn j x).coefficient k =
      t.reducedCost k - (if k = j then x else 0) + x * r.coefficient k := by
  have hwidth := length_setReducedCost ht (List.mem_of_find?_eq_some hfind) j x
  rw [repriceColumn, hfind]
  change (Equation.subtractMultiple _ (-x) r.toEquation).coefficient k = _
  rw [Equation.coefficient_subtractMultiple _ hwidth, coefficient_setReducedCost hj]
  ring

/-- If no cost changes, the reduced costs stay. -/
theorem coefficient_repriceColumn_zero (ht : t.dictionary.Canonical) (hj : j < t.columnCount) :
    (t.repriceColumn j 0).coefficient k = t.reducedCost k := by
  cases hfind : t.rows.find? (·.basic == j) with
  | none => rw [coefficient_repriceColumn_nonbasic hj hfind, ite_self, sub_zero]
  | some r => rw [coefficient_repriceColumn_basic ht hj hfind, ite_self, sub_zero, zero_mul, add_zero]

/-- The repriced row has as many columns as the tableau. -/
theorem length_repriceColumn (ht : t.dictionary.Canonical) (j : ℕ) (x : ℚ) :
    (t.repriceColumn j x).coefficients.length = t.columnCount := by
  rw [repriceColumn]
  split
  · exact Equation.length_setCoefficient _ _ _
  · rename_i r hfind
    have hwidth := length_setReducedCost ht (List.mem_of_find?_eq_some hfind) j x
    rw [Equation.length_subtractMultiple, hwidth, min_self]
    exact Equation.length_setCoefficient _ _ _

/-- The repriced row is zero on the basis. -/
theorem repriceColumn_basis (ht : t.dictionary.Canonical) (hj : j < t.columnCount) {s : Row ℚ}
    (hs : s ∈ t.rows) : (t.repriceColumn j x).coefficient s.basic = 0 := by
  have hpriced : t.reducedCost s.basic = 0 := forall_mem_dictionary_rows.mp ht.priced s hs
  cases hfind : t.rows.find? (·.basic == j) with
  | none =>
    have hne : s.basic ≠ j := by simpa using List.find?_eq_none.mp hfind s hs
    rw [coefficient_repriceColumn_nonbasic hj hfind, hpriced, if_neg hne, sub_zero]
  | some r =>
    have hr : r.unlabelled ∈ t.dictionary.rows := List.mem_map_of_mem (List.mem_of_find?_eq_some hfind)
    have hbasic : r.basic = j := by simpa using List.find?_some hfind
    have hunit : r.coefficient s.basic = if s.basic = r.basic then 1 else 0 :=
      ht.solved.coefficient_basic hr (List.mem_map_of_mem hs)
    rw [coefficient_repriceColumn_basic ht hj hfind, hpriced, hunit, hbasic]
    split <;> ring

/-- At the points of the tableau the repriced row gives the changed costs. -/
theorem gap_repriceColumn (ht : t.dictionary.Canonical) (hj : j < t.columnCount) {v : ℕ → ℚ}
    (hv : t.dictionary.Holds v) :
    (t.repriceColumn j x).gap v = t.objective.gap v + x * v j := by
  have hset : (t.objective.setCoefficient j (t.reducedCost j - x)).gap v =
      t.objective.gap v + x * v j := by
    rw [Equation.gap, Equation.gap, Equation.eval_setCoefficient hj]
    change t.objective.rhs - (_ + (t.objective.coefficient j - x - t.objective.coefficient j) * _) = _
    ring
  rw [repriceColumn]
  split
  · exact hset
  · rename_i r hfind
    have hr := List.mem_of_find?_eq_some hfind
    have hwidth := length_setReducedCost ht hr j x
    have hrow : r.gap v = 0 := Equation.holds_iff_gap_eq_zero.mp (holds_dictionary.mp hv r hr)
    rw [Equation.gap_subtractMultiple _ hwidth, hset, hrow, mul_zero, sub_zero]

/-! ## The changes that are kept -/

/-- A column that a row is found for is basic. -/
theorem isBasic_of_find? (hfind : t.rows.find? (·.basic == j) = some r) : t.isBasic j = true := by
  have hbasic : (r.basic == j) = true := by simpa using List.find?_some hfind
  exact List.any_eq_true.mpr ⟨r, List.mem_of_find?_eq_some hfind, hbasic⟩

/-- The changes of the cost of a basic column are those that keep the reduced costs outside the basis. -/
theorem contains_costChanges_basic (htolerance : t.tolerance = 0) (hdual : ∀ k, 0 ≤ t.reducedCost k)
    (hfind : t.rows.find? (·.basic == j) = some r) :
    (t.costChanges j).Contains x ↔
      ∀ k, t.isBasic k = false → 0 ≤ t.reducedCost k + x * r.coefficient k := by
  have hstep : ∀ b ∈ r.coefficients.zipIdx, ∀ i : Interval ℚ,
      (if b.2 = j || t.isBasic b.2 then i
        else i.keepNonNegative t.tolerance (t.reducedCost b.2) b.1).Contains x ↔
          i.Contains x ∧ (t.isBasic b.2 = false → 0 ≤ t.reducedCost b.2 + x * b.1) := by
    rintro ⟨a, k⟩ _ i
    cases hbasic : t.isBasic k with
    | true => simp
    | false =>
      have hk : k ≠ j := by
        rintro rfl
        cases hbasic.symm.trans (isBasic_of_find? hfind)
      simp only [hk, decide_false, Bool.or_self, Bool.false_eq_true, if_false, htolerance,
        Interval.contains_keepNonNegative (hdual k), forall_const]
  rw [costChanges, hfind]
  refine (Interval.contains_foldl hstep).trans (and_iff_right Interval.contains_all) |>.trans ?_
  constructor
  · intro hall k hk
    by_cases hin : k < r.coefficients.length
    · have hentry := hall (r.coefficients[k], k) (List.mem_zipIdx_iff_getElem?.mpr
        (List.getElem?_eq_getElem hin)) hk
      rwa [Equation.coefficient, List.getD_eq_getElem _ _ hin]
    · rw [Equation.coefficient_eq_zero_of_le (not_lt.mp hin), mul_zero, add_zero]
      exact hdual k
  · rintro hall ⟨a, k⟩ hmem hk
    have hentry : r.coefficient k = a := by
      rw [Equation.coefficient, List.getD_eq_getElem?_getD, List.mem_zipIdx_iff_getElem?.mp hmem]
      rfl
    exact hentry ▸ hall k hk

/-- The changes of a cost are those for which the repriced row has no negative reduced cost. -/
theorem contains_costChanges (ht : t.dictionary.Canonical) (htolerance : t.tolerance = 0)
    (hdual : ∀ k, 0 ≤ t.reducedCost k) (hj : j < t.columnCount) :
    (t.costChanges j).Contains x ↔ ∀ k, 0 ≤ (t.repriceColumn j x).coefficient k := by
  cases hfind : t.rows.find? (·.basic == j) with
  | none =>
    have hchanges : (t.costChanges j).Contains x ↔ x ≤ t.reducedCost j := by
      rw [costChanges, hfind]
      simp [Interval.Contains]
    rw [hchanges]
    constructor
    · intro hx k
      rw [coefficient_repriceColumn_nonbasic hj hfind]
      split
      · rename_i hk
        rw [hk]
        exact sub_nonneg.mpr hx
      · rw [sub_zero]
        exact hdual k
    · intro hall
      have hown := hall j
      rw [coefficient_repriceColumn_nonbasic hj hfind, if_pos rfl] at hown
      exact sub_nonneg.mp hown
  | some r =>
    rw [contains_costChanges_basic htolerance hdual hfind]
    refine forall_congr' fun k => ?_
    cases hbasic : t.isBasic k with
    | true =>
      obtain ⟨s, hs, hk⟩ := List.any_eq_true.mp hbasic
      have hzero := repriceColumn_basis (x := x) ht hj hs
      rw [beq_iff_eq.mp hk] at hzero
      simp [hzero]
    | false =>
      have hk : k ≠ j := by
        rintro rfl
        cases hbasic.symm.trans (isBasic_of_find? hfind)
      rw [coefficient_repriceColumn_basic ht hj hfind, if_neg hk, sub_zero]
      exact forall_prop_of_true rfl

/-! ## The range of a cost -/

/-- The range of a cost has those numbers in it that differ from it by one of the changes, in the
program's own sense. -/
theorem contains_costRange (d : Decision ℚ) {c : ℚ} :
    (t.costRange j d).range.Contains c ↔ (t.costChanges j).Contains (t.sense.sign * (c - d.cost)) := by
  rw [costRange]
  cases t.sense with
  | maximize => simp [Sense.sign, Interval.contains_addTo]
  | minimize => simp [Sense.sign, Interval.contains_subtractFrom]

namespace Stores

/-- A basis has one objective row. -/
theorem pricedRow_iff (ht : t.Stores p) (hj : j < p.variableCount) {c : ℚ} {e : Equation ℚ} :
    (p.withCost j c).PricedRow t.basis e ↔
      e = t.repriceColumn j (t.sense.sign * (c - p.objective.coefficients.getD j 0)) := by
  have hcanonical := ht.encodes.canonical
  have hcolumn := ht.lt_columnCount hj
  have hlength := length_repriceColumn hcanonical j
    (t.sense.sign * (c - p.objective.coefficients.getD j 0))
  have hrepriced : (p.withCost j c).PricedRow t.basis
      (t.repriceColumn j (t.sense.sign * (c - p.objective.coefficients.getD j 0))) := by
    refine ⟨hlength.trans ht.columns, ?_, fun v hv => ?_⟩
    · exact List.forall_mem_map.mpr fun s hs => repriceColumn_basis hcanonical hcolumn hs
    · rw [gap_repriceColumn hcanonical hcolumn (ht.holds_iff.mpr hv), ht.gap hv,
        LinearProgram.gain_withCost (hj.trans_eq ht.objective.symm), ht.sense]
      change _ = p.gain (valuesOf p.variableCount v) + _ * (valuesOf p.variableCount v).getD j 0
      rw [getD_valuesOf v hj]
  constructor
  · intro he
    refine hcanonical.equation_eq hlength (he.width.trans ht.columns.symm) (fun s hs => ?_)
      fun v hv => ?_
    · have hbasic : s.basic ∈ t.basis := basis_dictionary t ▸ List.mem_map_of_mem hs
      rw [he.basic _ hbasic, hrepriced.basic _ hbasic]
    · have hsolved := ht.holds_iff.mp hv
      rw [he.gap v hsolved, hrepriced.gap v hsolved]
  · rintro rfl
    exact hrepriced

/-- The ranges of the costs of an optimal tableau are exact. -/
theorem costRangeExact (ht : t.Stores p) (htolerance : t.tolerance = 0) (hoptimal : t.isOptimal = true)
    (hj : j < p.variableCount) :
    ∃ range, t.analysis.costRanges[j]? = some range ∧ t.CostRangeExact p j range := by
  have hcanonical := ht.encodes.canonical
  have hcolumn := ht.lt_columnCount hj
  have hdual := (isDualFeasible_iff htolerance).mp (Bool.and_eq_true_iff.mp hoptimal).2
  have hname : p.variableNames[j]? = some p.variableNames[j] := List.getElem?_eq_getElem hj
  have hcost : p.objective.coefficients[j]? = some (p.objective.coefficients.getD j 0) := by
    rw [List.getElem?_eq_getElem (hj.trans_eq ht.objective.symm),
      List.getD_eq_getElem _ _ (hj.trans_eq ht.objective.symm)]
  have hdecision : t.decisions[j]? = some ⟨p.variableNames[j], p.objective.coefficients.getD j 0⟩ := by
    rw [ht.decisions, LinearProgram.decisions, List.getElem?_zipWith, hname, hcost]
  refine ⟨t.costRange j ⟨p.variableNames[j], p.objective.coefficients.getD j 0⟩, ?_, ?_⟩
  · rw [analysis, List.getElem?_mapIdx, hdecision]
    rfl
  · refine ⟨hname, hcost, ?_, fun c => ⟨_, (ht.pricedRow_iff hj).mpr rfl, fun e he =>
      (ht.pricedRow_iff hj).mp he⟩, fun c e he => ?_⟩
    · change (t.costRange j _).range.Contains (p.objective.coefficients.getD j 0)
      rw [contains_costRange, contains_costChanges hcanonical htolerance hdual hcolumn, sub_self, mul_zero]
      intro k
      rw [coefficient_repriceColumn_zero hcanonical hcolumn]
      exact hdual k
    · rw [contains_costRange, contains_costChanges hcanonical htolerance hdual hcolumn,
        (ht.pricedRow_iff hj).mp he, Equation.forall_coefficients_nonneg]

end Stores

end Tableau

/-- After any history that adds constraints over the columns, pivots off zero and solves, the ranges of
the objective coefficients of an optimal tableau are exact. -/
theorem Origin.costRanges_exact {o : Origin} {t : Tableau ℚ} (ht : o.tableau = .ok t)
    {history : List (Edit ℚ)} (hcareful : t.Careful history)
    (htolerance : (t.afterEdits history).tolerance = 0)
    (hoptimal : (t.afterEdits history).isOptimal = true) :
    let reached := t.afterEdits history
    let extended := o.start.extend (t.added history)
    ∀ j < extended.variableCount, ∃ range, reached.analysis.costRanges[j]? = some range ∧
      reached.CostRangeExact extended j range := by
  intro reached extended j hj
  exact (Origin.stores_of_careful ht hcareful).costRangeExact htolerance hoptimal hj

/-- The ranges of a minimum with a basic and a non-basic variable, after a cut over a slack. -/
theorem costRanges_after_cut :
    let o : Origin := .program
      ⟨["x", "y"], ⟨[1, 2], .minimize⟩, [⟨"demand", [1, 1], .ge, 2⟩, ⟨"limit", [1, 0], .le, 3⟩]⟩
    let t := o.start.slackTableau
    let history : List (Edit ℚ) :=
      [.setTolerances (some 0) none, .solve {}, .appendRow [0, 1, 1] 1, .pivot 0 1, .solve {}]
    o.tableau = .ok t ∧ t.Careful history ∧
      (t.afterEdits history).tolerance = 0 ∧ (t.afterEdits history).isOptimal = true ∧
      let reached := t.afterEdits history
      let extended := o.start.extend (t.added history)
      ∀ j < extended.variableCount, ∃ range, reached.analysis.costRanges[j]? = some range ∧
        reached.CostRangeExact extended j range := by
  intro o t history
  have ht : o.tableau = .ok t := by with_unfolding_all rfl
  have hcareful : t.Careful history := by
    have hentry : ((t.afterEdits [.setTolerances (some 0) none, .solve {}]).afterEdit
        (.appendRow [0, 1, 1] 1)).coefficient 0 1 ≠ 0 := by decide +kernel
    exact ⟨by simp [history, Edit.SetsNonneg], trivial, trivial, trivial, fun _ _ => hentry, trivial,
      trivial⟩
  have htolerance : (t.afterEdits history).tolerance = 0 := by decide +kernel
  have hoptimal : (t.afterEdits history).isOptimal = true := by decide +kernel
  exact ⟨ht, hcareful, htolerance, hoptimal, Origin.costRanges_exact ht hcareful htolerance hoptimal⟩

end WarmSimplex
