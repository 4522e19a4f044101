import WarmSimplex.Proofs.Dictionary

/-!
# A dictionary is determined by its basis

Two canonical dictionaries with the same basic columns, row by row, are equal if they have the same
points and the same objective at these points. How either of them was reached does not matter: the
points along the columns outside the basis show every entry.

The basic columns have to agree row by row. Dictionaries with the same set of basic columns can list
their rows in different orders.
-/

namespace WarmSimplex

open TwoPhase (BasicRow)

/-- The entry of a solved row in a basic column: one in its own, zero in the others. -/
theorem SolvedRows.coefficient_basic {columns : ℕ} {rows : List (BasicRow ℚ)}
    (hrows : SolvedRows columns rows) {r s : BasicRow ℚ} (hr : r ∈ rows) (hs : s ∈ rows) :
    r.coefficient s.basic = if s.basic = r.basic then 1 else 0 := by
  split
  · rename_i hsame
    rw [hsame, hrows.own r hr]
  · rename_i hother
    exact hrows.other r hr s hs hother

namespace Dictionary

variable {d later : Dictionary} {e target : Equation ℚ}

/-- An objective that is zero at all points of a canonical dictionary has no reduced costs. -/
theorem Canonical.objective_eq_zero (hd : d.Canonical)
    (hgap : ∀ v, d.Holds v → d.objective.gap v = 0) :
    d.objective.rhs = 0 ∧ ∀ j, d.objective.coefficient j = 0 := by
  have hrhs : d.objective.rhs = 0 := by
    rw [← gap_basicPoint hd]
    exact hgap _ (holds_basicPoint hd)
  refine ⟨hrhs, fun j => ?_⟩
  by_cases hin : j < d.columns
  · by_cases hbasic : ∃ r ∈ d.rows, r.basic = j
    · obtain ⟨r, hr, rfl⟩ := hbasic
      exact hd.priced r hr
    · push Not at hbasic
      -- one step along the column changes the objective by its reduced cost
      have hstep := hgap _ (holds_along hd hin hbasic 1)
      rw [gap_along hd hin hbasic, hrhs] at hstep
      linarith
  · exact Equation.coefficient_eq_zero_of_le (not_lt.mp hin)

/-- Two equations are equal if they agree on the basic columns and their sides have the same distance
at all points of a canonical dictionary. -/
theorem Canonical.equation_eq (hd : d.Canonical) (he : e.coefficients.length = d.columns)
    (htarget : target.coefficients.length = d.columns)
    (hbasic : ∀ r ∈ d.rows, target.coefficient r.basic = e.coefficient r.basic)
    (hgap : ∀ v, d.Holds v → target.gap v = e.gap v) : target = e := by
  have hwidth : e.coefficients.length = target.coefficients.length := he.trans htarget.symm
  have hcolumns : (⟨d.rows, target.subtractMultiple 1 e⟩ : Dictionary).columns = d.columns := by
    rw [columns, Equation.length_subtractMultiple, he, htarget, min_self]
  have hcanonical : (⟨d.rows, target.subtractMultiple 1 e⟩ : Dictionary).Canonical := by
    refine ⟨hcolumns ▸ hd.solved, fun r hr => ?_⟩
    rw [Equation.coefficient_subtractMultiple 1 hwidth, hbasic r hr, one_mul, sub_self]
  have hzero : ∀ v, d.Holds v → (target.subtractMultiple 1 e).gap v = 0 := by
    intro v hv
    rw [Equation.gap_subtractMultiple 1 hwidth, hgap v hv, one_mul, sub_self]
  obtain ⟨hrhs, hcoefficient⟩ := hcanonical.objective_eq_zero hzero
  refine Equation.ext_coefficient hwidth.symm (fun j => ?_) ?_
  · have hj := hcoefficient j
    rwa [Equation.coefficient_subtractMultiple 1 hwidth, one_mul, sub_eq_zero] at hj
  · change target.rhs - 1 * e.rhs = 0 at hrhs
    linarith

/-- Two rows of canonical dictionaries that are solved for the same column are equal, if the bases have
the same columns and the points of one dictionary are points of the other. -/
theorem Canonical.row_eq (hd : d.Canonical) (hlater : later.Canonical)
    (hcolumns : later.columns = d.columns)
    (hbases : ∀ r ∈ d.rows, ∃ s ∈ later.rows, s.basic = r.basic)
    (hholds : ∀ v, d.Holds v → later.Holds v) {r s : BasicRow ℚ} (hr : r ∈ d.rows)
    (hs : s ∈ later.rows) (hbasic : s.basic = r.basic) : s.toEquation = r.toEquation := by
  refine hd.equation_eq (hd.solved.width r hr) ((hlater.solved.width s hs).trans hcolumns) ?_ ?_
  · intro q hq
    obtain ⟨q', hq', hsame⟩ := hbases q hq
    rw [hd.solved.coefficient_basic hr hq, ← hsame, hlater.solved.coefficient_basic hs hq', hbasic]
  · intro v hv
    rw [Equation.holds_iff_gap_eq_zero.mp (hv r hr),
      Equation.holds_iff_gap_eq_zero.mp (hholds v hv s hs)]

/-- Canonical dictionaries with the same basis, row by row, are equal if the points of the one are
points of the other, with the same objective. -/
theorem Canonical.eq_of_basis (hd : d.Canonical) (hlater : later.Canonical)
    (hcolumns : later.columns = d.columns)
    (hbasis : later.rows.map (·.basic) = d.rows.map (·.basic))
    (hholds : ∀ v, d.Holds v → later.Holds v)
    (hgap : ∀ v, d.Holds v → later.objective.gap v = d.objective.gap v) : later = d := by
  have hbases : ∀ r ∈ d.rows, ∃ s ∈ later.rows, s.basic = r.basic := fun r hr =>
    List.mem_map.mp (hbasis ▸ List.mem_map_of_mem hr)
  have hrows : later.rows = d.rows := by
    apply List.ext_getElem
    · simpa using congrArg List.length hbasis
    · intro i hi hi'
      have hsame : later.rows[i].basic = d.rows[i].basic := by
        have hentry := congrArg (·[i]?) hbasis
        simpa [hi, hi'] using hentry
      have hequation := hd.row_eq hlater hcolumns hbases hholds (List.getElem_mem hi')
        (List.getElem_mem hi) hsame
      cases hr : d.rows[i]
      cases hs : later.rows[i]
      simp_all
  have hobjective : later.objective = d.objective := by
    refine hd.equation_eq rfl hcolumns (fun r hr => ?_) hgap
    rw [hd.priced r hr, hlater.priced r (hrows ▸ hr)]
  cases d
  cases later
  simp_all

end Dictionary

end WarmSimplex
