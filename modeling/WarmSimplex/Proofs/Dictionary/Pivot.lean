import Mathlib.Algebra.Order.Field.Basic
import WarmSimplex.Proofs.Dictionary

/-!
# Pivots of a dictionary

A pivot solves a row for another column and clears this column everywhere else. On an entry other
than zero it keeps the points that meet the rows, the objective at these points, and the canonical
form.

Any such entry will do. That a solver's choice also keeps the signs right is shown where it chooses.
-/

namespace WarmSimplex

open TwoPhase (BasicRow)

namespace Dictionary

/-- Solve a row for a column and subtract from everything else the multiple that clears it. -/
def pivot (d : Dictionary) (row column : ℕ) : Dictionary :=
  match d.rows[row]? with
  | none => d
  | some r =>
    let solved := r.divide (r.coefficient column)
    { rows := d.rows.mapIdx fun i other =>
        if i = row then { toEquation := solved, basic := column }
        else { other with
          toEquation := other.subtractMultiple (other.coefficient column) solved }
      objective := d.objective.subtractMultiple (d.objective.coefficient column) solved }

variable {d : Dictionary} {row column : ℕ} {r : BasicRow ℚ}

/-- The rows after a pivot: the solved one, and the others without the column. -/
theorem mem_pivot_rows (hr : d.rows[row]? = some r) {after : BasicRow ℚ} :
    after ∈ (d.pivot row column).rows ↔
      after = ⟨r.divide (r.coefficient column), column⟩ ∨
      ∃ i s, i ≠ row ∧ d.rows[i]? = some s ∧
        after = ⟨s.subtractMultiple (s.coefficient column) (r.divide (r.coefficient column)),
          s.basic⟩ := by
  simp only [pivot, hr, List.mem_mapIdx]
  constructor
  · rintro ⟨i, hi, rfl⟩
    by_cases hrow : i = row
    · exact .inl (by rw [if_pos hrow])
    · exact .inr ⟨i, d.rows[i], hrow, List.getElem?_eq_getElem hi, by rw [if_neg hrow]⟩
  · rintro (rfl | ⟨i, s, hrow, hs, rfl⟩)
    · exact ⟨row, (List.getElem?_eq_some_iff.mp hr).1, by rw [if_pos rfl]⟩
    · obtain ⟨hi, rfl⟩ := List.getElem?_eq_some_iff.mp hs
      exact ⟨i, hi, by rw [if_neg hrow]⟩

/-- The objective row after a pivot. -/
theorem objective_pivot (hr : d.rows[row]? = some r) :
    (d.pivot row column).objective =
      d.objective.subtractMultiple (d.objective.coefficient column)
        (r.divide (r.coefficient column)) := by
  simp only [pivot, hr]

/-- The reduced costs after a pivot. -/
theorem objective_coefficient_pivot (hd : SolvedRows d.columns d.rows) (hr : d.rows[row]? = some r)
    (j : ℕ) : (d.pivot row column).objective.coefficient j = d.objective.coefficient j -
      d.objective.coefficient column * (r.coefficient j / r.coefficient column) := by
  have hwidth : (r.divide (r.coefficient column)).coefficients.length =
      d.objective.coefficients.length := by
    rw [Equation.length_divide, hd.width r (List.mem_of_getElem? hr), columns]
  rw [objective_pivot hr, Equation.coefficient_subtractMultiple _ hwidth, Equation.coefficient_divide]

/-- A pivot keeps the number of columns. -/
theorem columns_pivot (hd : SolvedRows d.columns d.rows) (row column : ℕ) :
    (d.pivot row column).columns = d.columns := by
  cases hr : d.rows[row]? with
  | none => simp only [pivot, hr]
  | some r =>
    have hwidth := hd.width r (List.mem_of_getElem? hr)
    rw [columns, objective_pivot hr, Equation.length_subtractMultiple, Equation.length_divide,
      hwidth, columns, min_self]

/-- A pivot puts its column in the place of the row in the basis. -/
theorem basis_pivot (d : Dictionary) (row column : ℕ) :
    (d.pivot row column).rows.map (·.basic) = (d.rows.map (·.basic)).set row column := by
  cases hr : d.rows[row]? with
  | none =>
    rw [List.set_eq_of_length_le (by simpa using List.getElem?_eq_none_iff.mp hr)]
    simp only [pivot, hr]
  | some r =>
    apply List.ext_getElem (by simp [pivot, hr])
    intro i _ _
    by_cases hi : i = row
    · simp [pivot, hr, hi]
    · simp [pivot, hr, hi, Ne.symm hi]

/-- A column with an entry in a row is not basic in another row. -/
theorem not_basic_of_coefficient_ne_zero (hd : SolvedRows d.columns d.rows)
    (hr : d.rows[row]? = some r) (hpivot : r.coefficient column ≠ 0) {i : ℕ} {s : BasicRow ℚ}
    (hs : d.rows[i]? = some s) (hi : i ≠ row) : s.basic ≠ column := by
  rintro rfl
  exact hpivot (hd.other r (List.mem_of_getElem? hr) s (List.mem_of_getElem? hs)
    (hd.basic_ne hr hs hi.symm))

/-- After a pivot the basic columns are still distinct. -/
theorem nodup_pivot (hd : SolvedRows d.columns d.rows) (hr : d.rows[row]? = some r)
    (hpivot : r.coefficient column ≠ 0) :
    ((d.pivot row column).rows.map (·.basic)).Nodup := by
  obtain ⟨hrow, rfl⟩ := List.getElem?_eq_some_iff.mp hr
  rw [basis_pivot]
  by_cases heq : d.rows[row].basic = column
  · have hsame : (d.rows.map (·.basic)).set row d.rows[row].basic = d.rows.map (·.basic) := by
      apply List.ext_getElem (by simp)
      intro i _ _
      by_cases hi : row = i <;> simp [hi]
    rw [← heq, hsame]
    exact hd.nodup
  · apply hd.nodup.set
    intro hmem
    obtain ⟨s, hs, hbasic⟩ := List.mem_map.mp hmem
    obtain ⟨i, hi⟩ := List.mem_iff_getElem?.mp hs
    refine not_basic_of_coefficient_ne_zero hd hr hpivot hi ?_ hbasic
    rintro rfl
    rw [hr, Option.some.injEq] at hi
    exact heq (hi ▸ hbasic)

/-- A pivot on an entry other than zero keeps the rows solved. -/
theorem solvedRows_pivot (hd : SolvedRows d.columns d.rows) (hr : d.rows[row]? = some r)
    (hpivot : r.coefficient column ≠ 0) :
    SolvedRows (d.pivot row column).columns (d.pivot row column).rows := by
  have hmem := List.mem_of_getElem? hr
  have hone : (r.divide (r.coefficient column)).coefficient column = 1 := by
    rw [Equation.coefficient_divide, div_self hpivot]
  have hlength : (r.divide (r.coefficient column)).coefficients.length = d.columns := by
    rw [Equation.length_divide, hd.width r hmem]
  -- the solved row mentions no other basic column, so the others keep their unit entries
  have hclear : ∀ i s, i ≠ row → d.rows[i]? = some s →
      (r.divide (r.coefficient column)).coefficient s.basic = 0 := by
    intro i s hi hs
    rw [Equation.coefficient_divide, hd.other r hmem s (List.mem_of_getElem? hs)
      (hd.basic_ne hr hs hi.symm), zero_div]
  have hentry : ∀ (i : ℕ) (s : BasicRow ℚ), d.rows[i]? = some s → ∀ j,
      (s.subtractMultiple (s.coefficient column) (r.divide (r.coefficient column))).coefficient j =
        s.coefficient j -
          s.coefficient column * (r.divide (r.coefficient column)).coefficient j := by
    intro i s hs j
    exact Equation.coefficient_subtractMultiple _
      (by rw [hlength, hd.width s (List.mem_of_getElem? hs)]) j
  rw [columns_pivot hd]
  refine ⟨?width, nodup_pivot hd hr hpivot, ?own, ?other⟩
  case width =>
    intro t ht
    rcases (mem_pivot_rows hr).mp ht with rfl | ⟨i, s, hi, hs, rfl⟩
    · exact hlength
    · rw [Equation.length_subtractMultiple, hlength, hd.width s (List.mem_of_getElem? hs),
        min_self]
  case own =>
    intro t ht
    rcases (mem_pivot_rows hr).mp ht with rfl | ⟨i, s, hi, hs, rfl⟩
    · exact hone
    · rw [hentry i s hs, hclear i s hi hs, hd.own s (List.mem_of_getElem? hs), mul_zero, sub_zero]
  case other =>
    intro t ht u hu hne
    rcases (mem_pivot_rows hr).mp ht with rfl | ⟨i, s, hi, hs, rfl⟩ <;>
      rcases (mem_pivot_rows hr).mp hu with rfl | ⟨k, q, hk, hq, rfl⟩
    · exact absurd rfl hne
    · exact hclear k q hk hq
    · rw [hentry i s hs, hone]
      ring
    · rw [hentry i s hs, hclear k q hk hq, hd.other s (List.mem_of_getElem? hs) q
        (List.mem_of_getElem? hq) hne, mul_zero, sub_zero]

/-- A pivot on an entry other than zero keeps the canonical form. -/
theorem canonical_pivot (hd : d.Canonical) (hr : d.rows[row]? = some r)
    (hpivot : r.coefficient column ≠ 0) : (d.pivot row column).Canonical := by
  have hmem := List.mem_of_getElem? hr
  refine ⟨solvedRows_pivot hd.solved hr hpivot, fun t ht => ?_⟩
  rw [objective_coefficient_pivot hd.solved hr]
  rcases (mem_pivot_rows hr).mp ht with rfl | ⟨i, s, hi, hs, rfl⟩
  · rw [div_self hpivot]
    ring
  · rw [hd.priced s (List.mem_of_getElem? hs), hd.solved.other r hmem s (List.mem_of_getElem? hs)
      (hd.solved.basic_ne hr hs hi.symm), zero_div, mul_zero, sub_zero]

/-- A pivot on an entry other than zero keeps the points that meet the rows. -/
theorem holds_pivot (hd : SolvedRows d.columns d.rows) (hr : d.rows[row]? = some r)
    (hpivot : r.coefficient column ≠ 0) (v : ℕ → ℚ) :
    (d.pivot row column).Holds v ↔ d.Holds v := by
  have hmem := List.mem_of_getElem? hr
  have hsolved : (r.divide (r.coefficient column)).Holds v ↔ r.Holds v := by
    rw [Equation.holds_iff_gap_eq_zero, Equation.gap_divide, div_eq_zero_iff,
      or_iff_left hpivot, Equation.holds_iff_gap_eq_zero]
  have hcleared : r.Holds v → ∀ s ∈ d.rows,
      ((s.subtractMultiple (s.coefficient column) (r.divide (r.coefficient column))).Holds v ↔
        s.Holds v) := by
    intro hv s hs
    have hwidth : (r.divide (r.coefficient column)).coefficients.length = s.coefficients.length := by
      rw [Equation.length_divide, hd.width r hmem, hd.width s hs]
    rw [Equation.holds_iff_gap_eq_zero, Equation.gap_subtractMultiple _ hwidth,
      Equation.holds_iff_gap_eq_zero.mp (hsolved.mpr hv), mul_zero, sub_zero,
      Equation.holds_iff_gap_eq_zero]
  constructor
  · intro hall s hs
    have hrow : r.Holds v := hsolved.mp (hall _ ((mem_pivot_rows hr).mpr (.inl rfl)))
    obtain ⟨i, hi⟩ := List.mem_iff_getElem?.mp hs
    by_cases hirow : i = row
    · subst hirow
      rw [hr, Option.some.injEq] at hi
      exact hi ▸ hrow
    · exact (hcleared hrow s hs).mp (hall _ ((mem_pivot_rows hr).mpr (.inr ⟨i, s, hirow, hi, rfl⟩)))
  · intro hall t ht
    rcases (mem_pivot_rows hr).mp ht with rfl | ⟨i, s, _, hs, rfl⟩
    · exact hsolved.mpr (hall r hmem)
    · exact (hcleared (hall r hmem) s (List.mem_of_getElem? hs)).mpr
        (hall s (List.mem_of_getElem? hs))

/-- A pivot keeps the objective at the points that meet the rows. -/
theorem gap_pivot (hd : SolvedRows d.columns d.rows) (row column : ℕ) {v : ℕ → ℚ}
    (hv : d.Holds v) : (d.pivot row column).objective.gap v = d.objective.gap v := by
  cases hr : d.rows[row]? with
  | none => simp only [pivot, hr]
  | some r =>
    have hmem := List.mem_of_getElem? hr
    have hwidth : (r.divide (r.coefficient column)).coefficients.length =
        d.objective.coefficients.length := by rw [Equation.length_divide, hd.width r hmem, columns]
    rw [objective_pivot hr, Equation.gap_subtractMultiple _ hwidth, Equation.gap_divide,
      Equation.holds_iff_gap_eq_zero.mp (hv r hmem), zero_div, mul_zero, sub_zero]

/-! ## Right-hand sides -/

/-- A pivot on the row that bounds the increase of its column most tightly keeps the right-hand sides
from becoming negative. -/
theorem rhs_nonneg_pivot (hr : d.rows[row]? = some r) (hpositive : 0 < r.coefficient column)
    (hratio : ∀ s ∈ d.rows, 0 < s.coefficient column →
      r.rhs / r.coefficient column ≤ s.rhs / s.coefficient column)
    (hnonneg : ∀ s ∈ d.rows, 0 ≤ s.rhs) : ∀ s ∈ (d.pivot row column).rows, 0 ≤ s.rhs := by
  have hstep : 0 ≤ r.rhs / r.coefficient column :=
    div_nonneg (hnonneg r (List.mem_of_getElem? hr)) hpositive.le
  intro t ht
  rcases (mem_pivot_rows hr).mp ht with rfl | ⟨i, s, _, hs, rfl⟩
  · exact hstep
  · have hmem := List.mem_of_getElem? hs
    change 0 ≤ s.rhs - s.coefficient column * (r.rhs / r.coefficient column)
    rcases le_or_gt (s.coefficient column) 0 with hfall | hrise
    · have hproduct := mul_nonpos_of_nonpos_of_nonneg hfall hstep
      linarith [hnonneg s hmem]
    · have hbound := (le_div_iff₀ hrise).mp (hratio s hmem hrise)
      linarith

/-- A pivot on a row with right-hand side zero keeps the right-hand sides of all rows. -/
theorem rhs_pivot_of_zero (hr : d.rows[row]? = some r) (hzero : r.rhs = 0) {t : BasicRow ℚ}
    (ht : t ∈ (d.pivot row column).rows) :
    t.rhs = 0 ∨ ∃ s ∈ d.rows, t.basic = s.basic ∧ t.rhs = s.rhs := by
  have hsolved : (r.divide (r.coefficient column)).rhs = 0 := by
    simp [Equation.divide, hzero]
  rcases (mem_pivot_rows hr).mp ht with rfl | ⟨i, s, _, hs, rfl⟩
  · exact .inl hsolved
  · refine .inr ⟨s, List.mem_of_getElem? hs, rfl, ?_⟩
    change s.rhs - s.coefficient column * (r.divide (r.coefficient column)).rhs = s.rhs
    rw [hsolved, mul_zero, sub_zero]

/-! ## Reduced costs -/

/-- A pivot raises the objective by the reduced cost for each unit that the column grows. -/
theorem objective_rhs_pivot (hr : d.rows[row]? = some r) :
    (d.pivot row column).objective.rhs =
      d.objective.rhs - d.objective.coefficient column * (r.rhs / r.coefficient column) := by
  rw [objective_pivot hr]
  rfl

/-- A pivot on a row with a negative entry in its column, whose reduced cost is the first to fall to zero
as the row is taken up, keeps the reduced costs from becoming negative. -/
theorem costs_nonneg_pivot (hd : SolvedRows d.columns d.rows) (hr : d.rows[row]? = some r)
    (hnegative : r.coefficient column < 0)
    (hratio : ∀ j, r.coefficient j < 0 →
      |d.objective.coefficient column / r.coefficient column| ≤
        |d.objective.coefficient j / r.coefficient j|)
    (hnonneg : ∀ j, 0 ≤ d.objective.coefficient j) (j : ℕ) :
    0 ≤ (d.pivot row column).objective.coefficient j := by
  have hcost := hnonneg column
  rw [objective_coefficient_pivot hd hr]
  rcases le_or_gt 0 (r.coefficient j) with hrise | hfall
  · have hproduct := mul_nonneg hcost (div_nonneg_of_nonpos (neg_nonpos.mpr hrise) hnegative.le)
    have hsplit : d.objective.coefficient column * (-r.coefficient j / r.coefficient column) =
        -(d.objective.coefficient column * (r.coefficient j / r.coefficient column)) := by ring
    linarith [hnonneg j]
  · -- both ratios are those of a reduced cost to a negative entry
    have hbound := hratio j hfall
    rw [abs_of_nonpos (div_nonpos_of_nonneg_of_nonpos hcost hnegative.le),
      abs_of_nonpos (div_nonpos_of_nonneg_of_nonpos (hnonneg j) hfall.le), neg_le_neg_iff] at hbound
    have hsame : d.objective.coefficient column * (r.coefficient j / r.coefficient column) =
        d.objective.coefficient column / r.coefficient column * r.coefficient j := by ring
    rw [hsame]
    have hproduct := (div_le_iff_of_neg hfall).mp hbound
    linarith

end Dictionary

end WarmSimplex
