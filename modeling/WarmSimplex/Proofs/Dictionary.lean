import WarmSimplex.Proofs.SolvedRows

/-!
# Dictionaries

A dictionary is what the two solvers have in common: rows and an objective row. It is canonical if
the rows are solved and the basic columns have no reduced cost. The basic point then meets all rows,
and the signs of the entries decide what the dictionary says about its program: an optimum, a
contradiction, or a ray on which the objective grows without bound.

How a solver gets from one dictionary to another is not looked at here.
-/

namespace WarmSimplex

open TwoPhase (BasicRow)

/-- Rows and an objective row over the same columns. -/
structure Dictionary where
  rows : List (BasicRow ℚ)
  objective : Equation ℚ

namespace Dictionary

/-- The number of columns. -/
def columns (d : Dictionary) : ℕ := d.objective.coefficients.length

/-- The point meets every row. -/
def Holds (d : Dictionary) (v : ℕ → ℚ) : Prop := ∀ r ∈ d.rows, r.Holds v

/-- The basic columns form an identity matrix and have reduced cost zero. -/
structure Canonical (d : Dictionary) : Prop where
  solved : SolvedRows d.columns d.rows
  priced : ∀ r ∈ d.rows, d.objective.coefficient r.basic = 0

variable {d : Dictionary}

/-! ## The basic point and its rays -/

/-- A negative rate carries past any bound. -/
theorem exists_step {rate : ℚ} (hrate : rate < 0) (start bound : ℚ) :
    ∃ step : ℚ, 0 ≤ step ∧ bound < start - step * rate := by
  refine ⟨(|bound - start| + 1) / -rate, div_nonneg (by positivity) (by linarith), ?_⟩
  have hgain : (|bound - start| + 1) / -rate * rate = -(|bound - start| + 1) := by
    rw [div_neg, neg_mul, div_mul_cancel₀ _ hrate.ne]
  rw [hgain]
  linarith [le_abs_self (bound - start)]

/-- The point that lies the given step along a column: the basic columns make up for it, and all
other columns are zero. -/
def along (d : Dictionary) (column : ℕ) (step : ℚ) : ℕ → ℚ := fun j =>
  if j = column then step
  else match d.rows.find? (·.basic == j) with
    | some r => r.rhs - step * r.coefficient column
    | none => 0

/-- The point at which all columns outside the basis are zero. -/
def basicPoint (d : Dictionary) : ℕ → ℚ := fun j =>
  match d.rows.find? (·.basic == j) with
  | some r => r.rhs
  | none => 0

/-- The value of a basic column along another column. -/
theorem along_basic (hd : d.Canonical) {column : ℕ} (hcolumn : ∀ r ∈ d.rows, r.basic ≠ column)
    (step : ℚ) {r : BasicRow ℚ} (hr : r ∈ d.rows) :
    d.along column step r.basic = r.rhs - step * r.coefficient column := by
  rw [along, if_neg (hcolumn r hr), find?_key hd.solved.nodup hr]

/-- The value of a column outside the basis along another one. -/
theorem along_nonbasic {column j : ℕ} (hj : ∀ r ∈ d.rows, r.basic ≠ j) (step : ℚ) :
    d.along column step j = if j = column then step else 0 := by
  have hfind : d.rows.find? (·.basic == j) = none := by
    rw [List.find?_eq_none]
    intro r hr
    simpa using hj r hr
  rw [along, hfind]

/-- The value of a basic column at the basic point. -/
theorem basicPoint_basic (hd : d.Canonical) {r : BasicRow ℚ} (hr : r ∈ d.rows) :
    d.basicPoint r.basic = r.rhs := by
  rw [basicPoint, find?_key hd.solved.nodup hr]

/-- The value of a column outside the basis at the basic point. -/
theorem basicPoint_nonbasic {j : ℕ} (hj : ∀ r ∈ d.rows, r.basic ≠ j) : d.basicPoint j = 0 := by
  have hfind : d.rows.find? (·.basic == j) = none := by
    rw [List.find?_eq_none]
    intro r hr
    simpa using hj r hr
  rw [basicPoint, hfind]

/-- A sum over the columns outside the basis has one term along a column, that of the column. -/
theorem sum_nonbasic_along {column : ℕ} (hin : column < d.columns)
    (hcolumn : ∀ r ∈ d.rows, r.basic ≠ column) (step : ℚ) (coefficient : ℕ → ℚ) :
    ∑ j ∈ nonbasic d.columns d.rows, coefficient j * d.along column step j =
      step * coefficient column := by
  have hmem : column ∈ nonbasic d.columns d.rows :=
    Finset.mem_filter.mpr ⟨Finset.mem_range.mpr hin, hcolumn⟩
  rw [Finset.sum_eq_single_of_mem column hmem]
  · rw [along, if_pos rfl, mul_comm]
  · intro j hj hne
    rw [along_nonbasic (Finset.mem_filter.mp hj).2, if_neg hne, mul_zero]

/-- All points along a column outside the basis meet the rows. -/
theorem holds_along (hd : d.Canonical) {column : ℕ} (hin : column < d.columns)
    (hcolumn : ∀ r ∈ d.rows, r.basic ≠ column) (step : ℚ) : d.Holds (d.along column step) := by
  intro r hr
  rw [Equation.Holds, hd.solved.eval_row hr, sum_nonbasic_along hin hcolumn,
    along_basic hd hcolumn step hr]
  ring

/-- Along a column outside the basis the objective changes at the rate of the reduced cost. -/
theorem gap_along (hd : d.Canonical) {column : ℕ} (hin : column < d.columns)
    (hcolumn : ∀ r ∈ d.rows, r.basic ≠ column) (step : ℚ) :
    d.objective.gap (d.along column step) =
      d.objective.rhs - step * d.objective.coefficient column := by
  rw [Equation.gap, Equation.eval_of_cleared rfl hd.priced]
  exact congrArg _ (sum_nonbasic_along hin hcolumn step _)

/-- A sum over the columns outside the basis is zero at the basic point. -/
theorem sum_nonbasic_basicPoint (coefficient : ℕ → ℚ) :
    ∑ j ∈ nonbasic d.columns d.rows, coefficient j * d.basicPoint j = 0 := by
  apply Finset.sum_eq_zero
  intro j hj
  rw [basicPoint_nonbasic (Finset.mem_filter.mp hj).2, mul_zero]

/-- The basic point meets the rows. -/
theorem holds_basicPoint (hd : d.Canonical) : d.Holds d.basicPoint := by
  intro r hr
  rw [Equation.Holds, hd.solved.eval_row hr, sum_nonbasic_basicPoint, basicPoint_basic hd hr,
    add_zero]

/-- At the basic point the objective is its right-hand side. -/
theorem gap_basicPoint (hd : d.Canonical) : d.objective.gap d.basicPoint = d.objective.rhs := by
  have heval : d.objective.eval d.basicPoint = 0 :=
    (Equation.eval_of_cleared rfl hd.priced _).trans (sum_nonbasic_basicPoint _)
  rw [Equation.gap, heval, sub_zero]

/-- The basic point is as far below zero as the right-hand sides are. -/
theorem le_basicPoint {bound : ℚ} (hbound : bound ≤ 0) (hrhs : ∀ r ∈ d.rows, bound ≤ r.rhs)
    (j : ℕ) : bound ≤ d.basicPoint j := by
  rw [basicPoint]
  split
  · rename_i r hfind
    exact hrhs r (List.mem_of_find?_eq_some hfind)
  · exact hbound

/-- A ray on which no basic column falls stays where it starts, at or above zero. -/
theorem along_nonneg (hrhs : ∀ r ∈ d.rows, 0 ≤ r.rhs) {column : ℕ}
    (hfall : ∀ r ∈ d.rows, r.coefficient column ≤ 0) {step : ℚ} (hstep : 0 ≤ step) (j : ℕ) :
    0 ≤ d.along column step j := by
  rw [along]
  split
  · exact hstep
  · split
    · rename_i r hfind
      have hr := List.mem_of_find?_eq_some hfind
      have hprod := mul_nonpos_of_nonneg_of_nonpos hstep (hfall r hr)
      linarith [hrhs r hr]
    · exact le_rfl

/-! ## What the signs say -/

/-- Reduced costs that are not negative bound the objective by its value, as long as the columns with
other reduced costs are zero. -/
theorem gap_le_rhs {bound : ℕ} (hcosts : ∀ j < bound, 0 ≤ d.objective.coefficient j) {v : ℕ → ℚ}
    (hnonneg : ∀ j, 0 ≤ v j) (hzero : ∀ j, bound ≤ j → v j = 0) :
    d.objective.gap v ≤ d.objective.rhs := by
  have heval : 0 ≤ d.objective.eval v := by
    apply Finset.sum_nonneg
    intro j _
    by_cases hj : j < bound
    · exact mul_nonneg (hcosts j hj) (hnonneg j)
    · rw [hzero j (not_lt.mp hj), mul_zero]
  rw [Equation.gap]
  linarith

/-- A column of negative reduced cost along which no basic column falls is a ray of points that are
not negative, on which the objective grows without bound. -/
theorem exists_ray (hd : d.Canonical) (hrhs : ∀ r ∈ d.rows, 0 ≤ r.rhs) {column : ℕ}
    (hcost : d.objective.coefficient column < 0) (hfall : ∀ r ∈ d.rows, r.coefficient column ≤ 0)
    (bound : ℚ) :
    ∃ step, d.Holds (d.along column step) ∧ (∀ j, 0 ≤ d.along column step j) ∧
      bound < d.objective.gap (d.along column step) := by
  have hin : column < d.columns := by
    by_contra hout
    exact hcost.ne (Equation.coefficient_eq_zero_of_le (not_lt.mp hout))
  -- a column with a reduced cost is not basic, so the ray along it starts at the basic point
  have hnonbasic : ∀ r ∈ d.rows, r.basic ≠ column := by
    intro r hr hbasic
    have hpriced := hd.priced r hr
    rw [hbasic] at hpriced
    exact hcost.ne hpriced
  obtain ⟨step, hstep, hpast⟩ := exists_step hcost d.objective.rhs bound
  refine ⟨step, holds_along hd hin hnonbasic step, along_nonneg hrhs hfall hstep, ?_⟩
  rw [gap_along hd hin hnonbasic]
  exact hpast

end Dictionary

end WarmSimplex
