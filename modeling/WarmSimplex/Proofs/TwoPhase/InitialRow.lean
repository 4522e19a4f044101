import WarmSimplex.Proofs.Feasible
import WarmSimplex.Proofs.TwoPhase.Phase

/-!
# The row of a constraint

The two-phase method turns a constraint around if its right-hand side is negative, and gives it a
slack, a surplus with an artificial column, or an artificial column alone. Which columns the row
mentions, what it is solved for and when a vector solves it is said here for one constraint.

Coefficient lists of any length are meant: a missing coefficient is zero, and one past the last
variable is dropped.
-/

namespace WarmSimplex.TwoPhase

/-! ## The columns of a row -/

section Columns

variable {α : Type} [Scalar α] {c : Constraint α} {rest constraints : List (Constraint α)}
  {width columns slack artificial : ℕ}

/-- A fitted list has the length that was asked for. -/
theorem length_fit (width : ℕ) (values : List α) : (fit width values).length = width := by
  rw [fit, List.length_append, List.length_take, List.length_replicate]
  omega

/-- Past the fitted coefficients there are only zeros. -/
theorem coefficient_fit_of_le (values : List α) (count : ℕ) (rhs : α) {j : ℕ} (hj : width ≤ j) :
    (⟨fit width values ++ List.replicate count 0, rhs⟩ : Equation α).coefficient j = 0 := by
  rw [Equation.coefficient_append, length_fit, if_neg (not_lt.mpr hj), List.getD_eq_getElem?_getD,
    List.getElem?_replicate]
  split <;> rfl

/-- The number of slack columns that a constraint takes. -/
def slackUse (c : Constraint α) : ℕ := if orientedRelation c = .eq then 0 else 1

/-- The number of artificial columns that a constraint takes. -/
def artificialUse (c : Constraint α) : ℕ := if orientedRelation c = .le then 0 else 1

/-- The row of a constraint, given its slack column and its artificial column. -/
def initialRow (width columns slack artificial : ℕ) (c : Constraint α) : BasicRow α :=
  let e := orientedEquation width columns c
  match orientedRelation c with
  | .le => { toEquation := e.setCoefficient slack 1, basic := slack }
  | .ge =>
    { toEquation := (e.setCoefficient slack (-1)).setCoefficient artificial 1, basic := artificial }
  | .eq => { toEquation := e.setCoefficient artificial 1, basic := artificial }

/-- The first constraint gives the first row and passes the next free columns on. -/
theorem initialRows_cons :
    initialRows width columns slack artificial (c :: rest) =
      initialRow width columns slack artificial c ::
        initialRows width columns (slack + slackUse c) (artificial + artificialUse c) rest := by
  rw [initialRows, initialRow, slackUse, artificialUse]
  cases orientedRelation c <;> rfl

/-- The first constraint takes the first slack columns. -/
theorem slackCount_cons : slackCount (c :: rest) = slackUse c + slackCount rest := by
  simp only [slackCount, slackUse, List.countP_cons]
  cases orientedRelation c <;> simp [Nat.add_comm]

/-- The first constraint takes the first artificial columns. -/
theorem artificialCount_cons :
    artificialCount (c :: rest) = artificialUse c + artificialCount rest := by
  simp only [artificialCount, artificialUse, List.countP_cons]
  cases orientedRelation c <;> simp [Nat.add_comm]

/-- There is room for the slack and artificial columns of the constraints. -/
structure Fits (width columns slack artificial : ℕ) (constraints : List (Constraint α)) : Prop where
  afterVariables : width ≤ slack
  afterSlacks : slack + slackCount constraints ≤ artificial
  inside : artificial + artificialCount constraints ≤ columns

/-- What the first constraint leaves has room for the others. -/
theorem Fits.tail (h : Fits width columns slack artificial (c :: rest)) :
    Fits width columns (slack + slackUse c) (artificial + artificialUse c) rest := by
  obtain ⟨hslack, hartificial, hcolumns⟩ := h
  rw [slackCount_cons] at hartificial
  rw [artificialCount_cons] at hcolumns
  exact ⟨by omega, by omega, by omega⟩

/-- An oriented constraint mentions variables only. -/
theorem coefficient_orientedEquation (columns : ℕ) (c : Constraint α) {j : ℕ} (hj : width ≤ j) :
    (orientedEquation width columns c).coefficient j = 0 :=
  coefficient_fit_of_le _ _ _ hj

/-- An oriented constraint is as wide as the workspace. -/
theorem length_orientedEquation (hwidth : width ≤ columns) (c : Constraint α) :
    (orientedEquation width columns c).coefficients.length = columns := by
  rw [orientedEquation, List.length_append, length_fit, List.length_replicate]
  omega

/-- The row of a constraint has an entry for every column. -/
theorem length_initialRow (hwidth : width ≤ columns) (slack artificial : ℕ) (c : Constraint α) :
    (initialRow width columns slack artificial c).coefficients.length = columns := by
  have hlength := length_orientedEquation hwidth c
  rw [initialRow]
  cases orientedRelation c <;> simpa using hlength

/-- The row of a constraint mentions variables and the columns that the constraint takes. -/
theorem initialRow_mentions {j : ℕ}
    (hj : (initialRow width columns slack artificial c).coefficient j ≠ 0) :
    j < width ∨ slack ≤ j ∧ j < slack + slackUse c ∨
      artificial ≤ j ∧ j < artificial + artificialUse c := by
  by_contra hother
  apply hj
  have hvariable : width ≤ j := by omega
  rw [initialRow]
  rw [slackUse, artificialUse] at hother
  cases hrelation : orientedRelation c with
  | le =>
    have hslack : slack ≠ j := by simp [hrelation] at hother; omega
    rw [Equation.coefficient_setCoefficient_of_ne _ _ hslack,
      coefficient_orientedEquation columns c hvariable]
  | ge =>
    have hslack : slack ≠ j := by simp [hrelation] at hother; omega
    have hartificial : artificial ≠ j := by simp [hrelation] at hother; omega
    rw [Equation.coefficient_setCoefficient_of_ne _ _ hartificial,
      Equation.coefficient_setCoefficient_of_ne _ _ hslack,
      coefficient_orientedEquation columns c hvariable]
  | eq =>
    have hartificial : artificial ≠ j := by simp [hrelation] at hother; omega
    rw [Equation.coefficient_setCoefficient_of_ne _ _ hartificial,
      coefficient_orientedEquation columns c hvariable]

/-- The basic column of the row of a constraint is one that the constraint takes. -/
theorem basic_initialRow (width columns slack artificial : ℕ) (c : Constraint α) :
    slack ≤ (initialRow width columns slack artificial c).basic ∧
        (initialRow width columns slack artificial c).basic < slack + slackUse c ∨
      artificial ≤ (initialRow width columns slack artificial c).basic ∧
        (initialRow width columns slack artificial c).basic < artificial + artificialUse c := by
  rw [initialRow, slackUse, artificialUse]
  cases orientedRelation c with
  | le => simp
  | ge => simp
  | eq => simp

/-- The row of a constraint is solved for its basic column. -/
theorem coefficient_initialRow_basic (h : Fits width columns slack artificial (c :: rest)) :
    (initialRow width columns slack artificial c).coefficient
      (initialRow width columns slack artificial c).basic = 1 := by
  obtain ⟨hvariables, hslacks, hinside⟩ := h
  rw [slackCount_cons] at hslacks
  rw [artificialCount_cons] at hinside
  have hlength := length_orientedEquation (show width ≤ columns by omega) c
  rw [initialRow]
  rw [slackUse] at hslacks
  rw [artificialUse] at hinside
  cases hrelation : orientedRelation c with
  | le =>
    simp only [hrelation] at hslacks
    exact Equation.coefficient_setCoefficient_self _ (by rw [hlength]; simp at hslacks; omega)
  | ge =>
    simp only [hrelation] at hinside
    exact Equation.coefficient_setCoefficient_self _
      (by rw [Equation.length_setCoefficient, hlength]; simp at hinside; omega)
  | eq =>
    simp only [hrelation] at hinside
    exact Equation.coefficient_setCoefficient_self _ (by rw [hlength]; simp at hinside; omega)

end Columns

variable {c : Constraint ℚ} {rest constraints : List (Constraint ℚ)}
  {width columns slack artificial : ℕ} {v : ℕ → ℚ}

/-! ## Equations with columns of zeros -/

/-- Fitting keeps the entries that it does not cut off. -/
theorem getD_fit (values : List ℚ) {j : ℕ} (hj : j < width) :
    (fit width values).getD j 0 = values.getD j 0 := by
  rw [fit]
  by_cases hin : j < values.length
  · rw [List.getD_append _ _ _ _ (by rw [List.length_take]; omega), List.getD_eq_getElem?_getD,
      List.getElem?_take_of_lt hj, List.getD_eq_getElem?_getD]
  · rw [List.getD_append_right _ _ _ _ (by rw [List.length_take]; omega),
      List.getD_eq_default values _ (not_lt.mp hin), List.getD_eq_getElem?_getD, List.getElem?_replicate]
    split <;> rfl

/-- Fitted coefficients, followed by zeros, add up to the dot product with the first columns. -/
theorem eval_fit (values : List ℚ) (count : ℕ) (rhs : ℚ) (v : ℕ → ℚ) :
    (⟨fit width values ++ List.replicate count 0, rhs⟩ : Equation ℚ).eval v =
      Scalar.dot values (valuesOf width v) := by
  rw [Equation.eval_append_zeros, Equation.eval,
    Scalar.dot_eq_sum _ _ width (.inr (length_valuesOf width v).le), length_fit]
  apply Finset.sum_congr rfl
  intro j hj
  have hj := Finset.mem_range.mp hj
  rw [Equation.coefficient, getD_fit values hj, getD_valuesOf v hj]

/-! ## The row of one constraint -/

/-- The factor that makes the right-hand side of a constraint not negative. -/
def orientation (c : Constraint ℚ) : ℚ := if c.rhs < 0 then -1 else 1

/-- Orientation keeps equations and turns only inequalities around. -/
theorem orientedRelation_eq_eq_iff : orientedRelation c = .eq ↔ c.relation = .eq := by
  rw [orientedRelation]
  split
  · cases c.relation <;> simp
  · rfl

/-- The left-hand side of an oriented constraint. -/
theorem eval_orientedEquation (width columns : ℕ) (c : Constraint ℚ) (v : ℕ → ℚ) :
    (orientedEquation width columns c).eval v =
      orientation c * Scalar.dot c.coefficients (valuesOf width v) := by
  rw [← Scalar.dot_map_mul]
  exact eval_fit _ _ _ v

/-- The right-hand side of the row of a constraint. -/
theorem rhs_initialRow (width columns slack artificial : ℕ) (c : Constraint ℚ) :
    (initialRow width columns slack artificial c).rhs = orientation c * c.rhs := by
  rw [initialRow]
  cases orientedRelation c <;> rfl

/-- The right-hand side of the row of a constraint is not negative. -/
theorem orientation_mul_rhs_nonneg (c : Constraint ℚ) : 0 ≤ orientation c * c.rhs := by
  rw [orientation]
  split
  · rename_i hneg
    linarith
  · rename_i hnonneg
    linarith [not_lt.mp hnonneg]

/-- The left-hand side of the row of a constraint: a slack, or a surplus and an artificial column,
beside the oriented constraint. -/
theorem eval_initialRow (h : Fits width columns slack artificial (c :: rest)) (v : ℕ → ℚ) :
    (initialRow width columns slack artificial c).eval v =
      orientation c * Scalar.dot c.coefficients (valuesOf width v) +
        match orientedRelation c with
        | .le => v slack
        | .ge => v artificial - v slack
        | .eq => v artificial := by
  obtain ⟨hvariables, hslacks, hinside⟩ := h
  rw [slackCount_cons] at hslacks
  rw [artificialCount_cons] at hinside
  have hlength := length_orientedEquation (show width ≤ columns by omega) c
  have hslackZero := coefficient_orientedEquation columns c hvariables
  have hartificialZero := coefficient_orientedEquation columns c (show width ≤ artificial by omega)
  rw [initialRow, ← eval_orientedEquation width columns]
  rw [slackUse] at hslacks
  rw [artificialUse] at hinside
  cases hrelation : orientedRelation c with
  | le =>
    simp [hrelation] at hslacks
    rw [Equation.eval_setCoefficient (by rw [hlength]; omega), hslackZero]
    ring
  | ge =>
    simp [hrelation] at hslacks hinside
    rw [Equation.eval_setCoefficient (by rw [Equation.length_setCoefficient, hlength]; omega),
      Equation.coefficient_setCoefficient_of_ne _ _ (by omega), hartificialZero,
      Equation.eval_setCoefficient (by rw [hlength]; omega), hslackZero]
    ring
  | eq =>
    simp [hrelation] at hinside
    rw [Equation.eval_setCoefficient (by rw [hlength]; omega), hartificialZero]
    ring

/-- Without its artificial column, the row of an equation holds if the equation does. -/
theorem holds_initialRow_equation (h : Fits width columns slack artificial (c :: rest))
    (hc : c.relation = .eq) (hzero : v artificial = 0) :
    (initialRow width columns slack artificial c).Holds v ↔ c.Satisfied (valuesOf width v) := by
  have hsign : orientation c ≠ 0 := by
    rw [orientation]
    split <;> norm_num
  rw [Equation.Holds, eval_initialRow h, rhs_initialRow,
    orientedRelation_eq_eq_iff.mpr hc, Constraint.Satisfied, hc, Relation.Relates]
  simp only [hzero, add_zero]
  exact mul_right_inj' hsign

/-- Without its artificial column, the row of an inequality holds if its slack column has the slack
that the point leaves. -/
theorem holds_initialRow_inequality (h : Fits width columns slack artificial (c :: rest))
    (hc : c.relation ≠ .eq) (hzero : v artificial = 0) :
    (initialRow width columns slack artificial c).Holds v ↔
      v slack = c.slack (valuesOf width v) := by
  rw [Equation.Holds, eval_initialRow h, rhs_initialRow, orientation, orientedRelation,
    Constraint.slack]
  cases hrelation : c.relation with
  | le =>
    by_cases hneg : c.rhs < 0
    · simp only [if_pos hneg, hzero]
      constructor <;> intro hv <;> linarith
    · simp only [if_neg hneg]
      constructor <;> intro hv <;> linarith
  | ge =>
    by_cases hneg : c.rhs < 0
    · simp only [if_pos hneg]
      constructor <;> intro hv <;> linarith
    · simp only [if_neg hneg, hzero]
      constructor <;> intro hv <;> linarith
  | eq => exact absurd hrelation hc

end WarmSimplex.TwoPhase
