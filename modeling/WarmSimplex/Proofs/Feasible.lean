import WarmSimplex.Proofs.Equation
import WarmSimplex.Program.Violation

/-!
# Feasible points

What a linear program asks for in exact arithmetic: points that satisfy every constraint, and among
them one with the best objective. The report on violations is empty for exactly the points that are
feasible up to the tolerance.

A program may also have no feasible point, or feasible points with an arbitrarily good objective.
That it always is in one of these three situations is not shown here.
-/

namespace WarmSimplex

/-- The values of the first columns. -/
def valuesOf (width : ℕ) (v : ℕ → ℚ) : List ℚ := (List.range width).map v

/-- As many values as asked for are read. -/
theorem length_valuesOf (width : ℕ) (v : ℕ → ℚ) : (valuesOf width v).length = width := by
  simp [valuesOf]

/-- The value of a column that was read. -/
theorem getD_valuesOf {width : ℕ} (v : ℕ → ℚ) {j : ℕ} (hj : j < width) :
    (valuesOf width v).getD j 0 = v j := by
  rw [valuesOf, List.getD_eq_getElem _ _ (by simpa using hj)]
  simp

/-- Only the first columns have a coefficient other than zero. -/
def OverFirst (width : ℕ) (coefficients : List ℚ) : Prop := ∀ a ∈ coefficients.drop width, a = 0

namespace OverFirst

variable {width : ℕ} {coefficients : List ℚ}

/-- A list that is no longer than the columns mentions no other ones. -/
theorem of_length_le (h : coefficients.length ≤ width) : OverFirst width coefficients := by
  simp [OverFirst, List.drop_eq_nil_of_le h]

/-- A column is without a coefficient or is one of the first ones. -/
theorem eq_zero_or_lt (h : OverFirst width coefficients) (j : ℕ) :
    coefficients.getD j 0 = 0 ∨ j < width := by
  refine or_iff_not_imp_right.mpr fun hj => ?_
  obtain ⟨k, rfl⟩ := Nat.exists_eq_add_of_le (not_lt.mp hj)
  rw [List.getD_eq_getElem?_getD, ← List.getElem?_drop]
  cases hk : (coefficients.drop width)[k]? with
  | none => rfl
  | some a => exact h a (List.mem_of_getElem? hk)

/-- A factor keeps zeros. -/
theorem map_mul (h : OverFirst width coefficients) (factor : ℚ) :
    OverFirst width (coefficients.map (factor * ·)) := by
  rw [OverFirst, ← List.map_drop, List.forall_mem_map]
  intro a ha
  rw [h a ha, mul_zero]

end OverFirst

/-- Entries that are not negative are not negative at any index. -/
theorem getD_nonneg {values : List ℚ} (hvalues : ∀ a ∈ values, 0 ≤ a) (j : ℕ) :
    0 ≤ values.getD j 0 := by
  by_cases hj : j < values.length
  · rw [List.getD_eq_getElem _ _ hj]
    exact hvalues _ (List.getElem_mem hj)
  · rw [List.getD_eq_default _ _ (not_lt.mp hj)]

/-- The two sides of a constraint compare as the relation says. -/
def Relation.Relates : Relation → ℚ → ℚ → Prop
  | .le, lhs, rhs => lhs ≤ rhs
  | .ge, lhs, rhs => rhs ≤ lhs
  | .eq, lhs, rhs => lhs = rhs

namespace Constraint

/-- The point meets the constraint. -/
def Satisfied (c : Constraint ℚ) (x : List ℚ) : Prop :=
  c.relation.Relates (Scalar.dot c.coefficients x) c.rhs

/-- The point meets the constraint if its right-hand side may move by the tolerance. -/
def SatisfiedWithin (c : Constraint ℚ) (tolerance : ℚ) (x : List ℚ) : Prop :=
  match c.relation with
  | .le => Scalar.dot c.coefficients x ≤ c.rhs + tolerance
  | .ge => c.rhs - tolerance ≤ Scalar.dot c.coefficients x
  | .eq => |Scalar.dot c.coefficients x - c.rhs| ≤ tolerance

/-- The room that a point leaves below a maximum or above a minimum. An equation leaves none. -/
def slack (c : Constraint ℚ) (x : List ℚ) : ℚ :=
  match c.relation with
  | .le => c.rhs - Scalar.dot c.coefficients x
  | .ge => Scalar.dot c.coefficients x - c.rhs
  | .eq => 0

/-- Without a tolerance the constraint itself is left. -/
theorem satisfiedWithin_zero_iff {c : Constraint ℚ} {x : List ℚ} :
    c.SatisfiedWithin 0 x ↔ c.Satisfied x := by
  rw [SatisfiedWithin, Satisfied]
  cases c.relation with
  | le => simp [Relation.Relates]
  | ge => simp [Relation.Relates]
  | eq => simp [Relation.Relates, sub_eq_zero]

/-- An inequality is met if its slack is not negative. -/
theorem satisfied_iff_slack_nonneg {c : Constraint ℚ} (hc : c.relation ≠ .eq) {x : List ℚ} :
    c.Satisfied x ↔ 0 ≤ c.slack x := by
  obtain ⟨name, coefficients, relation, rhs⟩ := c
  cases relation with
  | le => simp [Satisfied, Relation.Relates, slack]
  | ge => simp [Satisfied, Relation.Relates, slack]
  | eq => exact absurd rfl hc

/-- A constraint has no violation if it is met up to the tolerance. -/
theorem violation?_eq_none_iff {c : Constraint ℚ} {x : List ℚ} {tolerance : ℚ} :
    c.violation? x tolerance = none ↔ c.SatisfiedWithin tolerance x := by
  rw [violation?, SatisfiedWithin]
  cases c.relation with
  | le => simp
  | ge => simp
  | eq => simp [Scalar.abs_rat]

end Constraint

/-- A variable has no violation if it is not below zero by more than the tolerance. -/
theorem signViolation?_eq_none_iff {tolerance value : ℚ} {name : String} :
    signViolation? tolerance name value = none ↔ -tolerance ≤ value := by
  simp [signViolation?]

/-- The sign of a sense is its own inverse. -/
theorem Sense.sign_mul_sign (s : Sense) : (s.sign : ℚ) * s.sign = 1 := by
  cases s <;> simp [Sense.sign]

namespace LinearProgram

variable {p : LinearProgram ℚ} {x : List ℚ}

/-- A value for each variable, none negative, that satisfies every constraint. -/
structure Feasible (p : LinearProgram ℚ) (x : List ℚ) : Prop where
  length : x.length = p.variableCount
  nonneg : ∀ a ∈ x, 0 ≤ a
  satisfied : ∀ c ∈ p.constraints, c.Satisfied x

/-- The objective at a point, turned into one to maximize. -/
def gain (p : LinearProgram ℚ) (x : List ℚ) : ℚ := p.objective.sense.sign * p.evaluate x

/-- A feasible point that no other one beats. -/
structure IsOptimal (p : LinearProgram ℚ) (x : List ℚ) : Prop where
  feasible : p.Feasible x
  best : ∀ y, p.Feasible y → p.gain y ≤ p.gain x

/-- No point is feasible. -/
def IsInfeasible (p : LinearProgram ℚ) : Prop := ∀ x, ¬p.Feasible x

/-- There are feasible points, with an arbitrarily good objective. -/
structure IsUnbounded (p : LinearProgram ℚ) : Prop where
  feasible : ∃ x, p.Feasible x
  unbounded : ∀ bound : ℚ, ∃ x, p.Feasible x ∧ bound < p.gain x

/-- The objective in the program's own sense, from the one to maximize. -/
theorem evaluate_eq_sign_mul_gain (p : LinearProgram ℚ) (x : List ℚ) :
    p.evaluate x = p.objective.sense.sign * p.gain x := by
  rw [gain, ← mul_assoc, Sense.sign_mul_sign, one_mul]

/-- A point has no violations exactly if it is feasible up to the tolerance. -/
theorem violations_eq_nil_iff (hlength : x.length = p.variableCount) (tolerance : ℚ) :
    p.violations x tolerance = [] ↔
      (∀ c ∈ p.constraints, c.SatisfiedWithin tolerance x) ∧ ∀ a ∈ x, -tolerance ≤ a := by
  have hnames : p.variableNames.length = x.length := hlength.symm
  have hzip : (∀ pair ∈ p.variableNames.zip x, -tolerance ≤ pair.2) ↔ ∀ a ∈ x, -tolerance ≤ a := by
    rw [← List.forall_mem_map (f := Prod.snd) (P := fun a => -tolerance ≤ a),
      List.map_snd_zip hnames.ge]
  rw [violations, ← List.length_eq_zero_iff, List.length_mergeSort, List.length_eq_zero_iff,
    unsortedViolations, List.append_eq_nil_iff, List.filterMap_eq_nil_iff,
    List.filterMap_eq_nil_iff]
  simp only [Constraint.violation?_eq_none_iff, signViolation?_eq_none_iff, hzip]

/-- A feasible point has no violations. -/
theorem Feasible.violations_eq_nil (hx : p.Feasible x) : p.violations x 0 = [] := by
  refine (violations_eq_nil_iff hx.length 0).mpr ⟨fun c hc => ?_, fun a ha => ?_⟩
  · exact Constraint.satisfiedWithin_zero_iff.mpr (hx.satisfied c hc)
  · rw [neg_zero]
    exact hx.nonneg a ha

/-- Two optimal points have the same objective. -/
theorem IsOptimal.evaluate_eq {y : List ℚ} (hx : p.IsOptimal x) (hy : p.IsOptimal y) :
    p.evaluate x = p.evaluate y := by
  have hgain : p.gain x = p.gain y := le_antisymm (hy.best x hx.feasible) (hx.best y hy.feasible)
  rw [evaluate_eq_sign_mul_gain, evaluate_eq_sign_mul_gain, hgain]

/-- An optimum bounds the objective. -/
theorem IsOptimal.not_isUnbounded (hx : p.IsOptimal x) : ¬p.IsUnbounded := by
  intro hunbounded
  obtain ⟨y, hy, hbound⟩ := hunbounded.unbounded (p.gain x)
  exact absurd (hx.best y hy) (not_le.mpr hbound)

end LinearProgram

end WarmSimplex
