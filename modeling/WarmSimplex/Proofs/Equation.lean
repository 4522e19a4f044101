import Mathlib.Algebra.BigOperators.Group.Finset.Basic
import Mathlib.Algebra.BigOperators.Ring.Finset
import Mathlib.Algebra.Order.BigOperators.Group.Finset
import Mathlib.Algebra.Order.Field.Rat
import Mathlib.Data.List.GetD
import Mathlib.Tactic.FieldSimp
import Mathlib.Tactic.Linarith
import Mathlib.Tactic.Ring
import WarmSimplex.Equation

/-!
# Equations in exact arithmetic

Over the rationals an equation is a condition on points, where a point gives every column a value.
The distance of its two sides at a point is linear in the equation, so elimination acts on it in
the obvious way. For a row the distance says whether the row holds; for an objective row it is the
objective at the point.

The exact zeros and ones that elimination writes are already there in exact arithmetic. Nothing
here says what rounding does.
-/

namespace WarmSimplex

namespace Scalar

/-- The magnitude of a rational is its absolute value. -/
theorem abs_rat (a : ℚ) : Scalar.abs a = |a| := by
  simp only [Scalar.abs]
  split
  · rename_i h
    exact (abs_of_neg h).symm
  · rename_i h
    exact (abs_of_nonneg (not_lt.mp h)).symm

/-- The larger of two rationals is their maximum. -/
theorem larger_rat (a b : ℚ) : Scalar.larger a b = max a b := by
  simp [Scalar.larger, Scalar.isNaN, max_def_lt]

/-- The smaller of two rationals is their minimum. -/
theorem smaller_rat (a b : ℚ) : Scalar.smaller a b = min a b := by
  rw [min_comm]
  simp [Scalar.smaller, Scalar.isNaN, min_def_lt]

/-- Adding up products from an accumulator, over any range that covers the shorter list. -/
theorem foldl_products (accumulator : ℚ) (coefficients values : List ℚ) (n : ℕ)
    (hn : coefficients.length ≤ n ∨ values.length ≤ n) :
    (List.zipWith (· * ·) coefficients values).foldl (· + ·) accumulator =
      accumulator + ∑ j ∈ Finset.range n, coefficients.getD j 0 * values.getD j 0 := by
  induction coefficients generalizing accumulator values n with
  | nil => simp
  | cons a coefficients ih =>
    cases values with
    | nil => simp
    | cons x values =>
      cases n with
      | zero => simp at hn
      | succ n =>
        simp only [List.length_cons, Nat.add_le_add_iff_right] at hn
        rw [List.zipWith_cons_cons, List.foldl_cons, ih _ _ n hn, Finset.sum_range_succ']
        simp only [List.getD_cons_succ, List.getD_cons_zero]
        ring

/-- The dot product is a sum over any range that covers the shorter list. -/
theorem dot_eq_sum (coefficients values : List ℚ) (n : ℕ)
    (hn : coefficients.length ≤ n ∨ values.length ≤ n) :
    Scalar.dot coefficients values =
      ∑ j ∈ Finset.range n, coefficients.getD j 0 * values.getD j 0 := by
  rw [Scalar.dot, foldl_products _ _ _ n hn]
  simp

/-- The entries of a list that was multiplied by a number. -/
theorem getD_map_mul (factor : ℚ) (values : List ℚ) (j : ℕ) :
    (values.map (factor * ·)).getD j 0 = factor * values.getD j 0 := by
  simp only [List.getD_eq_getElem?_getD, List.getElem?_map]
  cases values[j]? <;> simp

/-- A factor of all coefficients is one of the dot product. -/
theorem dot_map_mul (factor : ℚ) (coefficients values : List ℚ) :
    Scalar.dot (coefficients.map (factor * ·)) values = factor * Scalar.dot coefficients values := by
  rw [dot_eq_sum _ _ coefficients.length (.inl (List.length_map _).le),
    dot_eq_sum _ _ coefficients.length (.inl le_rfl), Finset.mul_sum]
  apply Finset.sum_congr rfl
  intro j _
  rw [getD_map_mul, mul_assoc]

end Scalar

namespace Equation

variable {e target : Equation ℚ}

/-! ## Coefficients -/

/-- Past the last column every coefficient is zero. -/
theorem coefficient_eq_zero_of_le {α : Type} [Scalar α] {e : Equation α} {column : ℕ}
    (h : e.coefficients.length ≤ column) : e.coefficient column = 0 := by
  rw [coefficient, List.getD_eq_default _ _ h]

/-- The entry of a column that is there. -/
theorem getElem?_entries {α : Type} [Scalar α] {e : Equation α} {column : ℕ}
    (h : column < e.coefficients.length) : e.entries[column]? = some (e.coefficient column) := by
  rw [entries, List.getElem?_append_left h, coefficient, List.getD_eq_getElem _ _ h,
    List.getElem?_eq_getElem h]

/-- All coefficients are at or above a bound that is not positive if they are so at every column. -/
theorem forall_le_coefficients {bound : ℚ} (hbound : bound ≤ 0) :
    (∀ a ∈ e.coefficients, bound ≤ a) ↔ ∀ j, bound ≤ e.coefficient j := by
  constructor
  · intro h j
    by_cases hj : j < e.coefficients.length
    · rw [coefficient, List.getD_eq_getElem _ _ hj]
      exact h _ (List.getElem_mem hj)
    · exact hbound.trans (coefficient_eq_zero_of_le (not_lt.mp hj)).ge
  · intro h a ha
    obtain ⟨j, hj, rfl⟩ := List.getElem_of_mem ha
    have hentry := h j
    rwa [coefficient, List.getD_eq_getElem _ _ hj] at hentry

/-- All coefficients are at or above zero if they are so at every column. -/
theorem forall_coefficients_nonneg : (∀ a ∈ e.coefficients, 0 ≤ a) ↔ ∀ j, 0 ≤ e.coefficient j :=
  forall_le_coefficients le_rfl

/-- The entries of an equation below a bound are its coefficients below it, if the bound is not above
zero. -/
theorem exists_getElem?_lt_iff {bound : ℚ} (hbound : bound ≤ 0) {P : ℚ → Prop} {j : ℕ} :
    (∃ a, e.coefficients[j]? = some a ∧ a < bound ∧ P a) ↔
      e.coefficient j < bound ∧ P (e.coefficient j) := by
  have hread : ∀ a, e.coefficients[j]? = some a → e.coefficient j = a := by
    intro a ha
    rw [coefficient, List.getD_eq_getElem?_getD, ha, Option.getD_some]
  constructor
  · rintro ⟨a, ha, hlow, hP⟩
    rw [hread a ha]
    exact ⟨hlow, hP⟩
  · rintro ⟨hlow, hP⟩
    have hinside : j < e.coefficients.length := by
      by_contra hout
      rw [coefficient_eq_zero_of_le (not_lt.mp hout)] at hlow
      exact absurd hbound (not_le.mpr hlow)
    have hentry := List.getElem?_eq_getElem hinside
    rw [← hread _ hentry] at hentry
    exact ⟨_, hentry, hlow, hP⟩

/-- Equations of one width are equal if all their entries are. -/
theorem ext_coefficient (hwidth : e.coefficients.length = target.coefficients.length)
    (hcoefficient : ∀ column, e.coefficient column = target.coefficient column)
    (hrhs : e.rhs = target.rhs) : e = target := by
  have hlist : e.coefficients = target.coefficients := by
    apply List.ext_getElem hwidth
    intro j hj hj'
    have hcolumn := hcoefficient j
    rwa [coefficient, coefficient, List.getD_eq_getElem _ _ hj,
      List.getD_eq_getElem _ _ hj'] at hcolumn
  cases e
  cases target
  simp_all

/-- The coefficients of a quotient. -/
theorem coefficient_divide_of_lt {α : Type} [Scalar α] {e : Equation α} (divisor : α) {column : ℕ}
    (h : column < e.coefficients.length) :
    (e.divide divisor).coefficient column = e.coefficient column / divisor := by
  simp only [coefficient, divide, List.getD_eq_getElem?_getD, List.getElem?_map,
    List.getElem?_eq_getElem h, Option.map_some, Option.getD_some]

/-- The coefficients of a difference of equations of one width. -/
theorem coefficient_subtractMultiple_of_lt {α : Type} [Scalar α] {target e : Equation α} (factor : α)
    (hwidth : e.coefficients.length = target.coefficients.length) {column : ℕ}
    (h : column < target.coefficients.length) :
    (target.subtractMultiple factor e).coefficient column =
      target.coefficient column - factor * e.coefficient column := by
  simp only [coefficient, subtractMultiple, List.getD_eq_getElem?_getD, List.getElem?_zipWith,
    List.getElem?_eq_getElem h, List.getElem?_eq_getElem (hwidth ▸ h), Option.getD_some]

/-- Division acts on every coefficient. -/
@[simp] theorem coefficient_divide (e : Equation ℚ) (divisor : ℚ) (column : ℕ) :
    (e.divide divisor).coefficient column = e.coefficient column / divisor := by
  simp only [coefficient, divide, List.getD_eq_getElem?_getD, List.getElem?_map]
  cases e.coefficients[column]? <;> simp

/-- A difference of equations of one width has the differences as coefficients. -/
theorem coefficient_subtractMultiple (factor : ℚ)
    (h : e.coefficients.length = target.coefficients.length) (column : ℕ) :
    (target.subtractMultiple factor e).coefficient column =
      target.coefficient column - factor * e.coefficient column := by
  by_cases hj : column < target.coefficients.length
  · exact coefficient_subtractMultiple_of_lt factor h hj
  · simp only [coefficient, subtractMultiple, List.getD_eq_getElem?_getD, List.getElem?_zipWith]
    rw [List.getElem?_eq_none (not_lt.mp hj), List.getElem?_eq_none (h ▸ not_lt.mp hj)]
    simp

/-- A new column comes after the old ones. -/
theorem coefficient_addColumn (e : Equation ℚ) (value : ℚ) (column : ℕ) :
    (e.addColumn value).coefficient column =
      if column = e.coefficients.length then value else e.coefficient column := by
  simp only [coefficient, addColumn, List.getD_eq_getElem?_getD]
  rcases lt_trichotomy column e.coefficients.length with hj | hj | hj
  · rw [List.getElem?_append_left hj, if_neg hj.ne]
  · simp [hj]
  · rw [List.getElem?_eq_none (by rw [List.length_append]; exact hj), List.getElem?_eq_none hj.le,
      if_neg hj.ne']

/-- The zero equation mentions no column. -/
@[simp] theorem coefficient_zero (columns column : ℕ) :
    (zero columns : Equation ℚ).coefficient column = 0 := by
  by_cases h : column < columns
  · rw [coefficient, List.getD_eq_getElem _ _ (by simpa using h)]
    simp [zero]
  · exact coefficient_eq_zero_of_le (by simpa using h)

/-- The coefficients of an equation whose columns come in two blocks. -/
theorem coefficient_append {α : Type} [Scalar α] (first second : List α) (rhs : α) (column : ℕ) :
    (⟨first ++ second, rhs⟩ : Equation α).coefficient column =
      if column < first.length then first.getD column 0
      else second.getD (column - first.length) 0 := by
  simp only [coefficient]
  split
  · rename_i h
    rw [List.getD_append _ _ _ _ h]
  · rename_i h
    rw [List.getD_append_right _ _ _ _ (not_lt.mp h)]

/-- Subtracting nothing of an equation of the same width changes nothing. -/
theorem subtractMultiple_zero (hwidth : e.coefficients.length = target.coefficients.length) :
    target.subtractMultiple 0 e = target := by
  refine ext_coefficient (by simp [hwidth]) (fun j => ?_) (by simp [subtractMultiple])
  rw [coefficient_subtractMultiple _ hwidth, zero_mul, sub_zero]

/-- An elimination leaves an equation that does not mention the column. -/
theorem eliminate_of_zero {column : ℕ} (hzero : target.coefficient column = 0) :
    target.eliminate e column = target := by
  simp only [eliminate, hzero, beq_self_eq_true, if_true]

/-- The coefficients after an elimination. -/
theorem coefficient_eliminate (hwidth : e.coefficients.length = target.coefficients.length)
    (column j : ℕ) : (target.eliminate e column).coefficient j =
      if j = column then 0
      else target.coefficient j - target.coefficient column * e.coefficient j := by
  have hlength : (target.subtractMultiple (target.coefficient column) e).coefficients.length =
      target.coefficients.length := by simp [hwidth]
  simp only [eliminate]
  split
  · rename_i hfactor
    rw [beq_iff_eq.mp hfactor, zero_mul, sub_zero]
    split
    · rename_i hj
      rw [hj, beq_iff_eq.mp hfactor]
    · rfl
  · rename_i hfactor
    have hin : column < target.coefficients.length := by
      by_contra hout
      exact hfactor (beq_iff_eq.mpr (coefficient_eq_zero_of_le (not_lt.mp hout)))
    split
    · rename_i hj
      rw [hj, coefficient_setCoefficient_self _ (by rwa [hlength])]
    · rename_i hj
      rw [coefficient_setCoefficient_of_ne _ _ (Ne.symm hj), coefficient_subtractMultiple _ hwidth]

/-- The right-hand side after an elimination. -/
theorem rhs_eliminate (target e : Equation ℚ) (column : ℕ) :
    (target.eliminate e column).rhs = target.rhs - target.coefficient column * e.rhs := by
  simp only [eliminate]
  split
  · rename_i hfactor
    rw [beq_iff_eq.mp hfactor, zero_mul, sub_zero]
  · rfl

/-- The entry that an elimination sets to zero is zero already. -/
theorem eliminate_eq_subtractMultiple {column : ℕ}
    (hwidth : e.coefficients.length = target.coefficients.length)
    (hone : e.coefficient column = 1) :
    target.eliminate e column = target.subtractMultiple (target.coefficient column) e := by
  refine ext_coefficient ?_ (fun j => ?_) (rhs_eliminate target e column)
  · rw [length_eliminate column hwidth, length_subtractMultiple, hwidth, min_self]
  · rw [coefficient_eliminate hwidth, coefficient_subtractMultiple _ hwidth]
    split
    · rename_i hj
      rw [hj, hone, mul_one, sub_self]
    · rfl

/-- The entry that a normalization sets to one is one already. -/
theorem normalize_eq_divide {column : ℕ} (hpivot : e.coefficient column ≠ 0) :
    e.normalize column = e.divide (e.coefficient column) := by
  have hin : column < e.coefficients.length := by
    by_contra hout
    exact hpivot (coefficient_eq_zero_of_le (not_lt.mp hout))
  refine ext_coefficient (by simp) (fun j => ?_) rfl
  by_cases hj : column = j
  · rw [← hj, coefficient_normalize_self hin, coefficient_divide, div_self hpivot]
  · rw [normalize, coefficient_setCoefficient_of_ne _ _ hj]

/-! ## Points -/

/-- The left-hand side at a point. -/
def eval (e : Equation ℚ) (v : ℕ → ℚ) : ℚ :=
  ∑ j ∈ Finset.range e.coefficients.length, e.coefficient j * v j

/-- The right-hand side less the left-hand side at a point. Of an objective row this is the
objective at the point. -/
def gap (e : Equation ℚ) (v : ℕ → ℚ) : ℚ := e.rhs - e.eval v

/-- The point meets the equation. -/
def Holds (e : Equation ℚ) (v : ℕ → ℚ) : Prop := e.eval v = e.rhs

/-- An equation holds if its sides have no distance. -/
theorem holds_iff_gap_eq_zero {v : ℕ → ℚ} : e.Holds v ↔ e.gap v = 0 := by
  rw [Holds, gap, sub_eq_zero, eq_comm]

/-- A point that agrees with a list of values on the columns that are mentioned makes the left-hand
side a dot product. -/
theorem eval_eq_dot {v : ℕ → ℚ} {values : List ℚ}
    (hv : ∀ j, e.coefficient j = 0 ∨ v j = values.getD j 0) :
    e.eval v = Scalar.dot e.coefficients values := by
  rw [Scalar.dot_eq_sum _ _ _ (.inl le_rfl), eval]
  apply Finset.sum_congr rfl
  intro j _
  obtain hzero | hsame := hv j
  · rw [← coefficient, hzero, zero_mul, zero_mul]
  · rw [hsame, coefficient]

/-- Coefficients that are not below a bound keep the left-hand side from falling further. -/
theorem mul_sum_le_eval {bound : ℚ} {v : ℕ → ℚ} (hbound : ∀ a ∈ e.coefficients, bound ≤ a)
    (hv : ∀ j < e.coefficients.length, 0 ≤ v j) :
    bound * ∑ j ∈ Finset.range e.coefficients.length, v j ≤ e.eval v := by
  rw [eval, Finset.mul_sum]
  apply Finset.sum_le_sum
  intro j hj
  have hcoefficient : bound ≤ e.coefficient j := by
    rw [coefficient, List.getD_eq_getElem _ _ (Finset.mem_range.mp hj)]
    exact hbound _ (List.getElem_mem _)
  exact mul_le_mul_of_nonneg_right hcoefficient (hv j (Finset.mem_range.mp hj))

/-- The zero equation has a left-hand side of zero. -/
@[simp] theorem eval_zero (columns : ℕ) (v : ℕ → ℚ) : (zero columns : Equation ℚ).eval v = 0 := by
  simp [eval]

/-- The left-hand side at a difference of points is the difference of the left-hand sides. -/
theorem eval_sub (e : Equation ℚ) (v w : ℕ → ℚ) : e.eval (v - w) = e.eval v - e.eval w := by
  simp only [eval, Pi.sub_apply, mul_sub, Finset.sum_sub_distrib]

/-- The left-hand side at a point with a single entry is the term of its column. -/
theorem eval_single (e : Equation ℚ) (column : ℕ) (value : ℚ) :
    e.eval (Pi.single column value) = e.coefficient column * value := by
  by_cases hin : column < e.coefficients.length
  · rw [eval, Finset.sum_eq_single_of_mem column (Finset.mem_range.mpr hin), Pi.single_eq_same]
    intro j _ hne
    rw [Pi.single_eq_of_ne hne, mul_zero]
  · rw [coefficient_eq_zero_of_le (not_lt.mp hin), zero_mul, eval]
    apply Finset.sum_eq_zero
    intro j hj
    have hne : j ≠ column := fun heq => hin (heq ▸ Finset.mem_range.mp hj)
    rw [Pi.single_eq_of_ne hne, mul_zero]

/-- At a point that is zero on the first columns, the left-hand side is a sum over the others. -/
theorem eval_of_zero_below {first rest : ℕ} (hwidth : e.coefficients.length ≤ first + rest)
    {v : ℕ → ℚ} (hv : ∀ j < first, v j = 0) :
    e.eval v = ∑ k ∈ Finset.range rest, e.coefficient (first + k) * v (first + k) := by
  have hall : e.eval v = ∑ j ∈ Finset.range (first + rest), e.coefficient j * v j := by
    apply Finset.sum_subset (Finset.range_mono hwidth)
    intro j _ hj
    rw [coefficient_eq_zero_of_le (not_lt.mp (mt Finset.mem_range.mpr hj)), zero_mul]
  have hfirst : ∑ j ∈ Finset.range first, e.coefficient j * v j = 0 := by
    apply Finset.sum_eq_zero
    intro j hj
    rw [hv j (Finset.mem_range.mp hj), mul_zero]
  rw [hall, Finset.sum_range_add, hfirst, zero_add]

/-- Division acts on the distance of the sides. -/
theorem gap_divide (e : Equation ℚ) (divisor : ℚ) (v : ℕ → ℚ) :
    (e.divide divisor).gap v = e.gap v / divisor := by
  have heval : (e.divide divisor).eval v = e.eval v / divisor := by
    simp only [eval, length_divide, coefficient_divide, div_eq_mul_inv, Finset.sum_mul]
    exact Finset.sum_congr rfl fun j _ => by ring
  rw [gap, gap, heval, sub_div]
  rfl

/-- The distance of the sides of a difference is the difference of the distances. -/
theorem gap_subtractMultiple (factor : ℚ)
    (h : e.coefficients.length = target.coefficients.length) (v : ℕ → ℚ) :
    (target.subtractMultiple factor e).gap v = target.gap v - factor * e.gap v := by
  have heval : (target.subtractMultiple factor e).eval v = target.eval v - factor * e.eval v := by
    simp only [eval, length_subtractMultiple, h, min_self, coefficient_subtractMultiple factor h,
      Finset.mul_sum, ← Finset.sum_sub_distrib]
    exact Finset.sum_congr rfl fun j _ => by ring
  have hrhs : (target.subtractMultiple factor e).rhs = target.rhs - factor * e.rhs := rfl
  rw [gap, gap, gap, heval, hrhs]
  ring

/-- A new column adds its own term. -/
theorem eval_addColumn (e : Equation ℚ) (value : ℚ) (v : ℕ → ℚ) :
    (e.addColumn value).eval v = e.eval v + value * v e.coefficients.length := by
  simp only [eval, length_addColumn, Finset.sum_range_succ, coefficient_addColumn, if_pos]
  congr 1
  apply Finset.sum_congr rfl
  intro j hj
  rw [if_neg (Finset.mem_range.mp hj).ne]

/-- Two blocks of columns add up. -/
theorem eval_append (first second : List ℚ) (rhs : ℚ) (v : ℕ → ℚ) :
    (⟨first ++ second, rhs⟩ : Equation ℚ).eval v =
      (⟨first, rhs⟩ : Equation ℚ).eval v +
        ∑ k ∈ Finset.range second.length, second.getD k 0 * v (first.length + k) := by
  simp only [eval, List.length_append, Finset.sum_range_add, coefficient_append]
  congr 1
  · apply Finset.sum_congr rfl
    intro j hj
    rw [if_pos (Finset.mem_range.mp hj), coefficient]
  · apply Finset.sum_congr rfl
    intro k _
    rw [if_neg (by omega), Nat.add_sub_cancel_left]

/-- Columns without a coefficient may be left out. -/
theorem eval_append_zeros (coefficients : List ℚ) (count : ℕ) (rhs : ℚ) (v : ℕ → ℚ) :
    (⟨coefficients ++ List.replicate count 0, rhs⟩ : Equation ℚ).eval v =
      (⟨coefficients, rhs⟩ : Equation ℚ).eval v := by
  rw [eval_append]
  have hzeros : ∑ k ∈ Finset.range (List.replicate count (0 : ℚ)).length,
      (List.replicate count (0 : ℚ)).getD k 0 * v (coefficients.length + k) = 0 := by
    apply Finset.sum_eq_zero
    intro k hk
    rw [List.getD_eq_getElem _ _ (Finset.mem_range.mp hk), List.getElem_replicate, zero_mul]
  rw [hzeros, add_zero]

/-- Replacing a coefficient changes the term of its column. -/
theorem eval_setCoefficient {column : ℕ} (h : column < e.coefficients.length) (value : ℚ)
    (v : ℕ → ℚ) :
    (e.setCoefficient column value).eval v =
      e.eval v + (value - e.coefficient column) * v column := by
  have hmem : column ∈ Finset.range e.coefficients.length := Finset.mem_range.mpr h
  simp only [eval, length_setCoefficient]
  rw [← Finset.add_sum_erase _ _ hmem, ← Finset.add_sum_erase _ _ hmem,
    coefficient_setCoefficient_self value h]
  have hrest : ∑ j ∈ (Finset.range e.coefficients.length).erase column,
      (e.setCoefficient column value).coefficient j * v j =
        ∑ j ∈ (Finset.range e.coefficients.length).erase column, e.coefficient j * v j := by
    apply Finset.sum_congr rfl
    intro j hj
    rw [coefficient_setCoefficient_of_ne _ _ (Finset.ne_of_mem_erase hj).symm]
  rw [hrest]
  ring

end Equation

end WarmSimplex
