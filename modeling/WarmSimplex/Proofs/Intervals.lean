import Mathlib.Algebra.Order.Field.Basic
import WarmSimplex.Proofs.Equation
import WarmSimplex.Solution.Sensitivity

/-!
# Intervals of changes

A sensitivity range is built by one condition after the other: each keeps one number from falling below
zero. The interval then has exactly those changes in it that meet all conditions, whether its bounds are
finite or not.

The rates count as they are here. With a tolerance, small rates would bound nothing.
-/

namespace WarmSimplex

namespace Interval

/-- The number is within the bounds that there are. -/
def Contains (i : Interval ℚ) (a : ℚ) : Prop :=
  (∀ l ∈ i.lower, l ≤ a) ∧ ∀ u ∈ i.upper, a ≤ u

variable {i : Interval ℚ} {a b x : ℚ}

/-- Nothing is outside the interval without bounds. -/
@[simp] theorem contains_all : (all : Interval ℚ).Contains a := by
  simp [Contains, all]

/-- A raised lower bound is a further condition. -/
theorem contains_atLeast : (i.atLeast b).Contains a ↔ i.Contains a ∧ b ≤ a := by
  obtain ⟨lower, upper⟩ := i
  cases lower with
  | none => simp [Contains, atLeast, Scalar.isNaN, and_comm]
  | some l => simp [Contains, atLeast, Scalar.isNaN, Scalar.larger_rat, and_right_comm]

/-- A reduced upper bound is a further condition. -/
theorem contains_atMost : (i.atMost b).Contains a ↔ i.Contains a ∧ a ≤ b := by
  obtain ⟨lower, upper⟩ := i
  cases upper with
  | none => simp [Contains, atMost, Scalar.isNaN]
  | some u => simp [Contains, atMost, Scalar.isNaN, Scalar.smaller_rat, and_assoc]

/-- Without a tolerance, the changes that are kept are those for which the number stays at or above zero. -/
theorem contains_keepNonNegative {number : ℚ} (hnumber : 0 ≤ number) (rate : ℚ) :
    (i.keepNonNegative 0 number rate).Contains x ↔ i.Contains x ∧ 0 ≤ number + x * rate := by
  rw [keepNonNegative, neg_zero]
  split
  · rename_i hrise
    rw [contains_atLeast, div_le_iff₀ hrise, neg_le_iff_add_nonneg']
  · split
    · rename_i hfall
      rw [contains_atMost, le_div_iff_of_neg hfall, neg_le_iff_add_nonneg']
    · rename_i hrise hfall
      have hrate : rate = 0 := le_antisymm (not_lt.mp hrise) (not_lt.mp hfall)
      simp [hrate, hnumber]

/-- Conditions that are added one after the other all count. -/
theorem contains_foldl {β : Type} {step : Interval ℚ → β → Interval ℚ} {P : β → Prop}
    {entries : List β}
    (hstep : ∀ b ∈ entries, ∀ i, (step i b).Contains x ↔ i.Contains x ∧ P b) :
    (entries.foldl step i).Contains x ↔ i.Contains x ∧ ∀ b ∈ entries, P b := by
  induction entries generalizing i with
  | nil => simp
  | cons b rest ih =>
    obtain ⟨hfirst, hrest⟩ := List.forall_mem_cons.mp hstep
    rw [List.foldl_cons, ih hrest, hfirst, List.forall_mem_cons, and_assoc]

/-- A number is in a moved interval if its distance was in the interval. -/
theorem contains_addTo : (i.addTo a).Contains x ↔ i.Contains (x - a) := by
  obtain ⟨lower, upper⟩ := i
  cases lower <;> cases upper <;> simp [Contains, addTo, le_sub_iff_add_le, add_comm a]

/-- A number is in a mirrored interval if its distance on the other side was in the interval. -/
theorem contains_subtractFrom : (i.subtractFrom a).Contains x ↔ i.Contains (a - x) := by
  obtain ⟨lower, upper⟩ := i
  cases lower <;> cases upper <;>
    simp [Contains, subtractFrom, le_sub_comm, add_comm x, and_comm]

/-- The opposite numbers are in the opposite interval. -/
theorem contains_negate : i.negate.Contains x ↔ i.Contains (-x) := by
  obtain ⟨lower, upper⟩ := i
  cases lower <;> cases upper <;> simp [Contains, negate, neg_le, le_neg, and_comm]

end Interval

end WarmSimplex
