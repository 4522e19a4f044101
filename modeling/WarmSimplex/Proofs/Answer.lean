import WarmSimplex.Proofs.Feasible
import WarmSimplex.Solve

/-!
# Answers

Three of the statuses are an answer about a program: it has an optimum, no feasible point, or
feasible points of any gain. No two of these hold of the same program, so right answers agree.

A limit that was reached answers nothing, and says nothing here.
-/

namespace WarmSimplex

namespace LinearProgram

/-- The status is true of the program, with the given values if there is an optimum. -/
def Answers (p : LinearProgram ℚ) (values : List ℚ) : Status → Prop
  | .optimal => p.IsOptimal values
  | .infeasible => p.IsInfeasible
  | .unbounded => p.IsUnbounded
  | .iterationLimit => True
  | .timeLimit => True

end LinearProgram

/-- The status is an answer, not a limit. -/
def Status.IsAnswer (s : Status) : Prop := s ≠ .iterationLimit ∧ s ≠ .timeLimit

/-- Right answers about a program agree, and optima have the same objective. -/
theorem LinearProgram.Answers.agree {p : LinearProgram ℚ} {x y : List ℚ} {s t : Status}
    (hs : p.Answers x s) (ht : p.Answers y t) (hsAnswer : s.IsAnswer) (htAnswer : t.IsAnswer) :
    s = t ∧ (s = .optimal → p.evaluate x = p.evaluate y) := by
  cases s with
  | optimal =>
    cases t with
    | optimal => exact ⟨rfl, fun _ => IsOptimal.evaluate_eq hs ht⟩
    | infeasible => exact absurd (IsOptimal.feasible hs) (ht x)
    | unbounded => exact absurd ht (IsOptimal.not_isUnbounded hs)
    | iterationLimit => exact absurd rfl htAnswer.1
    | timeLimit => exact absurd rfl htAnswer.2
  | infeasible =>
    refine ⟨?_, fun h => by cases h⟩
    cases t with
    | optimal => exact absurd (IsOptimal.feasible ht) (hs y)
    | infeasible => rfl
    | unbounded =>
      obtain ⟨z, hz⟩ := IsUnbounded.feasible ht
      exact absurd hz (hs z)
    | iterationLimit => exact absurd rfl htAnswer.1
    | timeLimit => exact absurd rfl htAnswer.2
  | unbounded =>
    refine ⟨?_, fun h => by cases h⟩
    cases t with
    | optimal => exact absurd hs (IsOptimal.not_isUnbounded ht)
    | infeasible =>
      obtain ⟨z, hz⟩ := IsUnbounded.feasible hs
      exact absurd hz (ht z)
    | unbounded => rfl
    | iterationLimit => exact absurd rfl htAnswer.1
    | timeLimit => exact absurd rfl htAnswer.2
  | iterationLimit => exact absurd rfl hsAnswer.1
  | timeLimit => exact absurd rfl hsAnswer.2

end WarmSimplex
