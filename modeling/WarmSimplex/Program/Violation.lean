import WarmSimplex.Program

/-!
# Violations

A violation names a constraint that a point breaks by more than a tolerance, or a variable that is
below zero by more than it, together with the amount. The report lists the worst first.

The wording of a violation is in `WarmSimplex.Text`, since only printed numbers need it.
-/

namespace WarmSimplex

variable {α : Type} [Scalar α]

/-- In which way a point breaks a constraint. -/
inductive Violation.Kind where
  | aboveMaximum
  | belowMinimum
  | notEqual
  | negative
deriving DecidableEq, Repr

/-- A constraint or a sign condition that a point does not meet. -/
structure Violation (α : Type) where
  /-- The constraint, or the variable that is negative. -/
  subject : String
  kind : Violation.Kind
  /-- The right-hand side that was asked for. -/
  required : α
  /-- The left-hand side at the point. -/
  actual : α
  /-- The distance between the two. -/
  amount : α

/-- The condition that is not met, as a name: a constraint's own, or the sign condition. -/
def Violation.condition (v : Violation α) : String :=
  match v.kind with
  | .negative => v.subject ++ " >= 0"
  | _ => v.subject

/-- The violation of a constraint at a point, if it is broken by more than the tolerance. -/
def Constraint.violation? (c : Constraint α) (values : List α) (tolerance : α) :
    Option (Violation α) :=
  let lhs := Scalar.dot c.coefficients values
  match c.relation with
  | .le =>
    if c.rhs + tolerance < lhs then some ⟨c.name, .aboveMaximum, c.rhs, lhs, lhs - c.rhs⟩ else none
  | .ge =>
    if lhs < c.rhs - tolerance then some ⟨c.name, .belowMinimum, c.rhs, lhs, c.rhs - lhs⟩ else none
  | .eq =>
    let distance := Scalar.abs (lhs - c.rhs)
    if tolerance < distance then some ⟨c.name, .notEqual, c.rhs, lhs, distance⟩ else none

/-- The violation of a variable's sign condition, if its value is below zero by more than the
tolerance. -/
def signViolation? (tolerance : α) (name : String) (value : α) : Option (Violation α) :=
  if value < -tolerance then some ⟨name, .negative, 0, value, -value⟩ else none

/-- The violations at a point in the order of the program: constraints first, then variables. -/
def LinearProgram.unsortedViolations (p : LinearProgram α) (values : List α) (tolerance : α) :
    List (Violation α) :=
  p.constraints.filterMap (·.violation? values tolerance) ++
    (p.variableNames.zip values).filterMap fun (name, value) => signViolation? tolerance name value

/-- The violations at a point, largest amount first; equal amounts keep the order of the program. -/
def LinearProgram.violations (p : LinearProgram α) (values : List α) (tolerance : α) :
    List (Violation α) :=
  (p.unsortedViolations values tolerance).mergeSort fun v w => Scalar.totalLE w.amount v.amount

end WarmSimplex
