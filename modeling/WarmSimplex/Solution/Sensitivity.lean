import WarmSimplex.Tableau

/-!
# Sensitivity ranges

Two questions about a tableau: by how much may one objective coefficient change before some reduced
cost turns negative, and by how much may one right-hand side change before some basic variable does.
The answers are ranges around the number as the caller wrote it, so the ranges of a minimization and
of a `≥` constraint are mirrored.

A bound that does not exist is `none`. A quotient that is undefined bounds nothing.
-/

namespace WarmSimplex

variable {α : Type} [Scalar α]

/-- An interval of changes; a missing bound is infinite. -/
structure Interval (α : Type) where
  lower : Option α
  upper : Option α

namespace Interval

/-- No bound on either side. -/
def all : Interval α := ⟨none, none⟩

/-- Raise the lower bound to a number, unless that is undefined. -/
def atLeast (i : Interval α) (a : α) : Interval α :=
  if Scalar.isNaN a then i
  else { i with lower := some (match i.lower with | none => a | some b => Scalar.larger b a) }

/-- Reduce the upper bound to a number, unless that is undefined. -/
def atMost (i : Interval α) (a : α) : Interval α :=
  if Scalar.isNaN a then i
  else { i with upper := some (match i.upper with | none => a | some b => Scalar.smaller b a) }

/-- The changes for which a number that moves at the given rate does not fall below zero. A rate
within the tolerance of zero bounds nothing. -/
def keepNonNegative (i : Interval α) (tolerance number rate : α) : Interval α :=
  if tolerance < rate then i.atLeast (-number / rate)
  else if rate < -tolerance then i.atMost (-number / rate)
  else i

/-- Apply the changes to a number. -/
def addTo (i : Interval α) (a : α) : Interval α :=
  ⟨i.lower.map (a + ·), i.upper.map (a + ·)⟩

/-- Apply the opposite changes to a number. -/
def subtractFrom (i : Interval α) (a : α) : Interval α :=
  ⟨i.upper.map (a - ·), i.lower.map (a - ·)⟩

/-- The interval of the opposite numbers. -/
def negate (i : Interval α) : Interval α :=
  ⟨i.upper.map (-·), i.lower.map (-·)⟩

end Interval

/-- The range of a number in which the basis stays as it is. -/
structure SensitivityRange (α : Type) where
  name : String
  current : α
  range : Interval α

namespace Tableau

/-- The changes of a column's cost, in maximization form, that keep every reduced cost from turning
negative. The cost of a non-basic column moves its own reduced cost only; the cost of a basic column
moves those of the non-basic columns at the rates of its row. -/
def costChanges (t : Tableau α) (column : Nat) : Interval α :=
  match t.rows.find? (·.basic == column) with
  | none => ⟨none, some (t.reducedCost column)⟩
  | some r =>
    r.coefficients.zipIdx.foldl (fun i (a, k) =>
      if k = column || t.isBasic k then i else i.keepNonNegative t.tolerance (t.reducedCost k) a) .all

/-- The range of the objective coefficient of a decision variable. -/
def costRange (t : Tableau α) (column : Nat) (d : Decision α) : SensitivityRange α where
  name := d.name
  current := d.cost
  range := match t.sense with
    | .maximize => (t.costChanges column).addTo d.cost
    | .minimize => (t.costChanges column).subtractFrom d.cost

/-- The changes of a constraint's right-hand side, in `≤` form, that keep every basic variable from
turning negative. They move at the rates of the constraint's slack column. -/
def rhsChanges (t : Tableau α) (constraint : Nat) : Interval α :=
  t.rows.foldl (fun i r =>
    i.keepNonNegative t.tolerance r.rhs (r.coefficient (t.slackColumn constraint))) .all

/-- The range of the right-hand side of a constraint. -/
def rhsRange (t : Tableau α) (constraint : Nat) (label : Label α) : SensitivityRange α where
  name := label.name
  current := match label.relation with
    | .ge => -label.rhs
    | _ => label.rhs
  range :=
    let stored := (t.rhsChanges constraint).addTo label.rhs
    match label.relation with
    | .ge => stored.negate
    | _ => stored

end Tableau

end WarmSimplex
