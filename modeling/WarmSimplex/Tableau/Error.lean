import WarmSimplex.Program

/-!
# Why a tableau refuses an input

Each constructor is one cause, with the facts that a message about it needs. The wording is in
`WarmSimplex.Text`.
-/

namespace WarmSimplex

/-- Which list of numbers an entry belongs to. -/
inductive Place where
  /-- A row of the constraint matrix. -/
  | row (index : Nat)
  /-- The right-hand sides. -/
  | rightHandSides
  /-- The objective in maximization form. -/
  | objective
  /-- The coefficients of a constraint to be appended. -/
  | newConstraint
  /-- The right-hand side of a constraint to be appended. -/
  | newRightHandSide
deriving DecidableEq, Repr

/-- Why a tableau could not be built or changed. -/
inductive TableauError (α : Type) where
  /-- A tableau with a feasible slack basis was asked for, and a right-hand side is negative. -/
  | negativeRightHandSide (row : Nat) (value : α)
  /-- There is nothing to optimize. -/
  | noVariables
  /-- The matrix and the right-hand sides differ in length. -/
  | rowCount (rows rightHandSides : Nat)
  /-- A row of the matrix has the wrong length. -/
  | rowWidth (row actual expected : Nat)
  /-- An entry is infinite or undefined. -/
  | notFinite (place : Place) (position : Nat) (value : α)
  /-- The objective has the wrong length. -/
  | objectiveWidth (actual expected : Nat)
  /-- A constraint of a program has the wrong length. -/
  | constraintWidth (name : String) (actual expected : Nat)
  /-- A constraint to be appended mentions columns that do not exist. -/
  | tooManyCoefficients (actual columns : Nat)
  /-- A pivot was asked for outside the tableau. -/
  | pivotOutside (row column rows columns : Nat)
  /-- The pivot is undefined or smaller than the pivot tolerance. -/
  | degeneratePivot (row column : Nat) (value tolerance : α)
  /-- The relation has no `≤` form. -/
  | unsupportedRelation (relation : Relation)

end WarmSimplex
