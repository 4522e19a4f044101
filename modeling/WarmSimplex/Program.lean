import WarmSimplex.Scalar

/-!
# Linear programs

A linear program has named variables, an objective to maximize or minimize, and named constraints.
Every variable is non-negative. Coefficient lists are kept as they were given: their lengths are
checked when a tableau is built, not here.

A point is a list of values in the order of the variables.
-/

namespace WarmSimplex

variable {α : Type} [Scalar α]

/-- The direction in which an objective is to be driven. -/
inductive Sense where
  | maximize
  | minimize
deriving DecidableEq, Repr

/-- The factor that turns an objective of this sense into one to maximize. -/
def Sense.sign : Sense → α
  | .maximize => 1
  | .minimize => -1

/-- How the two sides of a constraint compare. -/
inductive Relation where
  | le
  | ge
  | eq
deriving DecidableEq, Repr

/-- A relation as it is written between its sides. -/
def Relation.symbol : Relation → String
  | .le => "<="
  | .ge => ">="
  | .eq => "="

/-- The factor that turns a constraint into its `≤` form; an equation has none. -/
def Relation.sign? : Relation → Option α
  | .le => some 1
  | .ge => some (-1)
  | .eq => none

/-- A named linear constraint. -/
structure Constraint (α : Type) where
  name : String
  coefficients : List α
  relation : Relation
  rhs : α

/-- A linear objective and its direction. -/
structure Objective (α : Type) where
  coefficients : List α
  sense : Sense

/-- A linear program over non-negative variables. -/
structure LinearProgram (α : Type) where
  /-- One name for each variable. -/
  variableNames : List String
  objective : Objective α
  constraints : List (Constraint α)

namespace LinearProgram

/-- The program over the named variables that maximizes zero under no constraint. -/
def ofVariables (names : List String) : LinearProgram α where
  variableNames := names
  objective := ⟨List.replicate names.length 0, .maximize⟩
  constraints := []

/-- The number of variables. -/
def variableCount (p : LinearProgram α) : Nat := p.variableNames.length

/-- Replace the objective. -/
def setObjective (p : LinearProgram α) (coefficients : List α) (sense : Sense) : LinearProgram α :=
  { p with objective := ⟨coefficients, sense⟩ }

/-- Add a constraint after those already there. -/
def addConstraint (p : LinearProgram α) (c : Constraint α) : LinearProgram α :=
  { p with constraints := p.constraints ++ [c] }

/-- The objective at a point, in the program's own sense. -/
def evaluate (p : LinearProgram α) (values : List α) : α :=
  Scalar.dot p.objective.coefficients values

end LinearProgram

end WarmSimplex
