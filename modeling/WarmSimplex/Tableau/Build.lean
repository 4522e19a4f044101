import WarmSimplex.Tableau
import WarmSimplex.Tableau.Error

/-!
# Building a tableau

A tableau starts with the slacks as its basis. It is built either from a matrix, right-hand sides
and costs, or from a linear program, whose `≥` rows are negated and whose objective is turned into
one to maximize.

A matrix has to have non-negative right-hand sides, so that the slack basis is feasible. A program
does not: a row that starts out negative is left for the solver.
-/

namespace WarmSimplex

variable {α : Type} [Scalar α]

/-- The first entry that is infinite or undefined. -/
def nonFinite? (place : Place) (values : List α) : Option (TableauError α) :=
  (values.zipIdx.find? fun (v, _) => !Scalar.isFinite v).map fun (v, j) => .notFinite place j v

/-- The first fault of a row of a matrix: its length, then its entries. -/
def rowFault? (width : Nat) (row : Nat) (coefficients : List α) : Option (TableauError α) :=
  if coefficients.length ≠ width then some (.rowWidth row coefficients.length width)
  else nonFinite? (.row row) coefficients

/-- The first fault of a matrix, right-hand sides and costs. -/
def shapeFault? (a : List (List α)) (b c : List α) : Option (TableauError α) :=
  if c.isEmpty then some .noVariables
  else if a.length ≠ b.length then some (.rowCount a.length b.length)
  else
    (a.zipIdx.findSome? fun (row, i) => rowFault? c.length i row)
      <|> nonFinite? .rightHandSides b
      <|> nonFinite? .objective c

/-- The first negative right-hand side. -/
def negativeRightHandSide? (b : List α) : Option (TableauError α) :=
  (b.zipIdx.find? fun (v, _) => decide (v < 0)).map fun (v, i) => .negativeRightHandSide i v

/-- The entries of a unit column list: one at the given position among `count`, zero elsewhere. -/
def unitEntries (count position : Nat) : List α :=
  (List.replicate count 0).set position 1

/-- A constraint in `≤` form: its coefficients over the decision variables, and its label. -/
structure StoredConstraint (α : Type) where
  coefficients : List α
  label : Label α

namespace Tableau

/-- The tableau in which row `i` is solved for its own slack. -/
def ofStored (decisions : List (Decision α)) (sense : Sense) (costs : List α)
    (stored : List (StoredConstraint α)) : Tableau α where
  decisions := decisions
  rows := stored.zipIdx.map fun (c, i) =>
    { coefficients := c.coefficients ++ unitEntries stored.length i
      rhs := c.label.rhs
      basic := decisions.length + i
      label := c.label }
  objective := ⟨costs.map (-·) ++ List.replicate stored.length 0, 0⟩
  sense := sense
  tolerance := Scalar.defaultTolerance
  pivotTolerance := Scalar.defaultTolerance

/-- The name of a variable, given by its place from zero. -/
def defaultVariableName (index : Nat) : String := "x" ++ toString (index + 1)

/-- The name of a constraint, given by its place from zero. -/
def defaultConstraintName (index : Nat) : String := "c" ++ toString (index + 1)

/-- The tableau of "maximize `c · x` subject to `a x ≤ b`", for non-negative `b`. -/
def ofMatrix (a : List (List α)) (b c : List α) : Except (TableauError α) (Tableau α) :=
  match negativeRightHandSide? b <|> shapeFault? a b c with
  | some fault => .error fault
  | none => .ok <| ofStored
      (c.zipIdx.map fun (cost, j) => ⟨defaultVariableName j, cost⟩) .maximize c
      ((a.zip b).zipIdx.map fun ((row, rhs), i) => ⟨row, ⟨defaultConstraintName i, .le, rhs⟩⟩)

end Tableau

/-- A constraint in `≤` form, if it has one. -/
def Constraint.stored? (c : Constraint α) : Option (StoredConstraint α) :=
  c.relation.sign?.map fun sign =>
    ⟨c.coefficients.map (sign * ·), ⟨c.name, c.relation, sign * c.rhs⟩⟩

/-- A constraint in `≤` form over the given number of variables, or its first fault. -/
def Constraint.store (width : Nat) (c : Constraint α) :
    Except (TableauError α) (StoredConstraint α) :=
  if c.coefficients.length ≠ width then
    .error (.constraintWidth c.name c.coefficients.length width)
  else
    match c.stored? with
    | some stored => .ok stored
    | none => .error (.unsupportedRelation c.relation)

/-- Every constraint in `≤` form, or the first fault. -/
def storeAll (width : Nat) :
    List (Constraint α) → Except (TableauError α) (List (StoredConstraint α))
  | [] => .ok []
  | c :: rest =>
    match c.store width with
    | .error fault => .error fault
    | .ok stored =>
      match storeAll width rest with
      | .error fault => .error fault
      | .ok others => .ok (stored :: others)

namespace LinearProgram

/-- The objective coefficients of the maximization form. -/
def costs (p : LinearProgram α) : List α :=
  p.objective.coefficients.map (p.objective.sense.sign * ·)

/-- The variables with their objective coefficients. -/
def decisions (p : LinearProgram α) : List (Decision α) :=
  List.zipWith Decision.mk p.variableNames p.objective.coefficients

/-- The tableau of a program without equations, with the slacks as its basis. -/
def toTableau (p : LinearProgram α) : Except (TableauError α) (Tableau α) :=
  if p.objective.coefficients.length ≠ p.variableCount then
    .error (.objectiveWidth p.objective.coefficients.length p.variableCount)
  else
    match storeAll p.variableCount p.constraints with
    | .error fault => .error fault
    | .ok stored =>
      match shapeFault? (stored.map (·.coefficients)) (stored.map (·.label.rhs)) p.costs with
      | some fault => .error fault
      | none => .ok (Tableau.ofStored p.decisions p.objective.sense p.costs stored)

end LinearProgram

end WarmSimplex
