import WarmSimplex.Decimal.Notation
import WarmSimplex.Program.Violation
import WarmSimplex.Solution
import WarmSimplex.Tableau.Error

/-!
# Messages

The wording of everything the library says in sentences: why an input was refused, why a tableau has
no solution to read, how a point breaks a constraint, and what a price means.

Numbers in errors are written so that they read back; amounts in explanations are rounded.
-/

namespace WarmSimplex

/-- What a list of numbers is called in a message. -/
def Place.text : Place → String
  | .row index => "row " ++ toString index
  | .rightHandSides => "right-hand side"
  | .objective => "objective"
  | .newConstraint => "constraint"
  | .newRightHandSide => "constraint right-hand side"

/-- The message for an input that was refused. -/
def TableauError.message : TableauError Float → String
  | .negativeRightHandSide row value => invalid <|
    "right-hand side of row " ++ toString row ++ " is negative (" ++ plainText value ++
      "); the slack basis would be infeasible"
  | .noVariables => invalid "objective has no variables"
  | .rowCount rows rightHandSides => invalid <|
    "matrix has " ++ toString rows ++ " rows but right-hand side has " ++ toString rightHandSides ++
      " entries"
  | .rowWidth row actual expected => invalid <|
    "row " ++ toString row ++ " has " ++ toString actual ++ " coefficients, expected " ++
      toString expected
  | .notFinite place position value => invalid <|
    place.text ++ " has a non-finite entry at position " ++ toString position ++ " (" ++
      plainText value ++ ")"
  | .objectiveWidth actual expected => invalid <|
    "objective has " ++ toString actual ++ " coefficients for " ++ toString expected ++ " variables"
  | .constraintWidth name actual expected => invalid <|
    "constraint '" ++ name ++ "' has " ++ toString actual ++ " coefficients for " ++
      toString expected ++ " variables"
  | .tooManyCoefficients actual columns => invalid <|
    "constraint has " ++ toString actual ++ " coefficients but the tableau only has " ++
      toString columns ++ " columns"
  | .pivotOutside row column rows columns => invalid <|
    "pivot position (" ++ toString row ++ ", " ++ toString column ++ ") is outside the " ++
      toString rows ++ "x" ++ toString columns ++ " tableau"
  | .degeneratePivot row column value tolerance =>
    "Degenerate pivot at row " ++ toString row ++ ", column " ++ toString column ++ ": |" ++
      scientificText value ++ "| is below " ++ scientificText tolerance
  | .unsupportedRelation relation =>
    "Unsupported relation '" ++ relation.symbol ++ "': add both the <= and >= forms instead"
where
  /-- The message for an input that makes no sense. -/
  invalid (text : String) : String := "Invalid input: " ++ text

/-- The message for a tableau that is not optimal. -/
def NotOptimal.message (e : NotOptimal) : String :=
  "Tableau is not optimal: " ++ toString e.infeasibleRows ++ " rows below zero, " ++
    toString e.negativeCosts ++ " negative reduced costs"

/-- How a point breaks a constraint, in words. -/
def Violation.description (v : Violation Float) : String :=
  match v.kind with
  | .aboveMaximum =>
    v.subject ++ " exceeds maximum of " ++ fixedText 2 v.required ++ " by " ++ fixedText 2 v.amount
  | .belowMinimum =>
    v.subject ++ " is below minimum of " ++ fixedText 2 v.required ++ " by " ++ fixedText 2 v.amount
  | .notEqual =>
    v.subject ++ " requires exactly " ++ fixedText 2 v.required ++ " but got " ++ fixedText 2 v.actual
  | .negative => v.subject ++ " is negative (" ++ fixedText 2 v.actual ++ ")"

/-- What a price means, in words. -/
def PriceEffect.text : PriceEffect Float → String
  | .nonBinding => "Non-binding constraint"
  | .increases amount =>
    "Increasing RHS by 1 unit would increase the objective by " ++ fixedText 4 amount
  | .decreases amount =>
    "Increasing RHS by 1 unit would decrease the objective by " ++ fixedText 4 amount

/-- An objective value as a binary64 number. -/
def ObjectiveValue.toFloat : ObjectiveValue Float → Float
  | .attained value => value
  | .plusInfinity => 1.0 / 0.0
  | .minusInfinity => -1.0 / 0.0
  | .unknown => 0.0 / 0.0

end WarmSimplex
