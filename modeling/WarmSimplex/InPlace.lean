import WarmSimplex.Edit

/-!
# Changing a tableau in place

The edits as a caller makes them who holds the tableau: each reads it and writes to it, one step after the
other. What was written before a failure stays written, since no step takes back an earlier one.

A new constraint writes twice, a column and a row. An equation is added by two constraints, of which the
second is checked after the first was written.
-/

namespace WarmSimplex

variable {α : Type} [Scalar α]

/-- A change to a tableau that is held, which gives a result or fails. A failure comes with the tableau
as the change left it. -/
abbrev InPlace (α β : Type) := EStateM (TableauError α) (Tableau α) β

/-- Reduce an equation against the rows, and add it as the last one. -/
def Tableau.addRow (t : Tableau α) (equation : Equation α) (basic : Nat) (label : Label α) : Tableau α :=
  { t with rows := t.rows ++ [{ toEquation := equation.reduce t.rows, basic := basic, label := label }] }

namespace InPlace

/-- Fail if there is a fault. -/
def check (fault? : Option (TableauError α)) : InPlace α Unit :=
  match fault? with
  | some fault => throw fault
  | none => pure ()

/-- Pivot on a row and a column. -/
def pivot (row column : Nat) : InPlace α Unit := do
  let t ← get
  if row < t.rowCount ∧ column < t.columnCount then
    let value := t.coefficient row column
    if t.isDegenerate value then throw (.degeneratePivot row column value t.pivotTolerance)
    else set (t.pivotAt row column)
  else throw (.pivotOutside row column t.rowCount t.columnCount)

/-- Add a constraint that is already in `≤` form: a column for its slack, then its row. -/
def append (c : StoredConstraint α) : InPlace α Nat := do
  let t ← get
  check (t.appendFault? c)
  modify Tableau.addZeroColumn
  modify (·.addRow (t.newEquation c.coefficients c.label.rhs) t.columnCount c.label)
  return t.rowCount

/-- Add a constraint, under the next default name if none is given. Equations are refused. -/
def addConstraint (name : Option String) (coefficients : List α) (relation : Relation) (rhs : α) :
    InPlace α Nat := do
  let t ← get
  match (⟨name.getD t.nextConstraintName, coefficients, relation, rhs⟩ : Constraint α).stored? with
  | some stored => append stored
  | none => throw (.unsupportedRelation relation)

/-- Add an equation as a `≤` constraint followed by a `≥` constraint. -/
def addEquality (name : Option String) (coefficients : List α) (rhs : α) : InPlace α (Nat × Nat) := do
  let t ← get
  if t.columnCount < coefficients.length then
    throw (.tooManyCoefficients coefficients.length t.columnCount)
  else
    let name := name.getD t.nextConstraintName
    let upper ← addConstraint (some (name ++ "_le")) coefficients .le rhs
    let lower ← addConstraint (some (name ++ "_ge")) coefficients .ge rhs
    return (upper, lower)

/-- Make an edit in place. -/
def edit : Edit α → InPlace α (Reply α)
  | .setTolerances tolerance pivotTolerance => do
    modify (·.withTolerances tolerance pivotTolerance)
    return .done
  | .appendRow coefficients rhs => do
    let t ← get
    let added ← append ⟨coefficients, ⟨t.nextConstraintName, .le, rhs⟩⟩
    return .added added
  | .addConstraint name coefficients relation rhs => do
    let added ← addConstraint name coefficients relation rhs
    return .added added
  | .addEquality name coefficients rhs => do
    let (upper, lower) ← addEquality name coefficients rhs
    return .addedPair upper lower
  | .pivot row column => do
    pivot row column
    return .done
  | .solve options => do
    let t ← get
    let (report, solved) := t.solve options
    set solved
    return .solved report

end InPlace

namespace Tableau

/-- The tableau that an edit in place leaves, refused or not. -/
def afterEditInPlace (t : Tableau α) (e : Edit α) : Tableau α :=
  match (InPlace.edit e).run t with
  | .ok _ next => next
  | .error _ left => left

/-- The tableau that a history of edits in place leaves. -/
def afterEditsInPlace (t : Tableau α) (history : List (Edit α)) : Tableau α :=
  history.foldl afterEditInPlace t

end Tableau

end WarmSimplex
