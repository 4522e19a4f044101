import WarmSimplex.Edit
import WarmSimplex.Plain.Solve

/-!
# Edits on plain lists

The edits of a tableau on plain lists, made in place by a caller who holds it. A change stops if it is
refused or if it reaches outside of a list. What was written before stays written, so of an equation that is
refused at its second constraint the first one is there.

A history goes on after an edit that is refused. After an index out of range there is nothing to go on with.
-/

namespace WarmSimplex

/-- Why a change of plain lists stops. -/
inductive Plain.Stop (α : Type) where
  | outOfRange
  | refused (error : TableauError α)

/-- What an edit reports back. -/
inductive Plain.Reply (α : Type) where
  | done
  /-- The index of the new constraint. -/
  | added (constraint : Nat)
  /-- The indices of the two constraints of an equation. -/
  | addedPair (upper lower : Nat)
  | solved (report : Plain.Report α)

variable {α : Type} [Scalar α]

/-- A change to a tableau on plain lists that is held, which gives a result or stops. A stop comes with the
lists as the change left them. -/
abbrev OnLists (α β : Type) := EStateM (Plain.Stop α) (Plain α) β

namespace OnLists

/-- Read from the lists. -/
def read {β : Type} (f : Plain α → Option β) : OnLists α β := do
  match f (← get) with
  | some result => return result
  | none => throw .outOfRange

/-- Put other lists in place of those that are held. -/
def change (f : Plain α → Option (Except (TableauError α) (Plain α))) : OnLists α Unit := do
  match ← read f with
  | .ok next => set next
  | .error fault => throw (.refused fault)

/-- Add a constraint that is already in `≤` form. -/
def append (c : StoredConstraint α) : OnLists α Nat := do
  change (·.append c)
  read fun p => predecessor p.rows.length

/-- Add a constraint, under the next default name if none is given. Equations are refused. -/
def addConstraint (name : Option String) (coefficients : List α) (relation : Relation) (rhs : α) :
    OnLists α Nat := do
  let p ← get
  let name := name.getD (Tableau.defaultConstraintName p.rows.length)
  match (⟨name, coefficients, relation, rhs⟩ : Constraint α).stored? with
  | some stored => append stored
  | none => throw (.refused (.unsupportedRelation relation))

/-- Add an equation as a `≤` constraint followed by a `≥` constraint. -/
def addEquality (name : Option String) (coefficients : List α) (rhs : α) : OnLists α (Nat × Nat) := do
  let columns ← read Plain.columnCount
  if columns < coefficients.length then
    throw (.refused (.tooManyCoefficients coefficients.length columns))
  else
    let p ← get
    let name := name.getD (Tableau.defaultConstraintName p.rows.length)
    let upper ← addConstraint (some (name ++ "_le")) coefficients .le rhs
    let lower ← addConstraint (some (name ++ "_ge")) coefficients .ge rhs
    return (upper, lower)

/-- Make an edit. -/
def edit : Edit α → OnLists α (Plain.Reply α)
  | .setTolerances tolerance pivotTolerance => do
    modify (·.withTolerances tolerance pivotTolerance)
    return .done
  | .appendRow coefficients rhs => do
    let p ← get
    let added ← append ⟨coefficients, ⟨Tableau.defaultConstraintName p.rows.length, .le, rhs⟩⟩
    return .added added
  | .addConstraint name coefficients relation rhs => do
    let added ← addConstraint name coefficients relation rhs
    return .added added
  | .addEquality name coefficients rhs => do
    let (upper, lower) ← addEquality name coefficients rhs
    return .addedPair upper lower
  | .pivot row column => do
    change (·.pivot row column)
    return .done
  | .solve options => do
    let (report, solved) ← read (·.solve options)
    set solved
    return .solved report

end OnLists

namespace Plain

/-- The lists after an edit, refused or not. -/
def afterEdit (p : Plain α) (e : Edit α) : Option (Plain α) :=
  match (OnLists.edit e).run p with
  | .ok _ next => some next
  | .error (.refused _) left => some left
  | .error .outOfRange _ => none

/-- The lists after a history of edits. -/
def afterEdits (p : Plain α) (history : List (Edit α)) : Option (Plain α) :=
  history.foldlM afterEdit p

end Plain

end WarmSimplex
