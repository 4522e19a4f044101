import WarmSimplex.Access
import WarmSimplex.TwoPhase

/-!
# The two-phase method on plain rows

The resolve as it runs on one list of rows of numbers. The objective is the last row, the right-hand side
is the last entry of each row, and the basic columns are a list of their own beside the rows. Every index
that is computed is checked: a computation that reads, writes or removes outside of a list has no result,
nor has one that takes one from zero.

The resolve is cut into steps of one pivot, or of one row passed or removed, so that it can be looked at
in between. A step knows its place in the method, and how many pivots the phase has left.
-/

namespace WarmSimplex.TwoPhase

variable {α : Type} [Scalar α]

/-- The state of a resolve on plain rows. -/
structure Dense (α : Type) where
  /-- The rows, the objective last, each with its right-hand side last. -/
  data : List (List α)
  /-- The basic column of each row but the last one. -/
  basics : List Nat
  variableCount : Nat
  /-- The first artificial column. -/
  artificialStart : Nat
  /-- The pivots made so far. -/
  iterations : Nat

namespace Dense

/-- The place of the objective row. -/
def objectiveIndex (d : Dense α) : Option Nat := predecessor d.data.length

/-- The length of the first row. -/
def width (d : Dense α) : Option Nat := d.data[0]?.map (·.length)

/-- The place of the right-hand side in the first row. -/
def rhsIndex (d : Dense α) : Option Nat := d.width.bind predecessor

/-! ## Pivots -/

/-- Subtract a multiple of a row from the first entries of another one. -/
def subtract (width : Nat) (factor : α) (source target : List α) : Option (List α) :=
  update width (fun j t => source[j]?.map fun a => t - factor * a) target

/-- Subtract the multiple of a row that clears a column in which it is one. -/
def clear (width column : Nat) (source target : List α) : Option (List α) := do
  let factor ← target[column]?
  if factor == 0 then some target else subtract width factor source target

/-- Solve a row for a column and eliminate that column from all other rows. -/
def pivot (d : Dense α) (row column : Nat) : Option (Dense α) := do
  let width ← d.width
  let basics ← write d.basics row column
  let source ← d.data[row]?
  let entry ← source[column]?
  let solved ← update width (fun _ a => some (a / entry)) source
  let data ← write d.data row solved
  let data ← update d.data.length
    (fun i target => if i = row then some target else clear width column solved target) data
  some { d with data := data, basics := basics, iterations := d.iterations + 1 }

/-- The lowest column of negative reduced cost before the given one. -/
def enteringColumn (d : Dense α) (tolerance : α) (before : Nat) : Option (Option Nat) := do
  let last ← d.objectiveIndex
  let objective ← d.data[last]?
  (List.range before).findM? fun j => objective[j]?.map fun a => decide (a < -tolerance)

/-- The tighter one of the bound in hand, if there is one, and the next one. -/
def tighter (tolerance : α) (held : Option (Workspace.Bound α)) (next : Workspace.Bound α) :
    Workspace.Bound α :=
  match held with
  | none => next
  | some held => if next.beats tolerance held then next else held

/-- Take the bound of a row into account, if the row has one. -/
def consider (d : Dense α) (tolerance : α) (rhs column : Nat) (held : Option (Workspace.Bound α))
    (i : Nat) : Option (Option (Workspace.Bound α)) := do
  let row ← d.data[i]?
  let a ← row[column]?
  if tolerance < a then
    let b ← row[rhs]?
    let basic ← d.basics[i]?
    some (some (tighter tolerance held ⟨i, basic, Scalar.larger b 0 / a⟩))
  else some held

/-- The row that leaves the basis for a column. The basic column of a bound in hand was read when the
bound was taken. -/
def leavingRow (d : Dense α) (tolerance : α) (column : Nat) : Option (Option Nat) := do
  let last ← d.objectiveIndex
  let rhs ← d.rhsIndex
  let held ← (List.range last).foldlM (d.consider tolerance rhs column) none
  some (held.map (·.row))

/-- The first column that is not artificial and that a row can be solved for. -/
def replacement (d : Dense α) (tolerance : α) (row : Nat) : Option (Option Nat) := do
  let entries ← d.data[row]?
  (List.range d.artificialStart).findM? fun j =>
    entries[j]?.map fun a => decide (tolerance < Scalar.abs a)

/-- Remove a row and its basic column. -/
def dropRow (d : Dense α) (row : Nat) : Option (Dense α) := do
  let data ← remove d.data row
  let basics ← remove d.basics row
  some { d with data := data, basics := basics }

/-! ## Before, between and after the phases -/

/-- The rows of a program while they are written, with the next free slack and artificial columns. -/
structure Filling (α : Type) where
  data : List (List α)
  basics : List Nat
  slack : Nat
  artificial : Nat

/-- Write the row of a constraint. -/
def Filling.next (width columns : Nat) (f : Filling α) (c : Constraint α) (i : Nat) :
    Option (Filling α) := do
  let sign : α := if c.rhs < 0 then -1 else 1
  let row ← f.data[i]?
  let row ← writeAll row ((c.coefficients.map (sign * ·)).take width)
  let row ← write row columns (sign * c.rhs)
  match orientedRelation c with
  | .le =>
    let row ← write row f.slack 1
    let data ← write f.data i row
    let basics ← write f.basics i f.slack
    some ⟨data, basics, f.slack + 1, f.artificial⟩
  | .ge =>
    let row ← write row f.slack (-1)
    let row ← write row f.artificial 1
    let data ← write f.data i row
    let basics ← write f.basics i f.artificial
    some ⟨data, basics, f.slack + 1, f.artificial + 1⟩
  | .eq =>
    let row ← write row f.artificial 1
    let data ← write f.data i row
    let basics ← write f.basics i f.artificial
    some ⟨data, basics, f.slack, f.artificial + 1⟩

/-- The rows of a program, before the first phase. -/
def ofProgram (p : LinearProgram α) : Option (Dense α) := do
  let width := p.variableCount
  let artificialStart := width + slackCount p.constraints
  let columns := artificialStart + artificialCount p.constraints
  let count := p.constraints.length
  let zeros : Filling α := ⟨List.replicate (count + 1) (List.replicate (columns + 1) 0),
    List.replicate count 0, width, artificialStart⟩
  let filled ← p.constraints.zipIdx.foldlM (fun (f : Filling α) (c, i) => f.next width columns c i) zeros
  let objective ← filled.data[count]?
  let objective ← writeAll objective
    ((p.objective.coefficients.map (-p.objective.sense.sign * ·)).take width)
  let data ← write filled.data count objective
  some ⟨data, filled.basics, width, artificialStart, 0⟩

/-- What the first phase keeps for later: the objective row, and the length that all rows had. -/
structure Saved (α : Type) where
  objective : List α
  width : Nat

/-- Subtract a row from the objective of the first phase, if its basic column is artificial. -/
def priceOut (d : Dense α) (width : Nat) (objective : List α) (i : Nat) : Option (List α) := do
  let basic ← d.basics[i]?
  if basic < d.artificialStart then some objective
  else
    let row ← d.data[i]?
    subtract width 1 row objective

/-- Put the objective of the first phase in the place of the other one. -/
def setAside (d : Dense α) : Option (Saved α × Dense α) := do
  let last ← d.objectiveIndex
  let width ← d.width
  let rhs ← predecessor width
  let saved ← d.data[last]?
  let ones ← (List.range' d.artificialStart (rhs - d.artificialStart)).foldlM
    (fun objective j => write objective j 1) (List.replicate width 0)
  let objective ← (List.range last).foldlM (d.priceOut width) ones
  let data ← write d.data last objective
  some (⟨saved, width⟩, { d with data := data })

/-- Clear the basic column of a row in the objective. -/
def clearBasic (d : Dense α) (width : Nat) (objective : List α) (i : Nat) : Option (List α) := do
  let basic ← d.basics[i]?
  let row ← d.data[i]?
  clear width basic row objective

/-- Put the objective back, in terms of the current basis. -/
def restore (d : Dense α) (saved : Saved α) : Option (Dense α) := do
  let last ← d.objectiveIndex
  let objective ← (List.range last).foldlM (d.clearBasic saved.width) saved.objective
  let data ← write d.data last objective
  some { d with data := data }

/-- Write the right-hand side of a row as the value of its basic column, if this is a variable. -/
def place (d : Dense α) (rhs : Nat) (values : List α) (i : Nat) : Option (List α) := do
  let basic ← d.basics[i]?
  if basic < d.variableCount then
    let row ← d.data[i]?
    let b ← row[rhs]?
    write values basic b
  else some values

/-- The value of each variable. -/
def values (d : Dense α) : Option (List α) := do
  let rhs ← d.rhsIndex
  (List.range d.basics.length).foldlM (d.place rhs) (List.replicate d.variableCount 0)

/-- The outcome of a resolve that ends with the status. -/
def outcome (d : Dense α) (p : LinearProgram α) (status : Status) : Option (Outcome α) :=
  match status with
  | .optimal => d.values.map fun values =>
    ⟨.optimal, values, .attained (p.evaluate values), d.iterations⟩
  | status => some ⟨status, [], .withoutOptimum status p.objective.sense, d.iterations⟩

end Dense

/-! ## The steps of a resolve -/

/-- The place of a resolve in the method. -/
inductive Stage (α : Type) where
  /-- In the first phase, with this many pivots left. -/
  | first (budget : Nat) (saved : Dense.Saved α)
  /-- At this row, while the artificial columns are taken out of the basis. -/
  | clearing (row : Nat) (saved : Dense.Saved α)
  /-- In the second phase, with this many pivots left. -/
  | second (budget : Nat)
  | done (status : Status)

/-- A resolve on its way. -/
structure Machine (α : Type) where
  stage : Stage α
  tableau : Dense α

/-- The status of a resolve that ends with its second phase. -/
def PhaseEnd.status : PhaseEnd → Status
  | .optimal => .optimal
  | .unbounded => .unbounded
  | .iterationLimit => .iterationLimit

/-- One round of a phase: a pivot, or the end of the phase. -/
def Dense.round (d : Dense α) (tolerance : α) (before budget : Nat) : Option (PhaseEnd ⊕ Dense α) := do
  match ← d.enteringColumn tolerance before with
  | none => some (.inl .optimal)
  | some column =>
    if budget = 0 then some (.inl .iterationLimit)
    else
      match ← d.leavingRow tolerance column with
      | none => some (.inl .unbounded)
      | some row => (d.pivot row column).map .inr

namespace Machine

/-- The resolve of a program before its first step. -/
def start (options : Options α) (p : LinearProgram α) : Option (Machine α) := do
  let d ← Dense.ofProgram p
  let rhs ← d.rhsIndex
  if d.artificialStart < rhs then
    let (saved, d) ← d.setAside
    some ⟨.first options.maxIterations saved, d⟩
  else some ⟨.second options.maxIterations, d⟩

/-- A step of the first phase. At an optimum it goes on if the artificial columns are zero. -/
def stepFirst (options : Options α) (budget : Nat) (saved : Dense.Saved α) (d : Dense α) :
    Option (Machine α) := do
  let rhs ← predecessor saved.width
  match ← d.round options.tolerance rhs budget with
  | .inr next => some ⟨.first (budget - 1) saved, next⟩
  | .inl .unbounded => some ⟨.done .infeasible, d⟩
  | .inl .iterationLimit => some ⟨.done .iterationLimit, d⟩
  | .inl .optimal =>
    let last ← d.objectiveIndex
    let objective ← d.data[last]?
    let value ← objective[rhs]?
    if value < -options.tolerance then some ⟨.done .infeasible, d⟩
    else some ⟨.clearing 0 saved, d⟩

/-- A step between the phases: pass the row, or remove it, or go on with the second phase. -/
def stepClearing (options : Options α) (row : Nat) (saved : Dense.Saved α) (d : Dense α) :
    Option (Machine α) :=
  if row < d.basics.length then do
    let basic ← d.basics[row]?
    if basic < d.artificialStart then some ⟨.clearing (row + 1) saved, d⟩
    else
      match ← d.replacement options.tolerance row with
      | some column => (d.pivot row column).map fun next => ⟨.clearing (row + 1) saved, next⟩
      | none => (d.dropRow row).map fun next => ⟨.clearing row saved, next⟩
  else (d.restore saved).map fun next => ⟨.second options.maxIterations, next⟩

/-- A step of the second phase, in which the artificial columns do not enter. -/
def stepSecond (options : Options α) (budget : Nat) (d : Dense α) : Option (Machine α) := do
  match ← d.round options.tolerance d.artificialStart budget with
  | .inr next => some ⟨.second (budget - 1), next⟩
  | .inl ending => some ⟨.done ending.status, d⟩

/-- The next step. A resolve that is done stays as it is. -/
def step (options : Options α) (s : Machine α) : Option (Machine α) :=
  match s.stage with
  | .first budget saved => stepFirst options budget saved s.tableau
  | .clearing row saved => stepClearing options row saved s.tableau
  | .second budget => stepSecond options budget s.tableau
  | .done _ => some s

/-- The resolve of a program after a number of steps. -/
def after (options : Options α) (p : LinearProgram α) : Nat → Option (Machine α)
  | 0 => start options p
  | n + 1 => (after options p n).bind (step options)

end Machine

end WarmSimplex.TwoPhase
