import WarmSimplex.Tableau

/-!
# Choosing a pivot

Each rule scans the tableau once, from the lowest index up, and moves on to a later entry only if
that one is better by more than the tolerance. Entries that are as good, up to the tolerance, as
the one in hand therefore lose to it.

A scan compares with the entry in hand only. Being within a tolerance is not transitive, so the
result need not be the lowest index within the tolerance of the best entry.
-/

namespace WarmSimplex

variable {α : Type} [Scalar α]

/-- Which column of negative reduced cost enters the basis. -/
inductive EnteringRule where
  /-- The most negative reduced cost. -/
  | dantzig
  /-- The lowest index. -/
  | bland
deriving DecidableEq, Repr

/-- The entry in hand after a scan from the left, in which a later entry takes over if it beats the
one in hand. -/
def scan {β : Type} (beats : β → β → Bool) : List β → Option β
  | [] => none
  | first :: rest => some (rest.foldl (fun held next => if beats next held then next else held) first)

/-- A scan ends without an entry only if there was none. -/
@[simp] theorem scan_eq_none_iff {β : Type} {beats : β → β → Bool} {entries : List β} :
    scan beats entries = none ↔ entries = [] := by
  cases entries <;> simp [scan]

/-- The fold of a scan ends with the entry in hand or a later one. -/
theorem foldl_scan_mem {β : Type} (beats : β → β → Bool) (held : β) (rest : List β) :
    rest.foldl (fun held next => if beats next held then next else held) held ∈ held :: rest := by
  induction rest generalizing held with
  | nil => simp
  | cons next rest ih =>
    simp only [List.foldl_cons]
    split
    · exact List.mem_cons_of_mem _ (ih next)
    · rcases List.mem_cons.1 (ih held) with h | h
      · exact List.mem_cons.2 (.inl h)
      · exact List.mem_cons_of_mem _ (List.mem_cons_of_mem _ h)

/-- A scan ends with one of the entries. -/
theorem mem_of_scan_eq_some {β : Type} {beats : β → β → Bool} {entries : List β} {found : β}
    (h : scan beats entries = some found) : found ∈ entries := by
  cases entries with
  | nil => simp [scan] at h
  | cons first rest =>
    simp only [scan, Option.some.injEq] at h
    exact h ▸ foldl_scan_mem beats first rest

/-- A row or column with the number that a rule ranks it by. -/
structure Ranked (α : Type) where
  index : Nat
  value : α

/-- Is one entry lower than another by more than the tolerance? -/
def Ranked.below (tolerance : α) (next held : Ranked α) : Bool :=
  decide (next.value < held.value - tolerance)

/-- Is a reduced cost not as high as the one in hand less the tolerance? Unlike `Ranked.below`, this
also holds if the two cannot be compared. -/
def Ranked.notAbove (tolerance : α) (next held : Ranked α) : Bool :=
  !decide (held.value - tolerance ≤ next.value)

/-- A column that may enter the basis on a dual pivot. -/
structure EnteringCandidate (α : Type) where
  column : Nat
  /-- The magnitude of the reduced cost over the coefficient. -/
  ratio : α
  /-- The entry of the column in the leaving row. -/
  coefficient : α

/-- Is one candidate's ratio lower than another's by more than the tolerance? -/
def EnteringCandidate.below (tolerance : α) (next held : EnteringCandidate α) : Bool :=
  decide (next.ratio < held.ratio - tolerance)

/-- Take the candidate that a scan ends with, then the one for the rest, up to the given number. -/
def rankCandidates (tolerance : α) : Nat → List (EnteringCandidate α) → List (EnteringCandidate α)
  | 0, _ => []
  | count + 1, candidates =>
    match scan (EnteringCandidate.below tolerance) candidates with
    | none => []
    | some best =>
      best :: rankCandidates tolerance count (candidates.eraseP (·.column == best.column))

namespace Tableau

/-- The rows that a dual pivot may take out of the basis, with their right-hand sides. -/
def infeasibleRows (t : Tableau α) : List (Ranked α) :=
  t.rows.zipIdx.filterMap fun (r, i) => if r.rhs < -t.tolerance then some ⟨i, r.rhs⟩ else none

/-- The row with the most negative right-hand side; none if the tableau is primal feasible. -/
def leavingRow? (t : Tableau α) : Option Nat :=
  (scan (Ranked.below t.tolerance) t.infeasibleRows).map (·.index)

/-- The columns with a negative coefficient in an equation, by rising column. -/
def candidatesIn (t : Tableau α) (e : Equation α) : List (EnteringCandidate α) :=
  e.coefficients.zipIdx.filterMap fun (a, column) =>
    if a < -t.tolerance then some ⟨column, Scalar.abs (t.reducedCost column / a), a⟩ else none

/-- The columns that may enter the basis on a dual pivot on a row, by rising column. -/
def dualCandidates (t : Tableau α) (row : Nat) : List (EnteringCandidate α) :=
  match t.rows[row]? with
  | none => []
  | some r => t.candidatesIn r.toEquation

/-- The candidates for a dual pivot on a row, best first: those after the first are for the case
that its pivot is refused. -/
def enteringCandidates (t : Tableau α) (row : Nat) : List (EnteringCandidate α) :=
  rankCandidates t.tolerance (t.dualCandidates row).length (t.dualCandidates row)

/-- The dual ratio test: the column with the lowest ratio in a row. None shows that the row cannot
be met. -/
def enteringColumn? (t : Tableau α) (row : Nat) : Option Nat :=
  (scan (EnteringCandidate.below t.tolerance) (t.dualCandidates row)).map (·.column)

/-- The columns that improve the objective, with their reduced costs. -/
def improvingColumns (t : Tableau α) : List (Ranked α) :=
  t.reducedCosts.zipIdx.filterMap fun (d, column) =>
    if d < -t.tolerance then some ⟨column, d⟩ else none

/-- The column that enters on a primal pivot; none if the tableau is dual feasible. -/
def primalEntering? (t : Tableau α) (rule : EnteringRule) : Option Nat :=
  match rule with
  | .bland => t.improvingColumns.head?.map (·.index)
  | .dantzig =>
    (scan (Ranked.notAbove t.tolerance) t.improvingColumns).map (·.index)

/-- The smallest entry that a primal ratio test considers. -/
def ratioThreshold (t : Tableau α) : α :=
  Scalar.larger t.tolerance t.pivotTolerance

/-- The rows that bound the increase of a column, with the increase that each allows. -/
def boundingRows (t : Tableau α) (column : Nat) : List (Ranked α) :=
  t.rows.zipIdx.filterMap fun (r, i) =>
    if t.ratioThreshold < r.entry column then some ⟨i, Scalar.larger r.rhs 0 / r.entry column⟩
    else none

/-- The primal ratio test: the row that bounds the increase of a column most tightly. None shows
that the column can grow without bound. -/
def primalLeaving? (t : Tableau α) (column : Nat) : Option Nat :=
  (scan (Ranked.below t.tolerance) (t.boundingRows column)).map (·.index)

/-- Does every row have an entry at the index? -/
def hasEntries (t : Tableau α) (index : Nat) : Bool :=
  t.rows.all fun r => decide (index < r.entries.length)

end Tableau

end WarmSimplex
