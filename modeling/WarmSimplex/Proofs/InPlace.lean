import WarmSimplex.Proofs.Shape
import WarmSimplex.InPlace

/-!
# Failures in place

A change in place either succeeds or leaves the tableau as it was. For a pivot and a single constraint
this is so because everything is checked before the first write. An equation is checked in between, and
there the reason is another one: what lets the first of its constraints pass lets the second one pass.

Of the arithmetic only this much is used, that multiplying by one or minus one makes no number infinite or
undefined. In exact arithmetic the two rows of an equation are opposite, so their slacks add up to zero.
-/

namespace WarmSimplex

/-! ## What is accepted -/

section Accepted

variable {α : Type} [Scalar α] {t u : Tableau α}

/-- Multiplying by the signs of the relations keeps what is finite finite, and nothing else becomes so. -/
def SignsKeepFinite (α : Type) [Scalar α] : Prop :=
  ∀ x : α, Scalar.isFinite (1 * x) = Scalar.isFinite x ∧ Scalar.isFinite (-1 * x) = Scalar.isFinite x

/-- Numbers have no fault if all of them are finite. -/
theorem nonFinite?_eq_none_iff {place : Place} {values : List α} :
    nonFinite? place values = none ↔ ∀ x ∈ values, Scalar.isFinite x = true := by
  rw [nonFinite?, Option.map_eq_none_iff, List.find?_eq_none]
  constructor
  · intro hnone x hx
    obtain ⟨j, hj⟩ := List.mem_iff_getElem?.mp hx
    simpa using hnone (x, j) (List.mem_zipIdx_iff_getElem?.mpr hj)
  · rintro hall ⟨x, j⟩ hx
    simpa using hall x (List.mem_of_getElem? (List.mem_zipIdx_iff_getElem?.mp hx))

namespace Tableau

/-- A constraint can be added: its coefficients are over columns there are, and its numbers are finite. -/
structure Admits (t : Tableau α) (coefficients : List α) (rhs : α) : Prop where
  width : coefficients.length ≤ t.columnCount
  coefficients : ∀ x ∈ coefficients, Scalar.isFinite x = true
  rhs : Scalar.isFinite rhs = true

/-- More columns admit no fewer constraints. -/
theorem Admits.mono {coefficients : List α} {rhs : α} (h : t.Admits coefficients rhs)
    (hcolumns : t.columnCount ≤ u.columnCount) : u.Admits coefficients rhs :=
  ⟨h.width.trans hcolumns, h.coefficients, h.rhs⟩

/-- A constraint in `≤` form has no fault if it can be added. -/
theorem appendFault?_eq_none_iff {c : StoredConstraint α} :
    t.appendFault? c = none ↔ t.Admits c.coefficients c.label.rhs := by
  rw [appendFault?]
  split
  · rename_i hwide
    simp only [reduceCtorEq, false_iff]
    exact fun h => absurd h.width (not_le.mpr hwide)
  · rename_i hwidth
    rw [Option.orElse_eq_none, nonFinite?_eq_none_iff, nonFinite?_eq_none_iff,
      List.forall_mem_singleton]
    exact ⟨fun h => ⟨not_lt.mp hwidth, h.1, h.2⟩, fun h => ⟨h.coefficients, h.rhs⟩⟩

/-- The `≤` form of a constraint can be added if the constraint can. -/
theorem admits_stored (hsigns : SignsKeepFinite α) {c : Constraint α} {s : StoredConstraint α}
    (hs : c.stored? = some s) :
    t.Admits s.coefficients s.label.rhs ↔ t.Admits c.coefficients c.rhs := by
  obtain ⟨sign, hsign, rfl⟩ := Option.map_eq_some_iff.mp hs
  have hfinite : ∀ x : α, Scalar.isFinite (sign * x) = Scalar.isFinite x := by
    intro x
    cases hrelation : c.relation <;> rw [hrelation] at hsign <;> cases hsign
    · exact (hsigns x).1
    · exact (hsigns x).2
  have hall : (∀ x ∈ c.coefficients.map (sign * ·), Scalar.isFinite x = true) ↔
      ∀ x ∈ c.coefficients, Scalar.isFinite x = true := by
    simp only [List.forall_mem_map, hfinite]
  constructor
  · rintro ⟨hwidth, hcoefficients, hrhs⟩
    exact ⟨by simpa using hwidth, hall.mp hcoefficients, by rwa [← hfinite]⟩
  · rintro ⟨hwidth, hcoefficients, hrhs⟩
    exact ⟨by simpa using hwidth, hall.mpr hcoefficients, by rwa [hfinite]⟩

/-- An inequality is accepted exactly if it can be added. -/
theorem addConstraint_accepted_iff (hsigns : SignsKeepFinite α) {c : Constraint α}
    (hrelation : c.relation ≠ .eq) :
    (∃ next, t.addConstraint c = .ok next) ↔ t.Admits c.coefficients c.rhs := by
  obtain ⟨s, hs⟩ : ∃ s, c.stored? = some s := by
    obtain ⟨name, coefficients, relation, rhs⟩ := c
    cases relation with
    | le => exact ⟨_, rfl⟩
    | ge => exact ⟨_, rfl⟩
    | eq => exact absurd rfl hrelation
  rw [← admits_stored hsigns hs, ← appendFault?_eq_none_iff]
  constructor
  · rintro ⟨next, hnext⟩
    obtain ⟨_, hs', happend⟩ := append_of_addConstraint hnext
    cases hs.symm.trans hs'
    exact (append_eq_ok_iff.mp happend).1
  · intro hfault
    refine ⟨t.appendStored s, ?_⟩
    rw [addConstraint, hs]
    exact append_eq_ok_iff.mpr ⟨hfault, rfl⟩

/-- A constraint that is added makes one more row and one more column. -/
theorem counts_of_addConstraint {c : Constraint α} (h : t.addConstraint c = .ok u) :
    u.rowCount = t.rowCount + 1 ∧ u.columnCount = t.columnCount + 1 := by
  obtain ⟨s, _, happend⟩ := append_of_addConstraint h
  obtain ⟨_, rfl⟩ := append_eq_ok_iff.mp happend
  exact ⟨rowCount_appendStored t s, columnCount_appendStored t s⟩

/-- The second constraint of an equation is accepted if the first one was. -/
theorem addConstraint_after (hsigns : SignsKeepFinite α) {first : String} {coefficients : List α}
    {rhs : α} (h : t.addConstraint ⟨first, coefficients, .le, rhs⟩ = .ok u) (second : String) :
    ∃ next, u.addConstraint ⟨second, coefficients, .ge, rhs⟩ = .ok next := by
  have hcolumns : t.columnCount ≤ u.columnCount := by
    rw [(counts_of_addConstraint h).2]
    exact Nat.le_succ _
  have hadmits := (addConstraint_accepted_iff hsigns (by simp)).mp ⟨u, h⟩
  exact (addConstraint_accepted_iff hsigns (by simp)).mpr (hadmits.mono hcolumns)

/-- An equation that is added makes two rows in `≤` form, the second one negated. -/
theorem addEquality_eq_ok {next : Tableau α} {name : String} {coefficients : List α} {rhs : α}
    (h : t.addEquality name coefficients rhs = .ok next) : coefficients.length ≤ t.columnCount ∧
      next = (t.appendStored ⟨coefficients.map (1 * ·), ⟨name ++ "_le", .le, 1 * rhs⟩⟩).appendStored
        ⟨coefficients.map (-1 * ·), ⟨name ++ "_ge", .ge, -1 * rhs⟩⟩ := by
  obtain ⟨upper, hupper, hlower⟩ := addConstraint_of_addEquality h
  obtain ⟨hfault, rfl⟩ := append_eq_ok_iff.mp hupper
  obtain ⟨_, rfl⟩ := append_eq_ok_iff.mp hlower
  exact ⟨by simpa using (appendFault?_eq_none_iff.mp hfault).width, rfl⟩

/-- An equation is accepted exactly if it can be added. -/
theorem addEquality_accepted_iff (hsigns : SignsKeepFinite α) (name : String) {coefficients : List α}
    {rhs : α} : (∃ next, t.addEquality name coefficients rhs = .ok next) ↔ t.Admits coefficients rhs := by
  constructor
  · rintro ⟨next, hnext⟩
    obtain ⟨upper, hupper, _⟩ := addConstraint_of_addEquality hnext
    exact (addConstraint_accepted_iff hsigns (by simp)).mp ⟨upper, hupper⟩
  · intro hadmits
    obtain ⟨upper, hupper⟩ := (addConstraint_accepted_iff hsigns
      (c := ⟨name ++ "_le", coefficients, .le, rhs⟩) (by simp)).mpr hadmits
    obtain ⟨next, hnext⟩ := addConstraint_after hsigns hupper (name ++ "_ge")
    refine ⟨next, ?_⟩
    rw [addEquality, if_neg (not_lt.mpr hadmits.width), hupper]
    exact hnext

/-- What keeps an equation from being added: its length, a coefficient, or its right-hand side. -/
theorem not_admits_iff {coefficients : List α} {rhs : α} : ¬t.Admits coefficients rhs ↔
    t.columnCount < coefficients.length ∨ (∃ x ∈ coefficients, Scalar.isFinite x = false) ∨
      Scalar.isFinite rhs = false := by
  constructor
  · intro hnot
    by_contra hnone
    simp only [not_or, not_exists, not_and, not_lt, Bool.not_eq_false] at hnone
    exact hnot ⟨hnone.1, hnone.2.1, hnone.2.2⟩
  · rintro (hwide | ⟨x, hx, hfinite⟩ | hfinite) h
    · exact absurd h.width (not_le.mpr hwide)
    · rw [h.coefficients x hx] at hfinite
      cases hfinite
    · rw [h.rhs] at hfinite
      cases hfinite

end Tableau

end Accepted

/-! ## What a change in place does -/

section Outcomes

variable {α β : Type} {t u : Tableau α}

/-- The outcome of a change that takes the place of the tableau if it succeeds, and leaves it otherwise. -/
def Tableau.allOrNothing (t : Tableau α) (change : Except (TableauError α) (Tableau α × β)) :
    EStateM.Result (TableauError α) (Tableau α) β :=
  match change with
  | .ok (next, result) => .ok result next
  | .error fault => .error fault t

namespace Tableau

/-- It succeeds with the tableau and the result of the change. -/
theorem allOrNothing_eq_ok_iff {change : Except (TableauError α) (Tableau α × β)} {result : β} :
    t.allOrNothing change = .ok result u ↔ change = .ok (u, result) := by
  rcases change with fault | ⟨next, made⟩
  · simp [allOrNothing]
  · simp [allOrNothing, and_comm]

/-- It fails if the change does, and leaves the tableau. -/
theorem allOrNothing_eq_error_iff {change : Except (TableauError α) (Tableau α × β)}
    {fault : TableauError α} :
    t.allOrNothing change = .error fault u ↔ change = .error fault ∧ u = t := by
  rcases change with refused | ⟨next, made⟩
  · simp [allOrNothing, eq_comm (a := u)]
  · simp [allOrNothing]

end Tableau

namespace InPlace

variable [Scalar α]

/-- A pivot in place is made or leaves everything. -/
theorem run_pivot (row column : ℕ) :
    (pivot row column).run t = t.allOrNothing ((t.pivot row column).map (·, ())) := by
  rw [pivot, EStateM.run_bind, EStateM.run_get, Tableau.pivot]
  dsimp only
  split
  · split <;> rfl
  · rfl

/-- A constraint that is added in place is added or leaves everything: its column is written after all
checks. -/
theorem run_append (c : StoredConstraint α) :
    (append c).run t = t.allOrNothing ((t.append c).map (·, t.rowCount)) := by
  rw [append, EStateM.run_bind, EStateM.run_get, Tableau.append]
  dsimp only
  rw [EStateM.run_bind]
  cases t.appendFault? c <;> rfl

/-- An inequality that is added in place is added or leaves everything. -/
theorem run_addConstraint (name : Option String) (coefficients : List α) (relation : Relation) (rhs : α) :
    (addConstraint name coefficients relation rhs).run t = t.allOrNothing
      ((t.addConstraint ⟨name.getD t.nextConstraintName, coefficients, relation, rhs⟩).map
        (·, t.rowCount)) := by
  rw [addConstraint, EStateM.run_bind, EStateM.run_get, Tableau.addConstraint]
  dsimp only
  cases (⟨name.getD t.nextConstraintName, coefficients, relation, rhs⟩ : Constraint α).stored? with
  | none => rfl
  | some s => exact run_append s

/-- An inequality that is added under a given name. -/
theorem run_addConstraint_some (name : String) (coefficients : List α) (relation : Relation) (rhs : α) :
    (addConstraint (some name) coefficients relation rhs).run t = t.allOrNothing
      ((t.addConstraint ⟨name, coefficients, relation, rhs⟩).map (·, t.rowCount)) :=
  run_addConstraint (some name) coefficients relation rhs

/-- An equation that is added in place is added or leaves everything, or it fails at its second constraint
and leaves the first one. -/
theorem run_addEquality_cases (t : Tableau α) (name : Option String) (coefficients : List α) (rhs : α) :
    (addEquality name coefficients rhs).run t = t.allOrNothing
        ((t.addEquality (name.getD t.nextConstraintName) coefficients rhs).map
          (·, (t.rowCount, t.rowCount + 1))) ∨
      ∃ upper fault,
        t.addConstraint ⟨name.getD t.nextConstraintName ++ "_le", coefficients, .le, rhs⟩ = .ok upper ∧
        upper.addConstraint ⟨name.getD t.nextConstraintName ++ "_ge", coefficients, .ge, rhs⟩ =
          .error fault ∧
        (addEquality name coefficients rhs).run t = .error fault upper := by
  rw [addEquality, EStateM.run_bind, EStateM.run_get, Tableau.addEquality]
  dsimp only
  split
  · exact .inl rfl
  · rw [EStateM.run_bind, run_addConstraint_some]
    cases hupper : t.addConstraint
        ⟨name.getD t.nextConstraintName ++ "_le", coefficients, .le, rhs⟩ with
    | error fault => exact .inl rfl
    | ok upper =>
      dsimp only [Except.map, Tableau.allOrNothing]
      rw [EStateM.run_bind, run_addConstraint_some, (Tableau.counts_of_addConstraint hupper).1]
      cases hlower : upper.addConstraint
          ⟨name.getD t.nextConstraintName ++ "_ge", coefficients, .ge, rhs⟩ with
      | error fault => exact .inr ⟨upper, fault, rfl, hlower, rfl⟩
      | ok next => exact .inl rfl

/-- An edit that is made in place is made or leaves everything, but for an equation that fails at its second
constraint. -/
theorem run_edit_cases (t : Tableau α) (e : Edit α) :
    (edit e).run t = t.allOrNothing (t.perform e) ∨
      ∃ first second coefficients rhs upper fault,
        t.addConstraint ⟨first, coefficients, .le, rhs⟩ = .ok upper ∧
        upper.addConstraint ⟨second, coefficients, .ge, rhs⟩ = .error fault ∧
        (edit e).run t = .error fault upper := by
  cases e with
  | setTolerances tolerance pivotTolerance => exact .inl rfl
  | appendRow coefficients rhs =>
    left
    rw [edit, EStateM.run_bind, EStateM.run_get]
    dsimp only
    rw [EStateM.run_bind, run_append, Tableau.perform, Tableau.appendRow]
    cases t.append ⟨coefficients, ⟨t.nextConstraintName, .le, rhs⟩⟩ <;> rfl
  | addConstraint name coefficients relation rhs =>
    left
    rw [edit, EStateM.run_bind, run_addConstraint, Tableau.perform]
    cases t.addConstraint ⟨name.getD t.nextConstraintName, coefficients, relation, rhs⟩ <;> rfl
  | addEquality name coefficients rhs =>
    rw [edit, EStateM.run_bind, Tableau.perform]
    rcases run_addEquality_cases t name coefficients rhs with hrun | ⟨upper, fault, hupper, hlower, hrun⟩
    · rw [hrun]
      cases t.addEquality (name.getD t.nextConstraintName) coefficients rhs <;> exact .inl rfl
    · rw [hrun]
      exact .inr ⟨_, _, coefficients, rhs, upper, fault, hupper, hlower, rfl⟩
  | pivot row column =>
    left
    rw [edit, EStateM.run_bind, run_pivot, Tableau.perform]
    cases t.pivot row column <;> rfl
  | solve options => exact .inl rfl

/-- An equation that is added in place is added or leaves everything: its second constraint never fails
after the first one was written. -/
theorem run_addEquality (hsigns : SignsKeepFinite α) (name : Option String) (coefficients : List α)
    (rhs : α) : (addEquality name coefficients rhs).run t = t.allOrNothing
      ((t.addEquality (name.getD t.nextConstraintName) coefficients rhs).map
        (·, (t.rowCount, t.rowCount + 1))) := by
  rcases run_addEquality_cases t name coefficients rhs with hrun | ⟨upper, fault, hupper, hlower, _⟩
  · exact hrun
  · obtain ⟨next, hnext⟩ := Tableau.addConstraint_after hsigns hupper _
    cases hnext.symm.trans hlower

/-- An edit that is made in place is made or leaves everything. -/
theorem run_edit (hsigns : SignsKeepFinite α) (e : Edit α) :
    (edit e).run t = t.allOrNothing (t.perform e) := by
  rcases run_edit_cases t e with hrun | ⟨_, second, _, _, upper, fault, hupper, hlower, _⟩
  · exact hrun
  · obtain ⟨next, hnext⟩ := Tableau.addConstraint_after hsigns hupper second
    cases hnext.symm.trans hlower

end InPlace

end Outcomes

/-! ## The rows of an equation -/

/-- Reduction against one more row ends with an elimination. -/
theorem Equation.reduce_concat {α : Type} [Scalar α] (e : Equation α) (rows : List (Row α)) (r : Row α) :
    e.reduce (rows ++ [r]) = (e.reduce rows).eliminate r.toEquation r.basic := by
  rw [reduce, List.foldl_append]
  rfl

/-- Two equations over a number of columns, opposite there, each with a slack of its own in one of the two
columns after these. -/
structure Equation.Mirrored (columns : ℕ) (upper lower : Equation ℚ) : Prop where
  upperWidth : upper.coefficients.length = columns + 1
  lowerWidth : lower.coefficients.length = columns + 2
  opposite : ∀ j < columns, lower.coefficient j = -upper.coefficient j
  rhs : lower.rhs = -upper.rhs
  upperSlack : upper.coefficient columns = 1
  lowerSlacks : lower.coefficient columns = 0 ∧ lower.coefficient (columns + 1) = 1

namespace Equation.Mirrored

variable {columns : ℕ} {upper lower : Equation ℚ}

/-- Elimination with an equation that mentions none of the slacks keeps two equations opposite. -/
theorem eliminate (h : Mirrored columns upper lower) {e : Equation ℚ}
    (hwidth : e.coefficients.length = columns + 1) (hslack : e.coefficient columns = 0) {column : ℕ}
    (hcolumn : column < columns) :
    Mirrored columns (upper.eliminate e column) (lower.eliminate (e.addColumn 0) column) := by
  have hupper : e.coefficients.length = upper.coefficients.length := hwidth.trans h.upperWidth.symm
  have hlower : (e.addColumn 0).coefficients.length = lower.coefficients.length := by
    rw [length_addColumn, hwidth, h.lowerWidth]
  have hlast : e.coefficient (columns + 1) = 0 := coefficient_eq_zero_of_le hwidth.le
  refine ⟨?upperWidth, ?lowerWidth, fun j hj => ?opposite, ?rhs, ?upperSlack, ?lower, ?lowerSlack⟩
  case upperWidth => rw [length_eliminate column hupper, h.upperWidth]
  case lowerWidth => rw [length_eliminate column hlower, h.lowerWidth]
  case opposite =>
    rw [coefficient_eliminate hupper, coefficient_eliminate hlower, coefficient_addColumn_zero,
      h.opposite j hj, h.opposite column hcolumn]
    split <;> ring
  case rhs =>
    rw [rhs_eliminate, rhs_eliminate, h.rhs, h.opposite column hcolumn]
    change -upper.rhs - -upper.coefficient column * e.rhs = _
    ring
  case upperSlack =>
    rw [coefficient_eliminate hupper, if_neg hcolumn.ne', hslack, mul_zero, sub_zero, h.upperSlack]
  case lower =>
    rw [coefficient_eliminate hlower, if_neg hcolumn.ne', coefficient_addColumn_zero, hslack, mul_zero,
      sub_zero, h.lowerSlacks.1]
  case lowerSlack =>
    rw [coefficient_eliminate hlower, if_neg (hcolumn.trans (Nat.lt_succ_self _)).ne',
      coefficient_addColumn_zero, hlast, mul_zero, sub_zero, h.lowerSlacks.2]

/-- Reduction against rows that mention none of the slacks keeps two equations opposite. -/
theorem reduce (h : Mirrored columns upper lower) {rows : List (Row ℚ)}
    (hrows : ∀ r ∈ rows, r.coefficients.length = columns + 1 ∧ r.coefficient columns = 0 ∧
      r.basic < columns) :
    Mirrored columns (upper.reduce rows)
      (lower.reduce (rows.map fun r => { r with toEquation := r.addColumn 0 })) := by
  induction rows generalizing upper lower with
  | nil => exact h
  | cons r rest ih =>
    obtain ⟨⟨hwidth, hslack, hbasic⟩, hrest⟩ := List.forall_mem_cons.mp hrows
    exact ih (h.eliminate hwidth hslack hbasic) hrest

/-- Where both hold, the slacks add up to zero. -/
theorem slacks_eq_zero (h : Mirrored columns upper lower) {v : ℕ → ℚ}
    (hupper : upper.Holds v) (hlower : lower.Holds v) : v columns + v (columns + 1) = 0 := by
  have hopposite : ∑ j ∈ Finset.range columns, lower.coefficient j * v j =
      -∑ j ∈ Finset.range columns, upper.coefficient j * v j := by
    rw [← Finset.sum_neg_distrib]
    apply Finset.sum_congr rfl
    intro j hj
    rw [h.opposite j (Finset.mem_range.mp hj), neg_mul]
  rw [Holds, eval, h.upperWidth, Finset.sum_range_succ, h.upperSlack] at hupper
  rw [Holds, eval, h.lowerWidth, Finset.sum_range_succ, Finset.sum_range_succ, h.lowerSlacks.1,
    h.lowerSlacks.2, hopposite, h.rhs] at hlower
  linarith

end Equation.Mirrored

namespace Tableau

variable {t u : Tableau ℚ} {n m : ℕ}

/-- The equations of the two constraints of an equation are opposite before they are reduced. -/
theorem mirrored_newEquation {coefficients : List ℚ} (hwidth : coefficients.length ≤ t.columnCount)
    (hcolumns : u.columnCount = t.columnCount + 1) (rhs : ℚ) :
    Equation.Mirrored t.columnCount (t.newEquation (coefficients.map (1 * ·)) (1 * rhs))
      (u.newEquation (coefficients.map (-1 * ·)) (-1 * rhs)) := by
  have hupper : (coefficients.map (1 * ·)).length ≤ t.columnCount := by simpa using hwidth
  have hlower : (coefficients.map (-1 * ·)).length ≤ u.columnCount := by
    rw [List.length_map, hcolumns]
    exact hwidth.trans (Nat.le_succ _)
  have hpast : coefficients.getD t.columnCount 0 = 0 := List.getD_eq_default _ _ hwidth
  refine ⟨length_newEquation hupper _, ?_, fun j hj => ?_, ?_, coefficient_newEquation_slack hupper _,
    ?_, ?_⟩
  · rw [length_newEquation hlower, hcolumns]
  · rw [coefficient_newEquation hupper, coefficient_newEquation hlower, if_neg hj.ne, hcolumns,
      if_neg (hj.trans (Nat.lt_succ_self _)).ne, Scalar.getD_map_mul, Scalar.getD_map_mul]
    ring
  · change -1 * rhs = -(1 * rhs)
    ring
  · rw [coefficient_newEquation hlower, hcolumns, if_neg (Nat.lt_succ_self _).ne, Scalar.getD_map_mul,
      hpast, mul_zero]
  · rw [← hcolumns]
    exact coefficient_newEquation_slack hlower _

/-- A further column without coefficients changes no equation. -/
theorem holds_addZeroColumn {v : ℕ → ℚ} : t.addZeroColumn.Holds v ↔ t.Holds v := by
  refine List.forall_mem_map.trans (forall₂_congr fun r _ => ?_)
  change (r.addColumn 0).eval v = _ ↔ _
  rw [Equation.eval_addColumn, zero_mul, add_zero]
  rfl

/-- A point meets the rows after a constraint was added if it meets those before and the new one. -/
theorem holds_appendStored {c : StoredConstraint ℚ} {v : ℕ → ℚ} :
    (t.appendStored c).Holds v ↔ t.addZeroColumn.Holds v ∧
      ((t.newEquation c.coefficients c.label.rhs).reduce t.addZeroColumn.rows).Holds v := by
  change (∀ r ∈ t.addZeroColumn.rows ++ [_], r.Holds v) ↔ _
  rw [List.forall_mem_append, List.forall_mem_singleton]
  rfl

/-- The rows with a further column after a constraint was added. -/
theorem rows_addZeroColumn_appendStored (t : Tableau ℚ) (c : StoredConstraint ℚ) :
    (t.appendStored c).addZeroColumn.rows =
      t.addZeroColumn.rows.map (fun r => { r with toEquation := r.addColumn 0 }) ++
        [⟨((t.newEquation c.coefficients c.label.rhs).reduce t.addZeroColumn.rows).addColumn 0,
          t.columnCount, c.label⟩] := by
  change (t.addZeroColumn.rows ++ [_]).map _ = _
  rw [List.map_append, List.map_singleton]

/-- The rows with a column for a new slack mention it nowhere. -/
theorem HasShape.wider_rows (ht : t.HasShape n m) : ∀ r ∈ t.addZeroColumn.rows,
    r.coefficients.length = t.columnCount + 1 ∧ r.coefficient t.columnCount = 0 ∧
      r.basic < t.columnCount := by
  refine List.forall_mem_map.mpr fun r hr => ?_
  have hwidth : r.coefficients.length = t.columnCount := (ht.width r hr).trans ht.columns.symm
  refine ⟨?_, ?_, ht.columns.symm ▸ ht.basic_lt r hr⟩
  · rw [Equation.length_addColumn, hwidth]
  · rw [Equation.coefficient_addColumn, if_pos hwidth.symm]

/-- At a point that meets the rows after an equation was added, its two slacks add up to zero. -/
theorem HasShape.slacks_of_addEquality (ht : t.HasShape n m) {name : String} {coefficients : List ℚ}
    {rhs : ℚ} (h : t.addEquality name coefficients rhs = .ok u) {v : ℕ → ℚ} (hv : u.Holds v) :
    v (u.slackColumn t.rowCount) + v (u.slackColumn (t.rowCount + 1)) = 0 := by
  obtain ⟨hwidth, rfl⟩ := addEquality_eq_ok h
  have hmirrored := (mirrored_newEquation hwidth (columnCount_appendStored t
    ⟨coefficients.map (1 * ·), ⟨name ++ "_le", .le, 1 * rhs⟩⟩) rhs).reduce ht.wider_rows
  obtain ⟨hrows, hlower⟩ := holds_appendStored.mp hv
  obtain ⟨_, hupper⟩ := holds_appendStored.mp (holds_addZeroColumn.mp hrows)
  -- the second constraint is not reduced against the first one, since it does not mention its slack
  rw [rows_addZeroColumn_appendStored, Equation.reduce_concat,
    Equation.eliminate_of_zero hmirrored.lowerSlacks.1] at hlower
  have hsum := hmirrored.slacks_eq_zero hupper hlower
  rw [ht.columns, ← ht.structural, ← ht.rowCount] at hsum
  exact hsum

end Tableau

/-! ## Failures and equations -/

section Equations

variable {α : Type} [Scalar α] {t u : Tableau α} {n m : ℕ}

/-- An equation that is added makes two rows with their slacks, one after the other. -/
theorem Tableau.HasShape.gains_of_addEquality (ht : t.HasShape n m) {name : String}
    {coefficients : List α} {rhs : α} (h : t.addEquality name coefficients rhs = .ok u) :
    ∃ middle, t.GainsConstraint middle ∧ middle.GainsConstraint u := by
  obtain ⟨middle, hupper, hlower⟩ := Tableau.addConstraint_of_addEquality h
  obtain ⟨_, hmiddle⟩ := (ht.addConstraint hupper).shape
  obtain ⟨_, _, hfirst⟩ := Tableau.append_of_addConstraint hupper
  obtain ⟨_, _, hsecond⟩ := Tableau.append_of_addConstraint hlower
  exact ⟨middle, ht.gainsConstraint hfirst, hmiddle.gainsConstraint hsecond⟩

/-- What there is to know about adding an equation in place: what makes it fail, that this is before its
first constraint, and what it adds. -/
structure Tableau.AddsEquation (t : Tableau α) (name : Option String) (coefficients : List α) (rhs : α) :
    Prop where
  fails_iff : (∃ fault left, (InPlace.addEquality name coefficients rhs).run t = .error fault left) ↔
    t.columnCount < coefficients.length ∨ (∃ x ∈ coefficients, Scalar.isFinite x = false) ∨
      Scalar.isFinite rhs = false
  second : ∀ first index middle,
    (InPlace.addConstraint first coefficients .le rhs).run t = .ok index middle →
      ∀ name, ∃ next last, (InPlace.addConstraint name coefficients .ge rhs).run middle = .ok next last
  adds : ∀ pair last, (InPlace.addEquality name coefficients rhs).run t = .ok pair last →
    pair = (t.rowCount, t.rowCount + 1) ∧
      ∃ middle, t.GainsConstraint middle ∧ middle.GainsConstraint last

/-- An equation that is added in place succeeds with the pair of the next two indices. -/
theorem InPlace.addEquality_eq_ok (hsigns : SignsKeepFinite α) {name : Option String}
    {coefficients : List α} {rhs : α} {pair : ℕ × ℕ}
    (h : (addEquality name coefficients rhs).run t = .ok pair u) :
    t.addEquality (name.getD t.nextConstraintName) coefficients rhs = .ok u ∧
      pair = (t.rowCount, t.rowCount + 1) := by
  rw [run_addEquality hsigns, Tableau.allOrNothing_eq_ok_iff] at h
  obtain ⟨next, hnext, heq⟩ := map_eq_ok h
  cases heq
  exact ⟨hnext, rfl⟩

/-- Adding an equation in place fails before its first constraint or adds two rows. -/
theorem Tableau.HasShape.addsEquation (ht : t.HasShape n m) (hsigns : SignsKeepFinite α)
    (name : Option String) (coefficients : List α) (rhs : α) : t.AddsEquation name coefficients rhs where
  fails_iff := by
    rw [← Tableau.not_admits_iff, ← Tableau.addEquality_accepted_iff hsigns
      (name.getD t.nextConstraintName)]
    simp only [InPlace.run_addEquality hsigns, Tableau.allOrNothing_eq_error_iff]
    cases t.addEquality (name.getD t.nextConstraintName) coefficients rhs <;> simp [Except.map]
  second first index middle hmiddle name := by
    rw [InPlace.run_addConstraint, Tableau.allOrNothing_eq_ok_iff] at hmiddle
    obtain ⟨next, hnext, heq⟩ := map_eq_ok hmiddle
    cases heq
    obtain ⟨last, hlast⟩ := Tableau.addConstraint_after hsigns hnext
      (name.getD middle.nextConstraintName)
    refine ⟨middle.rowCount, last, ?_⟩
    rw [InPlace.run_addConstraint, hlast]
    rfl
  adds pair last hlast := by
    obtain ⟨hadded, hpair⟩ := InPlace.addEquality_eq_ok hsigns hlast
    exact ⟨hpair, ht.gains_of_addEquality hadded⟩

end Equations

/-- Exact arithmetic knows only finite numbers. -/
theorem signsKeepFinite_rat : SignsKeepFinite ℚ := fun _ => ⟨rfl, rfl⟩

/-- An edit of a tableau in place does what the edit does, or fails and leaves every part of the tableau as
it was. Adding an equation fails for its length or for a number that is not finite, and never after its
first constraint; if it succeeds it adds two rows with their slacks. In exact arithmetic these add up to
zero wherever the rows hold. -/
theorem edits_in_place_all_or_nothing :
    (∀ {α : Type} [Scalar α], SignsKeepFinite α → ∀ {first : Tableau α}, first.IsInitial →
      ∀ history : List (Edit α),
        let reached := first.afterEdits history
        (∀ e, (InPlace.edit e).run reached = reached.allOrNothing (reached.perform e)) ∧
          (∀ e fault left, (InPlace.edit e).run reached = .error fault left → left = reached) ∧
          ∀ name coefficients rhs, reached.AddsEquation name coefficients rhs) ∧
      ∀ {first : Tableau ℚ}, first.IsInitial → ∀ (history : List (Edit ℚ)) name coefficients rhs pair last,
        (InPlace.addEquality name coefficients rhs).run (first.afterEdits history) = .ok pair last →
          ∀ v, last.Holds v → v (last.slackColumn pair.1) + v (last.slackColumn pair.2) = 0 := by
  constructor
  · intro α _ hsigns first hfirst history reached
    obtain ⟨n, k, hstart⟩ := hfirst.hasShape
    obtain ⟨m, hshape⟩ := (hstart.afterEdits history).shape
    refine ⟨InPlace.run_edit hsigns, fun e fault left hleft => ?_, hshape.addsEquation hsigns⟩
    rw [InPlace.run_edit hsigns, Tableau.allOrNothing_eq_error_iff] at hleft
    exact hleft.2
  · intro first hfirst history name coefficients rhs pair last hlast v hv
    obtain ⟨n, k, hstart⟩ := hfirst.hasShape
    obtain ⟨m, hshape⟩ := (hstart.afterEdits history).shape
    obtain ⟨hadded, rfl⟩ := InPlace.addEquality_eq_ok signsKeepFinite_rat hlast
    exact hshape.slacks_of_addEquality hadded hv

/-- After a solve, an equation with a coefficient too many, and one that cuts the optimum off. -/
theorem equations_in_place_after_solve :
    let first := (LinearProgram.ofMatrix [[1, 1]] [4] [2, 1]).slackTableau
    let reached := first.afterEdits [.solve {}]
    SignsKeepFinite ℚ ∧ first.IsInitial ∧
      (∃ fault left, (InPlace.edit (.addEquality none [1, 1, 1, 1] 1)).run reached = .error fault left ∧
        left = reached) ∧
      ∃ last v, (InPlace.addEquality none [1] 1).run reached = .ok (1, 2) last ∧
        (∃ middle, reached.GainsConstraint middle ∧ middle.GainsConstraint last) ∧
        last.Holds v ∧ v 3 = -3 ∧ v (last.slackColumn 1) + v (last.slackColumn 2) = 0 := by
  intro first reached
  have hfirst : first.IsInitial := .inl ⟨[[1, 1]], [4], [2, 1], by with_unfolding_all rfl⟩
  obtain ⟨_, hleaves, hadds⟩ := edits_in_place_all_or_nothing.1 signsKeepFinite_rat hfirst [.solve {}]
  refine ⟨signsKeepFinite_rat, hfirst, ?_, ?_⟩
  · obtain ⟨fault, left, hleft⟩ := (hadds none [1, 1, 1, 1] 1).fails_iff.mpr (.inl (by decide +kernel))
    have hedit : (InPlace.edit (.addEquality none [1, 1, 1, 1] 1)).run reached = .error fault left := by
      rw [InPlace.edit, EStateM.run_bind, hleft]
    exact ⟨fault, left, hedit, hleaves _ _ _ hedit⟩
  · cases hrun : (InPlace.addEquality none [1] 1).run reached with
    | error fault left =>
      rcases (hadds none [1] 1).fails_iff.mp ⟨fault, left, hrun⟩ with hwide | ⟨x, _, hx⟩ | hrhs
      · exact absurd hwide (by decide +kernel)
      · cases hx
      · cases hrhs
    | ok pair last =>
      have hcount : reached.rowCount = 1 := by decide +kernel
      obtain ⟨hpair, hgains⟩ := (hadds none [1] 1).adds pair last hrun
      obtain ⟨_, hlast⟩ := Tableau.addEquality_eq_ok (InPlace.addEquality_eq_ok signsKeepFinite_rat hrun).1
      have hholds : ∀ r ∈ last.rows, r.eval last.value = r.rhs := by
        rw [hlast]
        decide +kernel
      have hsum := edits_in_place_all_or_nothing.2 hfirst [.solve {}] none [1] 1 pair last hrun
        last.value hholds
      rw [hpair, hcount] at hsum ⊢
      exact ⟨last, last.value, rfl, hgains, hholds, by rw [hlast]; decide +kernel, hsum⟩

end WarmSimplex
