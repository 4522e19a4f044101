import WarmSimplex.Proofs.Tableau
import WarmSimplex.Tableau.Append

/-!
# What a tableau encodes

A tableau encodes costs and constraints if its rows have the solutions of the constraints, each
written with its own slack, and its objective row gives the costs of these solutions. It is also
canonical then, and carries the labels of the constraints.

Building a tableau establishes the encoding, and everything that changes a tableau keeps it: a pivot
on an entry other than zero, a new constraint, and another objective row that is priced out. A new
constraint may mention the slacks of older ones.
-/

namespace WarmSimplex

open TwoPhase (BasicRow)

namespace StoredConstraint

/-- The constraint without its slack. -/
def equation (c : StoredConstraint ℚ) : Equation ℚ := ⟨c.coefficients, c.label.rhs⟩

/-- The constraint holds as an equation, with its slack in the given column. -/
def HoldsWith (c : StoredConstraint ℚ) (slack : ℕ) (v : ℕ → ℚ) : Prop :=
  c.equation.eval v + v slack = c.label.rhs

end StoredConstraint

/-- Every constraint holds as an equation; the slacks are the columns from the given one on. -/
def SlackForm (firstSlack : ℕ) (given : List (StoredConstraint ℚ)) (v : ℕ → ℚ) : Prop :=
  ∀ (i : ℕ) (c : StoredConstraint ℚ), given[i]? = some c → c.HoldsWith (firstSlack + i) v

/-- The linear function with the given coefficients. -/
def costAt (costs : List ℚ) (v : ℕ → ℚ) : ℚ :=
  ∑ j ∈ Finset.range costs.length, costs.getD j 0 * v j

/-- A further constraint has the next column as its slack. -/
theorem slackForm_concat {firstSlack : ℕ} {given : List (StoredConstraint ℚ)}
    {c : StoredConstraint ℚ} {v : ℕ → ℚ} :
    SlackForm firstSlack (given ++ [c]) v ↔
      SlackForm firstSlack given v ∧ c.HoldsWith (firstSlack + given.length) v := by
  constructor
  · intro hall
    refine ⟨fun i d hd => hall i d ?_, hall given.length c (by simp)⟩
    rw [List.getElem?_append_left (List.getElem?_eq_some_iff.mp hd).1, hd]
  · rintro ⟨hgiven, hlast⟩ i d hd
    rcases lt_trichotomy i given.length with hi | rfl | hi
    · exact hgiven i d (by rwa [List.getElem?_append_left hi] at hd)
    · rw [List.getElem?_append_right le_rfl, Nat.sub_self] at hd
      exact (Option.some.inj hd) ▸ hlast
    · have hlength := (List.getElem?_eq_some_iff.mp hd).1
      rw [List.length_append, List.length_singleton] at hlength
      omega

namespace Tableau

/-- The tableau is a canonical form of the program with the given costs and constraints. -/
structure Encodes (t : Tableau ℚ) (costs : List ℚ) (given : List (StoredConstraint ℚ)) : Prop where
  canonical : t.dictionary.Canonical
  columns : t.columnCount = t.structuralCount + given.length
  labels : t.rows.map (·.label) = given.map (·.label)
  holds_iff : ∀ v, t.Holds v ↔ SlackForm t.structuralCount given v
  gap : ∀ v, t.Holds v → t.objective.gap v = costAt costs v

namespace Encodes

variable {t : Tableau ℚ} {costs : List ℚ} {given : List (StoredConstraint ℚ)}

/-- There is a row for each constraint. -/
theorem rowCount (ht : t.Encodes costs given) : t.rowCount = given.length := by
  have hlength := congrArg List.length ht.labels
  rwa [List.length_map, List.length_map] at hlength

/-- The row of a constraint has its label. -/
theorem exists_row (ht : t.Encodes costs given) {i : ℕ} {c : StoredConstraint ℚ}
    (hc : given[i]? = some c) : ∃ r, t.rows[i]? = some r ∧ r.label = c.label := by
  have hlabels := congrArg (·[i]?) ht.labels
  simpa only [List.getElem?_map, hc, Option.map_some, Option.map_eq_some_iff] using hlabels

/-- The encoding is about the rows, the objective row and the decision variables only. -/
theorem congr {u : Tableau ℚ} (ht : t.Encodes costs given) (hrows : u.rows = t.rows)
    (hobjective : u.objective = t.objective) (hdecisions : u.decisions = t.decisions) :
    u.Encodes costs given := by
  have hdictionary : u.dictionary = t.dictionary := by rw [dictionary, hrows, hobjective]; rfl
  have hcount : u.columnCount = t.columnCount := by rw [columnCount, hobjective]; rfl
  have hstructural : u.structuralCount = t.structuralCount := by rw [structuralCount, hdecisions]; rfl
  have hholds : ∀ v, u.Holds v ↔ t.Holds v := fun v => by rw [Holds, hrows]; rfl
  refine ⟨hdictionary ▸ ht.canonical, ?_, hrows ▸ ht.labels, fun v => ?_, fun v hv => ?_⟩
  · rw [hcount, hstructural, ht.columns]
  · rw [hholds, hstructural, ht.holds_iff]
  · rw [hobjective, ht.gap v ((hholds v).mp hv)]

/-- Other tolerances do not matter. -/
theorem withTolerances (ht : t.Encodes costs given) (tolerance pivotTolerance : Option ℚ) :
    (t.withTolerances tolerance pivotTolerance).Encodes costs given :=
  ht.congr rfl rfl rfl

/-- A pivot on an entry other than zero keeps the encoding. -/
theorem pivotAt (ht : t.Encodes costs given) {row column : ℕ} {r : Row ℚ}
    (hr : t.rows[row]? = some r) (hpivot : r.coefficient column ≠ 0) :
    (t.pivotAt row column).Encodes costs given := by
  have hsolved := ht.canonical.solved
  have hdictionary : (t.pivotAt row column).dictionary = t.dictionary.pivot row column :=
    dictionary_pivotAt hsolved hr hpivot
  have hrow := getElem?_dictionary_rows hr
  have hcount : (t.pivotAt row column).columnCount = t.columnCount := by
    have hcolumns := Dictionary.columns_pivot hsolved row column
    rwa [← hdictionary] at hcolumns
  have hstructural : (t.pivotAt row column).structuralCount = t.structuralCount := by
    rw [structuralCount, decisions_pivotAt]
    rfl
  have hholds : ∀ v, (t.pivotAt row column).Holds v ↔ t.Holds v := by
    intro v
    rw [← holds_dictionary, hdictionary, Dictionary.holds_pivot hsolved hrow hpivot,
      holds_dictionary]
  refine ⟨hdictionary ▸ Dictionary.canonical_pivot ht.canonical hrow hpivot, ?_, ?_,
    fun v => ?_, fun v hv => ?_⟩
  · rw [hcount, hstructural, ht.columns]
  · rw [labels_pivotAt, ht.labels]
  · rw [hholds, hstructural, ht.holds_iff]
  · have hv : t.Holds v := (hholds v).mp hv
    have hgap := Dictionary.gap_pivot hsolved row column (holds_dictionary.mpr hv)
    rw [← hdictionary] at hgap
    exact hgap.trans (ht.gap v hv)

/-- Another objective row gives other costs, once the basic columns are cleared from it. -/
theorem reprice (ht : t.Encodes costs given) {objective : Equation ℚ} {other : List ℚ}
    (hwidth : objective.coefficients.length = t.columnCount)
    (hgap : ∀ v, t.Holds v → objective.gap v = costAt other v) :
    ((t.withObjective objective).reprice).Encodes other given := by
  have hsolved : SolvedRows (t.withObjective objective).columnCount
      (t.withObjective objective).dictionary.rows := by
    rw [show (t.withObjective objective).columnCount = t.columnCount from hwidth]
    exact ht.canonical.solved
  have hdictionary := dictionary_reprice hsolved
  have hlength : (clearBasis objective t.dictionary.rows).coefficients.length = t.columnCount :=
    length_clearBasis hwidth ht.canonical.solved.width
  have hobjective : ((t.withObjective objective).reprice).objective =
      clearBasis objective t.dictionary.rows := congrArg Dictionary.objective hdictionary
  refine ⟨?_, ?_, ht.labels, ht.holds_iff, fun v hv => ?_⟩
  · rw [hdictionary]
    refine ⟨?_, fun r hr => coefficient_clearBasis hwidth ht.canonical.solved hr⟩
    rw [Dictionary.columns]
    exact hlength.symm ▸ ht.canonical.solved
  · rw [columnCount, hobjective, hlength, ht.columns]
    rfl
  · rw [hobjective, gap_clearBasis hwidth ht.canonical.solved.width
      (holds_dictionary.mpr hv)]
    exact hgap v hv

end Encodes

end Tableau

end WarmSimplex
