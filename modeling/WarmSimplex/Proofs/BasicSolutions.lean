import Mathlib.Tactic.LinearCombination
import WarmSimplex.Proofs.Dictionary.Bases
import WarmSimplex.Proofs.Duality

/-!
# The basic solutions of a changed program

With other right-hand sides a program keeps its coefficients, so the rows of a tableau stay as they are,
up to their right-hand sides. These move by what the rows say about any point that takes up the change.
The basis has one basic solution again, and it is read off the moved rows.

Constraints are taken as they were written. Later ones may mention the slacks of earlier ones. Whether the
basic solution is feasible is not asked here.
-/

namespace WarmSimplex

open TwoPhase (BasicRow)

/-! ## Displaced dictionaries -/

namespace Dictionary

/-- The dictionary with the same points, moved by a displacement. -/
def displace (d : Dictionary) (e : ℕ → ℚ) : Dictionary where
  rows := d.rows.map fun r => { r with rhs := r.rhs + r.eval e }
  objective := { d.objective with rhs := d.objective.rhs + d.objective.eval e }

variable {d : Dictionary} {e v : ℕ → ℚ}

/-- A displacement keeps the basis. -/
theorem basis_displace (d : Dictionary) (e : ℕ → ℚ) :
    (d.displace e).rows.map (·.basic) = d.rows.map (·.basic) := by
  rw [displace, List.map_map]
  rfl

/-- A displacement keeps the canonical form, which is about the coefficients. -/
theorem canonical_displace (hd : d.Canonical) : (d.displace e).Canonical where
  solved := {
    width := List.forall_mem_map.mpr fun r hr => hd.solved.width r hr
    nodup := (basis_displace d e).symm ▸ hd.solved.nodup
    own := List.forall_mem_map.mpr fun r hr => hd.solved.own r hr
    other := List.forall_mem_map.mpr fun r hr => List.forall_mem_map.mpr fun s hs =>
      hd.solved.other r hr s hs }
  priced := List.forall_mem_map.mpr fun r hr => hd.priced r hr

/-- The points of the displaced dictionary are the displaced points. -/
theorem holds_displace : (d.displace e).Holds v ↔ d.Holds (v - e) := by
  rw [Holds, displace, List.forall_mem_map]
  refine forall₂_congr fun r _ => ?_
  rw [Equation.Holds, Equation.Holds, Equation.eval_sub, sub_eq_iff_eq_add]
  rfl

/-- The objective of the displaced dictionary is that of the point before. -/
theorem gap_displace : (d.displace e).objective.gap v = d.objective.gap (v - e) := by
  rw [Equation.gap, Equation.gap, Equation.eval_sub, displace]
  change d.objective.rhs + d.objective.eval e - d.objective.eval v = _
  ring

/-- The value of a basic column at the displaced basic point. -/
theorem basicPoint_displace (hd : d.Canonical) {r : BasicRow ℚ} (hr : r ∈ d.rows) :
    (d.displace e).basicPoint r.basic = r.rhs + r.eval e :=
  basicPoint_basic (r := { r with rhs := r.rhs + r.eval e }) (canonical_displace hd)
    (List.mem_map_of_mem hr)

end Dictionary

/-! ## Programs as equations with slacks -/

/-- The coefficient of the slack in a constraint as it is written; an equation has none. -/
def Relation.slackSign : Relation → ℚ
  | .le => 1
  | .ge => -1
  | .eq => 0

namespace Constraint

/-- The left-hand side of a constraint as it is written, with its slack in the given column. -/
def lhs (c : Constraint ℚ) (slack : ℕ) (v : ℕ → ℚ) : ℚ :=
  (⟨c.coefficients, c.rhs⟩ : Equation ℚ).eval v + c.relation.slackSign * v slack

variable {c : Constraint ℚ} {s : StoredConstraint ℚ} {slack : ℕ}

/-- The left-hand side at a difference of points is the difference of the left-hand sides. -/
theorem lhs_sub (c : Constraint ℚ) (slack : ℕ) (v w : ℕ → ℚ) :
    c.lhs slack (v - w) = c.lhs slack v - c.lhs slack w := by
  rw [lhs, lhs, lhs, Equation.eval_sub, Pi.sub_apply]
  ring

/-- The left-hand side at a point with a single entry. -/
theorem lhs_single (c : Constraint ℚ) (slack column : ℕ) (value : ℚ) :
    c.lhs slack (Pi.single column value) =
      (c.coefficients.getD column 0 + if slack = column then c.relation.slackSign else 0) * value := by
  rw [lhs, Equation.eval_single, Equation.coefficient]
  by_cases hslack : slack = column
  · rw [hslack, Pi.single_eq_same, if_pos rfl, add_mul]
  · rw [Pi.single_eq_of_ne hslack, if_neg hslack, mul_zero, add_zero, add_zero]

/-- The sign of the slack of an inequality is its own inverse. -/
theorem slackSign_mul_slackSign (hc : c.relation ≠ .eq) :
    c.relation.slackSign * c.relation.slackSign = 1 := by
  cases hrelation : c.relation with
  | le => norm_num [Relation.slackSign]
  | ge => norm_num [Relation.slackSign]
  | eq => exact absurd hrelation hc

/-- The `≤` form is the constraint times the sign of its slack. -/
theorem stored?_eq_some_iff : c.stored? = some s ↔ c.relation ≠ .eq ∧
    s = ⟨c.coefficients.map (c.relation.slackSign * ·),
      ⟨c.name, c.relation, c.relation.slackSign * c.rhs⟩⟩ := by
  obtain ⟨name, coefficients, relation, rhs⟩ := c
  cases relation with
  | le => simp [stored?, Relation.sign?, Relation.slackSign, eq_comm (b := s)]
  | ge => simp [stored?, Relation.sign?, Relation.slackSign, eq_comm (b := s)]
  | eq => simp [stored?, Relation.sign?]

/-- The `≤` form holds with a slack if the constraint does as it is written. -/
theorem holdsWith_iff (hs : c.stored? = some s) (v : ℕ → ℚ) :
    s.HoldsWith slack v ↔ c.lhs slack v = c.rhs := by
  obtain ⟨hc, rfl⟩ := stored?_eq_some_iff.mp hs
  have hsign := slackSign_mul_slackSign hc
  have heval : (⟨c.coefficients.map (c.relation.slackSign * ·), 0⟩ : Equation ℚ).eval v =
      c.relation.slackSign * (⟨c.coefficients, c.rhs⟩ : Equation ℚ).eval v := by
    simp only [Equation.eval, List.length_map, Finset.mul_sum]
    apply Finset.sum_congr rfl
    intro j _
    rw [Equation.coefficient, Scalar.getD_map_mul, mul_assoc]
    rfl
  change (⟨c.coefficients.map (c.relation.slackSign * ·), 0⟩ : Equation ℚ).eval v + v slack =
    c.relation.slackSign * c.rhs ↔ _
  rw [heval, lhs]
  constructor
  · intro h
    linear_combination c.relation.slackSign * h - (⟨c.coefficients, c.rhs⟩ : Equation ℚ).eval v * hsign +
      c.rhs * hsign
  · intro h
    linear_combination c.relation.slackSign * h - v slack * hsign

end Constraint

/-- Inequalities are their own inequalities. -/
theorem flatMap_inequalities {constraints : List (Constraint ℚ)}
    (h : ∀ c ∈ constraints, c.relation ≠ .eq) :
    constraints.flatMap Constraint.inequalities = constraints := by
  induction constraints with
  | nil => rfl
  | cons c rest ih =>
    obtain ⟨hc, hrest⟩ := List.forall_mem_cons.mp h
    rw [List.flatMap_cons, Constraint.inequalities_of_ne hc, ih hrest]
    rfl

namespace LinearProgram

/-- The vector solves the inequalities of the program as equations, each with its own slack. -/
def SolvedBy (p : LinearProgram ℚ) (v : ℕ → ℚ) : Prop :=
  ∀ (k : ℕ) c, p.inequalities[k]? = some c → c.lhs (p.variableCount + k) v = c.rhs

/-- A vector that solves the program and is zero outside a basis. -/
structure BasicSolution (p : LinearProgram ℚ) (basis : List ℕ) (v : ℕ → ℚ) : Prop where
  solves : p.SolvedBy v
  zero : ∀ j, j ∉ basis → v j = 0

/-- The program with another right-hand side for one of its inequalities. -/
def withRhs (p : LinearProgram ℚ) (i : ℕ) (r : ℚ) : LinearProgram ℚ :=
  { p with constraints := p.inequalities.modify i fun c => { c with rhs := r } }

variable {p : LinearProgram ℚ} {v e : ℕ → ℚ}

/-- None of the inequalities is an equation. -/
theorem relation_ne_eq {c : Constraint ℚ} (hc : c ∈ p.inequalities) : c.relation ≠ .eq := by
  obtain ⟨_, _, hd⟩ := List.mem_flatMap.mp hc
  exact (Constraint.of_mem_inequalities hd).2

/-- To solve a program is to solve its `≤` forms with their slacks. -/
theorem solvedBy_iff :
    p.SolvedBy v ↔ SlackForm p.variableCount (storedForms p.constraints) v := by
  constructor
  · intro hv k s hs
    have hlength := (forall₂_storedForms p.constraints).length_eq
    have hk : k < p.inequalities.length :=
      (List.getElem?_eq_some_iff.mp hs).1.trans_eq hlength.symm
    have hc : p.inequalities[k]? = some p.inequalities[k] := List.getElem?_eq_getElem hk
    obtain ⟨found, hfound, hstored⟩ := p.exists_storedForm hc
    cases hfound.symm.trans hs
    exact (Constraint.holdsWith_iff hstored v).mpr (hv k _ hc)
  · intro hv k c hc
    obtain ⟨s, hs, hstored⟩ := p.exists_storedForm hc
    exact (Constraint.holdsWith_iff hstored v).mp (hv k s hs)

/-- The inequalities after one of them got another right-hand side. -/
theorem getElem?_inequalities_withRhs (p : LinearProgram ℚ) (i : ℕ) (r : ℚ) (k : ℕ) :
    (p.withRhs i r).inequalities[k]? =
      p.inequalities[k]?.map fun c => if k = i then { c with rhs := r } else c := by
  have hsame : (p.withRhs i r).inequalities = (p.withRhs i r).constraints := by
    apply flatMap_inequalities
    intro c hc
    obtain ⟨k, hk⟩ := List.mem_iff_getElem?.mp hc
    rw [withRhs, List.getElem?_modify] at hk
    obtain ⟨d, hd, rfl⟩ := Option.map_eq_some_iff.mp hk
    have hrelation := relation_ne_eq (List.mem_of_getElem? hd)
    split
    · exact hrelation
    · exact hrelation
  rw [hsame, withRhs, List.getElem?_modify]
  simp only [eq_comm (a := i)]
  rfl

/-- To solve the changed program is to have the new right-hand side in its place. -/
theorem solvedBy_withRhs_iff {i : ℕ} {r : ℚ} :
    (p.withRhs i r).SolvedBy v ↔ ∀ (k : ℕ) c, p.inequalities[k]? = some c →
      c.lhs (p.variableCount + k) v = if k = i then r else c.rhs := by
  have hsides : ∀ (k : ℕ) (c : Constraint ℚ),
      (if k = i then { c with rhs := r } else c).lhs (p.variableCount + k) v =
          c.lhs (p.variableCount + k) v ∧
        (if k = i then { c with rhs := r } else c).rhs = if k = i then r else c.rhs := by
    intro k c
    split
    · exact ⟨rfl, rfl⟩
    · exact ⟨rfl, rfl⟩
  constructor
  · intro hv k c hc
    obtain ⟨hlhs, hrhs⟩ := hsides k c
    rw [← hlhs, ← hrhs]
    exact hv k _ (by rw [getElem?_inequalities_withRhs, hc]; rfl)
  · intro hv k d hd
    rw [getElem?_inequalities_withRhs, Option.map_eq_some_iff] at hd
    obtain ⟨c, hc, rfl⟩ := hd
    obtain ⟨hlhs, hrhs⟩ := hsides k c
    rw [hrhs, ← hv k c hc]
    exact hlhs

/-- A displacement that takes up the change of one right-hand side takes the solutions of the program to
those of the changed one. -/
theorem solvedBy_withRhs {i : ℕ} {r : ℚ}
    (he : ∀ (k : ℕ) c, p.inequalities[k]? = some c →
      c.lhs (p.variableCount + k) e = if k = i then r - c.rhs else 0) :
    (p.withRhs i r).SolvedBy v ↔ p.SolvedBy (v - e) := by
  rw [solvedBy_withRhs_iff]
  refine forall_congr' fun k => forall₂_congr fun c hc => ?_
  rw [Constraint.lhs_sub, he k c hc]
  split
  · constructor <;> intro h <;> linarith
  · rw [sub_zero]

end LinearProgram

/-! ## Tableaus that store a program -/

namespace Tableau

/-- The tableau encodes the program, whose later constraints may mention slacks of earlier ones. -/
structure Stores (t : Tableau ℚ) (p : LinearProgram ℚ) : Prop where
  encodes : t.Encodes p.costs (storedForms p.constraints)
  decisions : t.decisions = p.decisions
  sense : t.sense = p.objective.sense
  objective : p.objective.coefficients.length = p.variableCount

namespace Stores

variable {t : Tableau ℚ} {p q : LinearProgram ℚ} {v w e : ℕ → ℚ}

/-- The decision variables are the variables of the program. -/
theorem structural (ht : t.Stores p) : t.structuralCount = p.variableCount := by
  have hnames : p.variableNames.length = p.objective.coefficients.length := ht.objective.symm
  rw [structuralCount, ht.decisions, LinearProgram.decisions, List.length_zipWith, hnames, min_self]
  exact ht.objective

/-- There is a column for each variable and each inequality. -/
theorem columns (ht : t.Stores p) : t.columnCount = p.variableCount + p.inequalities.length := by
  rw [ht.encodes.columns, ht.structural, ← (forall₂_storedForms p.constraints).length_eq]
  rfl

/-- The variables are among the columns. -/
theorem lt_columnCount (ht : t.Stores p) {j : ℕ} (hj : j < p.variableCount) : j < t.columnCount := by
  rw [ht.columns]
  exact Nat.lt_add_right _ hj

/-- The points of the tableau solve the program. -/
theorem holds_iff (ht : t.Stores p) : t.dictionary.Holds v ↔ p.SolvedBy v := by
  rw [holds_dictionary, ht.encodes.holds_iff, ht.structural, LinearProgram.solvedBy_iff]

/-- The objective row gives the gain. -/
theorem gap (ht : t.Stores p) (hv : p.SolvedBy v) :
    t.objective.gap v = p.gain (valuesOf p.variableCount v) := by
  rw [ht.encodes.gap v (holds_dictionary.mp (ht.holds_iff.mpr hv))]
  exact (LinearProgram.gain_eq_costAt ht.objective fun j hj => (getD_valuesOf v hj).symm).symm

/-- The row of an inequality has the label of its `≤` form. -/
theorem exists_row (ht : t.Stores p) {i : ℕ} {c : Constraint ℚ} (hc : p.inequalities[i]? = some c) :
    ∃ r, t.rows[i]? = some r ∧
      r.label = ⟨c.name, c.relation, c.relation.slackSign * c.rhs⟩ := by
  obtain ⟨s, hs, hstored⟩ := p.exists_storedForm hc
  obtain ⟨r, hr, hlabel⟩ := ht.encodes.exists_row hs
  obtain ⟨_, rfl⟩ := Constraint.stored?_eq_some_iff.mp hstored
  exact ⟨r, hr, hlabel⟩

/-- A program whose solutions are those of the stored one, moved by a displacement, has one basic
solution on the basis of the tableau: the basic point of the displaced rows. -/
theorem basicSolution_iff (ht : t.Stores p) (hq : ∀ v, q.SolvedBy v ↔ p.SolvedBy (v - e)) :
    q.BasicSolution t.basis w ↔ w = (t.dictionary.displace e).basicPoint := by
  have hcanonical : (t.dictionary.displace e).Canonical :=
    Dictionary.canonical_displace ht.encodes.canonical
  have hholds : ∀ v, (t.dictionary.displace e).Holds v ↔ q.SolvedBy v := fun v =>
    Dictionary.holds_displace.trans (ht.holds_iff.trans (hq v).symm)
  have hbasic : ∀ j, j ∈ (t.dictionary.displace e).basicColumns ↔ j ∈ t.basis := by
    intro j
    rw [Dictionary.basicColumns, Dictionary.basis_displace, basis_dictionary, List.mem_toFinset]
  constructor
  · intro hw
    exact Dictionary.eq_basicPoint hcanonical ((hholds w).mpr hw.solves) fun j hj =>
      hw.zero j (mt (hbasic j).mpr hj)
  · rintro rfl
    exact ⟨(hholds _).mp (Dictionary.holds_basicPoint hcanonical), fun j hj =>
      Dictionary.basicPoint_eq_zero (mt (hbasic j).mp hj)⟩

/-- The basic values after a displacement. -/
theorem forall_basis_displace (ht : t.Stores p) (e : ℕ → ℚ) :
    (∀ j ∈ t.basis, 0 ≤ (t.dictionary.displace e).basicPoint j) ↔
      ∀ r ∈ t.rows, 0 ≤ r.rhs + r.eval e := by
  have hrows : (∀ r ∈ t.dictionary.rows, 0 ≤ r.rhs + r.eval e) ↔ ∀ r ∈ t.rows, 0 ≤ r.rhs + r.eval e :=
    forall_mem_dictionary_rows
  rw [← basis_dictionary, List.forall_mem_map, ← hrows]
  refine forall₂_congr fun r hr => ?_
  rw [Dictionary.basicPoint_displace ht.encodes.canonical hr]

end Stores

end Tableau

/-- A history that pivots off zero stores its program with the constraints that were added. -/
theorem Origin.stores_of_careful {o : Origin} {t : Tableau ℚ} (ht : o.tableau = .ok t)
    {history : List (Edit ℚ)} (hcareful : t.Careful history) :
    (t.afterEdits history).Stores (o.start.extend (t.added history)) := by
  obtain ⟨hencodes, _⟩ := Origin.encodes_of_pivotsOffZero ht hcareful.tolerance hcareful.offZero
  obtain ⟨hshaped, rfl⟩ := Origin.tableau_eq_ok ht
  obtain ⟨hdecisions, hsense⟩ := o.start.slackTableau.decisions_and_sense_afterEdits history
  exact ⟨hencodes, hdecisions, hsense, hshaped.objective⟩

end WarmSimplex
