import WarmSimplex.Proofs.History

/-!
# Sessions over the decision variables

A session adds constraints over the decision variables, solves and sets tolerances, in any order.
The tableau then represents the program that it started with, extended by the added constraints:
feasible points and vectors that solve the rows without negative entries are the same thing, and
the objective row gives the gain.

Constraints over slacks and pivots of the caller are left out, since the extended program would not
be one over the decision variables.
-/

namespace WarmSimplex

/-- The edit is a step of a session over the given number of variables. -/
def Edit.InSession (width : ℕ) : Edit ℚ → Prop
  | .setTolerances tolerance pivotTolerance =>
    (∀ value ∈ tolerance, 0 ≤ value) ∧ ∀ value ∈ pivotTolerance, 0 ≤ value
  | .addConstraint _ coefficients _ _ => OverFirst width coefficients
  | .addEquality _ coefficients _ => OverFirst width coefficients
  | .solve _ => True
  | _ => False

/-- The edit adds a constraint over the given number of variables, or solves. -/
def Edit.ExtendsOrSolves (width : ℕ) : Edit ℚ → Prop
  | .addConstraint _ coefficients _ _ => OverFirst width coefficients
  | .addEquality _ coefficients _ => OverFirst width coefficients
  | .solve _ => True
  | _ => False

/-- A constraint that the edit adds is over the given number of variables. -/
def Edit.OverVariables (width : ℕ) : Edit ℚ → Prop
  | .appendRow coefficients _ => OverFirst width coefficients
  | .addConstraint _ coefficients _ _ => OverFirst width coefficients
  | .addEquality _ coefficients _ => OverFirst width coefficients
  | _ => True

/-- A session adds constraints over its variables. -/
theorem Edit.InSession.overVariables {width : ℕ} {e : Edit ℚ} (he : e.InSession width) :
    e.OverVariables width := by
  cases e with
  | setTolerances tolerance pivotTolerance => trivial
  | appendRow coefficients rhs => cases he
  | addConstraint name coefficients relation rhs => exact he
  | addEquality name coefficients rhs => exact he
  | pivot row column => trivial
  | solve options => trivial

/-- Adding constraints and solving are steps of a session. -/
theorem Edit.ExtendsOrSolves.inSession {width : ℕ} {e : Edit ℚ} (he : e.ExtendsOrSolves width) :
    e.InSession width := by
  cases e with
  | setTolerances tolerance pivotTolerance => cases he
  | appendRow coefficients rhs => cases he
  | addConstraint name coefficients relation rhs => exact he
  | addEquality name coefficients rhs => exact he
  | pivot row column => cases he
  | solve options => trivial

/-- Adding constraints and solving keep the settings. -/
theorem Edit.ExtendsOrSolves.after {width : ℕ} {e : Edit ℚ} (he : e.ExtendsOrSolves width)
    (s : Tableau.Settings ℚ) : s.after e = s := by
  cases e with
  | setTolerances tolerance pivotTolerance => cases he
  | appendRow coefficients rhs => rfl
  | addConstraint name coefficients relation rhs => rfl
  | addEquality name coefficients rhs => rfl
  | pivot row column => rfl
  | solve options => rfl

/-- The program with further constraints. -/
def LinearProgram.extend (p : LinearProgram ℚ) (further : List (Constraint ℚ)) : LinearProgram ℚ :=
  { p with constraints := p.constraints ++ further }

namespace Tableau

/-- The tableau encodes the program, whose constraints are over its variables. -/
structure Represents (t : Tableau ℚ) (p : LinearProgram ℚ) : Prop where
  encodes : t.Encodes p.costs (storedForms p.constraints)
  structural : t.structuralCount = p.variableCount
  sense : t.sense = p.objective.sense
  objective : p.objective.coefficients.length = p.variableCount
  width : ∀ c ∈ p.constraints, OverFirst p.variableCount c.coefficients

/-- The constraints that an edit is accepted with are over the decision variables. -/
theorem width_accepted {t : Tableau ℚ} {width : ℕ} {e : Edit ℚ} (he : e.OverVariables width) :
    ∀ c ∈ t.accepted e, OverFirst width c.coefficients := by
  rw [accepted]
  cases t.perform e with
  | error _ => simp
  | ok _ =>
    cases e with
    | setTolerances tolerance pivotTolerance => simp [Edit.constraints]
    | appendRow coefficients rhs => exact List.forall_mem_singleton.mpr he
    | addConstraint name coefficients relation rhs => exact List.forall_mem_singleton.mpr he
    | addEquality name coefficients rhs => exact List.forall_mem_singleton.mpr he
    | pivot row column => simp [Edit.constraints]
    | solve options => simp [Edit.constraints]

/-- The constraints that a history adds are over the decision variables. -/
theorem width_added {t : Tableau ℚ} {width : ℕ} {history : List (Edit ℚ)}
    (hhistory : ∀ e ∈ history, e.OverVariables width) :
    ∀ c ∈ t.added history, OverFirst width c.coefficients := by
  induction history generalizing t with
  | nil => simp [added]
  | cons e rest ih =>
    obtain ⟨he, hrest⟩ := List.forall_mem_cons.mp hhistory
    exact List.forall_mem_append.mpr ⟨width_accepted he, ih hrest⟩

end Tableau

/-- The program with the constraints of a history over its variables is over its variables. -/
theorem LinearProgram.width_extend {p : LinearProgram ℚ} (hp : p.Shaped) {t : Tableau ℚ}
    {history : List (Edit ℚ)} (hhistory : ∀ e ∈ history, e.OverVariables p.variableCount) :
    ∀ c ∈ (p.extend (t.added history)).constraints, OverFirst p.variableCount c.coefficients :=
  List.forall_mem_append.mpr
    ⟨fun c hc => .of_length_le (hp.width c hc).le, Tableau.width_added hhistory⟩

namespace Tableau

/-- A session keeps the tolerance from being negative. -/
theorem Settings.tolerance_nonneg_after {s : Settings ℚ} (hs : 0 ≤ s.tolerance) {width : ℕ}
    {e : Edit ℚ} (he : e.InSession width) : 0 ≤ (s.after e).tolerance := by
  refine after_of_setTolerances (P := fun s => 0 ≤ s.tolerance) hs ?_
  rintro tolerance pivotTolerance rfl
  exact getD_of_forall he.1 hs

/-- The tolerance of a session is not negative. -/
theorem tolerance_nonneg_afterEdits {t : Tableau ℚ} (ht : 0 ≤ t.tolerance) {width : ℕ}
    {history : List (Edit ℚ)} (hhistory : ∀ e ∈ history, e.InSession width) :
    0 ≤ (t.afterEdits history).tolerance :=
  settings_afterEdits (P := fun s => 0 ≤ s.tolerance)
    (fun _ e he hs => Settings.tolerance_nonneg_after hs (hhistory e he)) ht

/-- A session represents its program with the constraints that it added. -/
theorem represents_afterEdits {p : LinearProgram ℚ} (hp : p.Shaped) {history : List (Edit ℚ)}
    (hhistory : ∀ e ∈ history, e.InSession p.variableCount) :
    (p.slackTableau.afterEdits history).Represents
      (p.extend (p.slackTableau.added history)) where
  encodes := p.encodes_afterEdits hp (P := fun s => 0 ≤ s.tolerance)
    (fun _ e he hs => Settings.tolerance_nonneg_after hs (hhistory e he)) (fun _ hs => hs)
    (fun _ _ _ _ hpivot => (hhistory _ hpivot).elim) p.usable_slackTableau.tolerance
  structural := p.structuralCount_afterEdits hp history
  sense := (p.slackTableau.decisions_and_sense_afterEdits history).2
  objective := hp.objective
  width := LinearProgram.width_extend hp fun e he => (hhistory e he).overVariables

/-- A solve goes on representing the program. -/
theorem Represents.solve {t : Tableau ℚ} {p : LinearProgram ℚ} (ht : t.Represents p)
    (htolerance : 0 ≤ t.tolerance) (options : SolveOptions) :
    (t.solve options).2.Represents p := by
  have hsettings := settings_eq_iff.mp (t.settings_run options)
  refine ⟨ht.encodes.run htolerance options, ?_, ?_, ht.objective, ht.width⟩
  · rw [← ht.structural]
    exact congrArg List.length hsettings.1
  · rw [← ht.sense]
    exact hsettings.2.1

end Tableau

/-! ## Points of the program and vectors of the tableau -/

namespace LinearProgram

variable {p : LinearProgram ℚ} {v : ℕ → ℚ}

/-- The values of a vector that solves the constraints meet them as far as its slacks do. -/
theorem satisfiedWithin_valuesOf (hwidth : ∀ c ∈ p.constraints, OverFirst p.variableCount c.coefficients)
    (hv : SlackForm p.variableCount (storedForms p.constraints) v) {tolerance : ℚ}
    (hbound : ∀ j, -tolerance ≤ v j) :
    ∀ c ∈ p.constraints, c.SatisfiedWithin tolerance (valuesOf p.variableCount v) := by
  refine forall_room_storedForms.mp fun s hs => ?_
  obtain ⟨i, hi⟩ := List.mem_iff_getElem?.mp hs
  rw [(hv i s hi).room_eq (overFirst_of_mem_storedForms hwidth s hs)]
  exact hbound _

/-- The values of a vector without negative entries that solves the constraints are feasible. -/
theorem feasible_valuesOf (hwidth : ∀ c ∈ p.constraints, OverFirst p.variableCount c.coefficients)
    (hv : SlackForm p.variableCount (storedForms p.constraints) v) (hnonneg : ∀ j, 0 ≤ v j) :
    p.Feasible (valuesOf p.variableCount v) where
  length := length_valuesOf _ v
  nonneg := List.forall_mem_map.mpr fun j _ => hnonneg j
  satisfied c hc := by
    apply Constraint.satisfiedWithin_zero_iff.mp
    apply satisfiedWithin_valuesOf hwidth hv _ c hc
    simpa using hnonneg

/-- The gain of a point is the cost of any vector that starts with it. -/
theorem gain_eq_costAt (hobjective : p.objective.coefficients.length = p.variableCount) {x : List ℚ}
    (hx : ∀ j < p.variableCount, v j = x.getD j 0) : p.gain x = costAt p.costs v := by
  have hcosts : p.costs.length = p.variableCount := by rw [costs, List.length_map, hobjective]
  rw [costAt_eq_dot fun j hj => hx j (hcosts ▸ hj), costs, Scalar.dot_map_mul]
  rfl

/-- A feasible point and its slacks solve the constraints. -/
theorem Feasible.slackForm {x : List ℚ} (hx : p.Feasible x)
    (hwidth : ∀ c ∈ p.constraints, OverFirst p.variableCount c.coefficients) :
    SlackForm p.variableCount (storedForms p.constraints)
      (withSlacks (storedForms p.constraints) x) := by
  rw [← hx.length]
  apply slackForm_withSlacks
  apply overFirst_of_mem_storedForms
  rwa [hx.length]

/-- A feasible point and its slacks are not negative. -/
theorem Feasible.withSlacks_nonneg {x : List ℚ} (hx : p.Feasible x) (j : ℕ) :
    0 ≤ withSlacks (storedForms p.constraints) x j := by
  have hwithin : ∀ c ∈ p.constraints, c.SatisfiedWithin 0 x :=
    fun c hc => Constraint.satisfiedWithin_zero_iff.mpr (hx.satisfied c hc)
  refine WarmSimplex.withSlacks_nonneg hx.nonneg (fun s hs => ?_) j
  simpa using forall_room_storedForms.mpr hwithin s hs

/-- The gain of a feasible point is the cost of the point with its slacks. -/
theorem Feasible.gain_eq_costAt {x : List ℚ} (hx : p.Feasible x)
    (hobjective : p.objective.coefficients.length = p.variableCount) :
    p.gain x = costAt p.costs (withSlacks (storedForms p.constraints) x) :=
  LinearProgram.gain_eq_costAt hobjective fun _ hj => withSlacks_of_lt (hx.length ▸ hj)

end LinearProgram

end WarmSimplex
