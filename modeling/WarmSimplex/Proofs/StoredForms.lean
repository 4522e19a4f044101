import WarmSimplex.Proofs.Feasible
import WarmSimplex.Proofs.Tableau.Encoding

/-!
# Constraints in `≤` form

A tableau stores inequalities in `≤` form: a minimum is negated, and an equation becomes a maximum
and a minimum. The room that a point leaves in a stored form is the slack of the constraint that it
comes from, so a point that is extended by its slacks meets the stored forms as equations.

The sign of a slack is not asked for here. It says whether the constraint is met.
-/

namespace WarmSimplex

namespace Constraint

/-- The constraint as inequalities: an equation is a maximum and a minimum. -/
def inequalities (c : Constraint ℚ) : List (Constraint ℚ) :=
  match c.relation with
  | .eq => [⟨c.name ++ "_le", c.coefficients, .le, c.rhs⟩, ⟨c.name ++ "_ge", c.coefficients, .ge, c.rhs⟩]
  | _ => [c]

variable {c d : Constraint ℚ} {x : List ℚ}

/-- An inequality stays as it is. -/
theorem inequalities_of_ne (hc : c.relation ≠ .eq) : c.inequalities = [c] := by
  rw [inequalities]
  split
  · contradiction
  · rfl

/-- Only an equation has no `≤` form. -/
theorem stored?_eq_none_iff : c.stored? = none ↔ c.relation = .eq := by
  rw [stored?, Option.map_eq_none_iff]
  cases c.relation <;> simp [Relation.sign?]

/-- The inequalities of a constraint have its coefficients, and none is an equation. -/
theorem of_mem_inequalities (hd : d ∈ c.inequalities) :
    d.coefficients = c.coefficients ∧ d.relation ≠ .eq := by
  rw [inequalities] at hd
  split at hd
  · rcases List.mem_pair.mp hd with rfl | rfl
    · exact ⟨rfl, by simp⟩
    · exact ⟨rfl, by simp⟩
  · rename_i hc
    cases List.mem_singleton.mp hd
    exact ⟨rfl, hc⟩

/-- A point meets a constraint up to a tolerance if no inequality of it lacks more room. -/
theorem satisfiedWithin_iff_slack {tolerance : ℚ} :
    c.SatisfiedWithin tolerance x ↔ ∀ d ∈ c.inequalities, -tolerance ≤ d.slack x := by
  obtain ⟨name, coefficients, relation, rhs⟩ := c
  cases relation with
  | le =>
    simp only [SatisfiedWithin, inequalities, List.forall_mem_singleton, slack]
    constructor <;> intro h <;> linarith
  | ge =>
    simp only [SatisfiedWithin, inequalities, List.forall_mem_singleton, slack]
    constructor <;> intro h <;> linarith
  | eq =>
    simp only [SatisfiedWithin, inequalities, abs_le]
    rw [List.forall_mem_cons, List.forall_mem_singleton]
    simp only [slack]
    constructor
    · rintro ⟨hbelow, habove⟩
      constructor <;> linarith
    · rintro ⟨hbelow, habove⟩
      constructor <;> linarith

/-- The inequalities of a constraint that is met have its slack together. -/
theorem sum_slack_inequalities (hc : c.Satisfied x) :
    (c.inequalities.map (·.slack x)).sum = c.slack x := by
  obtain ⟨name, coefficients, relation, rhs⟩ := c
  cases relation with
  | le => simp [inequalities]
  | ge => simp [inequalities]
  | eq =>
    have hsides : Scalar.dot coefficients x = rhs := hc
    simp [inequalities, slack, hsides]

end Constraint

/-- The `≤` forms of constraints, two for an equation. -/
def storedForms (constraints : List (Constraint ℚ)) : List (StoredConstraint ℚ) :=
  (constraints.flatMap Constraint.inequalities).filterMap Constraint.stored?

/-- The forms of two lists of constraints come one after the other. -/
theorem storedForms_append (first second : List (Constraint ℚ)) :
    storedForms (first ++ second) = storedForms first ++ storedForms second := by
  rw [storedForms, List.flatMap_append, List.filterMap_append]
  rfl

/-- An inequality has one form, before those of the constraints after it. -/
theorem storedForms_cons {c : Constraint ℚ} {s : StoredConstraint ℚ} (hc : c.stored? = some s)
    (rest : List (Constraint ℚ)) : storedForms (c :: rest) = s :: storedForms rest := by
  have hrelation : c.relation ≠ .eq := by
    intro heq
    rw [Constraint.stored?_eq_none_iff.mpr heq] at hc
    cases hc
  rw [storedForms, List.flatMap_cons, Constraint.inequalities_of_ne hrelation,
    List.singleton_append, List.filterMap_cons_some hc]
  rfl

namespace StoredConstraint

/-- The room that a point leaves below the right-hand side. -/
def room (s : StoredConstraint ℚ) (x : List ℚ) : ℚ := s.label.rhs - Scalar.dot s.coefficients x

/-- The `≤` form leaves the room of its constraint. -/
theorem room_of_stored? {c : Constraint ℚ} {s : StoredConstraint ℚ} (hs : c.stored? = some s)
    (x : List ℚ) : s.room x = c.slack x := by
  obtain ⟨name, coefficients, relation, rhs⟩ := c
  obtain ⟨sign, hsign, rfl⟩ := Option.map_eq_some_iff.mp hs
  cases relation with
  | le =>
    cases hsign
    simp [room, Constraint.slack]
  | ge =>
    cases hsign
    simp only [room, Constraint.slack, Scalar.dot_map_mul]
    ring
  | eq => cases hsign

/-- The `≤` form has the coefficients of its constraint, up to their sign. -/
theorem coefficients_of_stored? {c : Constraint ℚ} {s : StoredConstraint ℚ}
    (hs : c.stored? = some s) : ∃ sign : ℚ, s.coefficients = c.coefficients.map (sign * ·) := by
  obtain ⟨sign, _, rfl⟩ := Option.map_eq_some_iff.mp hs
  exact ⟨sign, rfl⟩

end StoredConstraint

/-- A form of a list of constraints is the form of an inequality of one of them. -/
theorem mem_storedForms {constraints : List (Constraint ℚ)} {s : StoredConstraint ℚ} :
    s ∈ storedForms constraints ↔
      ∃ c ∈ constraints, ∃ d ∈ c.inequalities, d.stored? = some s := by
  simp only [storedForms, List.mem_filterMap, List.mem_flatMap]
  constructor
  · rintro ⟨d, ⟨c, hc, hd⟩, hs⟩
    exact ⟨c, hc, d, hd, hs⟩
  · rintro ⟨c, hc, d, hd, hs⟩
    exact ⟨d, ⟨c, hc, hd⟩, hs⟩

/-- A form has the coefficients of some constraint, up to their sign. -/
theorem coefficients_of_mem_storedForms {constraints : List (Constraint ℚ)}
    {s : StoredConstraint ℚ} (hs : s ∈ storedForms constraints) :
    ∃ c ∈ constraints, ∃ sign : ℚ, s.coefficients = c.coefficients.map (sign * ·) := by
  obtain ⟨c, hc, d, hd, hds⟩ := mem_storedForms.mp hs
  obtain ⟨sign, hsign⟩ := StoredConstraint.coefficients_of_stored? hds
  rw [(Constraint.of_mem_inequalities hd).1] at hsign
  exact ⟨c, hc, sign, hsign⟩

/-- Forms are as wide as the constraints. -/
theorem length_of_mem_storedForms {constraints : List (Constraint ℚ)} {width : ℕ}
    (hwidth : ∀ c ∈ constraints, c.coefficients.length = width) :
    ∀ s ∈ storedForms constraints, s.coefficients.length = width := by
  intro s hs
  obtain ⟨c, hc, sign, hsign⟩ := coefficients_of_mem_storedForms hs
  rw [hsign, List.length_map, hwidth c hc]

/-- Forms mention the columns that the constraints mention. -/
theorem overFirst_of_mem_storedForms {constraints : List (Constraint ℚ)} {width : ℕ}
    (hwidth : ∀ c ∈ constraints, OverFirst width c.coefficients) :
    ∀ s ∈ storedForms constraints, OverFirst width s.coefficients := by
  intro s hs
  obtain ⟨c, hc, sign, hsign⟩ := coefficients_of_mem_storedForms hs
  rw [hsign]
  exact (hwidth c hc).map_mul sign

/-- The forms of constraints belong to their inequalities, one by one. -/
theorem forall₂_storedForms (constraints : List (Constraint ℚ)) :
    List.Forall₂ (fun c s => c.stored? = some s) (constraints.flatMap Constraint.inequalities)
      (storedForms constraints) := by
  have hforms : ∀ inequalities : List (Constraint ℚ), (∀ d ∈ inequalities, d.relation ≠ .eq) →
      List.Forall₂ (fun c s => c.stored? = some s) inequalities
        (inequalities.filterMap Constraint.stored?) := by
    intro inequalities hall
    induction inequalities with
    | nil => exact .nil
    | cons d rest ih =>
      obtain ⟨hd, hrest⟩ := List.forall_mem_cons.mp hall
      obtain ⟨s, hs⟩ := Option.ne_none_iff_exists'.mp (mt Constraint.stored?_eq_none_iff.mp hd)
      rw [List.filterMap_cons_some hs]
      exact .cons hs (ih hrest)
  refine hforms _ fun d hd => ?_
  obtain ⟨c, _, hdc⟩ := List.mem_flatMap.mp hd
  exact (Constraint.of_mem_inequalities hdc).2

/-- The forms of constraints leave the rooms of the inequalities. -/
theorem map_room_storedForms (constraints : List (Constraint ℚ)) (x : List ℚ) :
    (storedForms constraints).map (·.room x) =
      (constraints.flatMap Constraint.inequalities).map (·.slack x) := by
  rw [← List.forall₂_eq_eq_eq, List.forall₂_map_left_iff, List.forall₂_map_right_iff]
  exact (forall₂_storedForms constraints).flip.imp fun _ _ hs => StoredConstraint.room_of_stored? hs x

/-- A point meets all constraints up to a tolerance if no form lacks more room. -/
theorem forall_room_storedForms {constraints : List (Constraint ℚ)} {x : List ℚ} {tolerance : ℚ} :
    (∀ s ∈ storedForms constraints, -tolerance ≤ s.room x) ↔
      ∀ c ∈ constraints, c.SatisfiedWithin tolerance x := by
  rw [← List.forall_mem_map (f := (StoredConstraint.room · x)) (P := (-tolerance ≤ ·)),
    map_room_storedForms, List.forall_mem_map, List.forall_mem_flatMap]
  exact forall₂_congr fun c _ => Constraint.satisfiedWithin_iff_slack.symm

/-- The forms of constraints that are met leave the slacks of the constraints together. -/
theorem sum_room_storedForms {constraints : List (Constraint ℚ)} {x : List ℚ}
    (hx : ∀ c ∈ constraints, c.Satisfied x) :
    ((storedForms constraints).map (·.room x)).sum = (constraints.map (·.slack x)).sum := by
  rw [map_room_storedForms]
  induction constraints with
  | nil => rfl
  | cons c rest ih =>
    obtain ⟨hc, hrest⟩ := List.forall_mem_cons.mp hx
    rw [List.flatMap_cons, List.map_append, List.sum_append, ih hrest, List.map_cons,
      List.sum_cons, Constraint.sum_slack_inequalities hc]

/-! ## Points with their slacks -/

section Slacks

variable {given : List (StoredConstraint ℚ)} {width : ℕ}

/-- The values of a point, followed by the rooms that it leaves. -/
def withSlacks (given : List (StoredConstraint ℚ)) (x : List ℚ) : ℕ → ℚ :=
  fun j => (x ++ given.map (·.room x)).getD j 0

/-- A constraint over the first columns that holds with a slack leaves this slack as its room. -/
theorem StoredConstraint.HoldsWith.room_eq {s : StoredConstraint ℚ} {slack : ℕ} {v : ℕ → ℚ}
    (hv : s.HoldsWith slack v) (hs : OverFirst width s.coefficients) :
    s.room (valuesOf width v) = v slack := by
  have heval : s.equation.eval v = Scalar.dot s.coefficients (valuesOf width v) :=
    Equation.eval_eq_dot fun j => (hs.eq_zero_or_lt j).imp_right fun hj => (getD_valuesOf v hj).symm
  rw [HoldsWith, heval] at hv
  rw [room]
  linarith

/-- The first values of an extended point are those of the point. -/
theorem withSlacks_of_lt {x : List ℚ} {j : ℕ} (hj : j < x.length) :
    withSlacks given x j = x.getD j 0 :=
  List.getD_append _ _ _ _ hj

/-- The further values of an extended point are the rooms. -/
theorem withSlacks_of_getElem? {x : List ℚ} {i : ℕ} {s : StoredConstraint ℚ}
    (hs : given[i]? = some s) : withSlacks given x (x.length + i) = s.room x := by
  rw [withSlacks, List.getD_append_right _ _ _ _ (Nat.le_add_right _ _), Nat.add_sub_cancel_left,
    List.getD_eq_getElem?_getD, List.getElem?_map, hs]
  rfl

/-- An extended point meets every constraint over its variables as an equation. -/
theorem slackForm_withSlacks {x : List ℚ} (hwidth : ∀ s ∈ given, OverFirst x.length s.coefficients) :
    SlackForm x.length given (withSlacks given x) := by
  intro i s hs
  have hfirst := hwidth s (List.mem_of_getElem? hs)
  have heval : s.equation.eval (withSlacks given x) = Scalar.dot s.coefficients x :=
    Equation.eval_eq_dot fun j => (hfirst.eq_zero_or_lt j).imp_right fun hj => withSlacks_of_lt hj
  rw [StoredConstraint.HoldsWith, heval, withSlacks_of_getElem? hs, StoredConstraint.room]
  ring

/-- An extended point is not negative if neither the values nor the rooms are. -/
theorem withSlacks_nonneg {x : List ℚ} (hx : ∀ a ∈ x, 0 ≤ a) (hroom : ∀ s ∈ given, 0 ≤ s.room x)
    (j : ℕ) : 0 ≤ withSlacks given x j :=
  getD_nonneg (List.forall_mem_append.mpr ⟨hx, List.forall_mem_map.mpr hroom⟩) j

/-- A list is summed up by its entries. -/
theorem sum_getD (values : List ℚ) :
    ∑ j ∈ Finset.range values.length, values.getD j 0 = values.sum := by
  induction values with
  | nil => rfl
  | cons a rest ih =>
    rw [List.length_cons, Finset.sum_range_succ', List.sum_cons, List.getD_cons_zero, ← ih]
    simp only [List.getD_cons_succ]
    ring

/-- An extended point sums up to its values and its rooms. -/
theorem sum_withSlacks (given : List (StoredConstraint ℚ)) (x : List ℚ) :
    ∑ j ∈ Finset.range (x.length + given.length), withSlacks given x j =
      x.sum + (given.map (·.room x)).sum := by
  have hlength : x.length + given.length = (x ++ given.map (·.room x)).length := by
    rw [List.length_append, List.length_map]
  rw [hlength, ← List.sum_append, ← sum_getD]
  rfl

/-- The costs of a point depend on its first values only. -/
theorem costAt_eq_dot {costs x : List ℚ} {v : ℕ → ℚ} (hv : ∀ j < costs.length, v j = x.getD j 0) :
    costAt costs v = Scalar.dot costs x := by
  rw [costAt, Scalar.dot_eq_sum _ _ _ (.inl le_rfl)]
  apply Finset.sum_congr rfl
  intro j hj
  rw [hv j (Finset.mem_range.mp hj)]

end Slacks

end WarmSimplex
