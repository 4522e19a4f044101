import WarmSimplex.Proofs.Plain.Layout

/-!
# Building on plain lists

A tableau is built on plain lists row by row, each row filled up with zeros and written at two places, and
the other lists are made apart from the rows. A program gathers its rows, right-hand sides and labels in
lists of their own, and puts its names and labels in at the end. In both ways the result is the layout of
the tableau that is built, or the same refusal.
-/

namespace WarmSimplex

namespace Plain

/-- Names, labels and costs may be written again as they are. -/
theorem relabel_eq {α : Type} {t : Tableau α} {names : List String} {costs : List α}
    {labels : List (Label α)} (hnames : t.decisions.map (·.name) = names)
    (hcosts : t.decisions.map (·.cost) = costs) (hlabels : t.rows.map (·.label) = labels) :
    { t.plain with sense := t.sense, costs := costs, variableNames := names, labels := labels } =
      t.plain := by
  rw [← hnames, ← hcosts, ← hlabels]
  rfl

/-- The constraints of a matrix with its right-hand sides, under default names. -/
theorem parts_of_matrix {α : Type} {a : List (List α)} {b : List α} (hlength : a.length = b.length) :
    let stored : List (StoredConstraint α) := (a.zip b).zipIdx.map fun pair =>
      ⟨pair.1.1, ⟨Tableau.defaultConstraintName pair.2, .le, pair.1.2⟩⟩
    stored.map (·.coefficients) = a ∧ stored.map (·.label.rhs) = b ∧
      stored.map (·.label) =
        b.zipIdx.map fun pair => ⟨Tableau.defaultConstraintName pair.2, .le, pair.1⟩ := by
  intro stored
  have hrows := (map_zipIdx_fst Prod.fst (a.zip b)).trans (List.map_fst_zip hlength.le)
  have hrhs := (map_zipIdx_fst Prod.snd (a.zip b)).trans (List.map_snd_zip hlength.ge)
  have hlabels : b.zipIdx = ((a.zip b).map Prod.snd).zipIdx := by rw [List.map_snd_zip hlength.ge]
  refine ⟨List.map_map.trans hrows, List.map_map.trans hrhs, ?_⟩
  rw [hlabels, List.zipIdx_map, List.map_map, List.map_map]
  rfl

variable {α : Type} [Scalar α]

/-! ## Rows -/

/-- A row of the first tableau on plain lists. -/
theorem slackRow_eq {n m i : ℕ} {coefficients : List α} (hwidth : coefficients.length = n) (hi : i < m)
    (rhs : α) : slackRow (n + m) (n + i) coefficients rhs =
      some (⟨coefficients ++ unitEntries m i, rhs⟩ : Equation α).entries := by
  have hfilled : coefficients.take (n + m + 1) ++
      List.replicate (n + m + 1 - coefficients.length) (0 : α) =
        (⟨coefficients ++ List.replicate m 0, 0⟩ : Equation α).entries := by
    rw [List.take_of_length_le (by omega), hwidth, show n + m + 1 - n = m + 1 by omega,
      List.replicate_succ', ← List.append_assoc]
    rfl
  have hcolumns : (coefficients ++ List.replicate m (0 : α)).length = n + m := by
    rw [List.length_append, List.length_replicate, hwidth]
  have hslack : (⟨coefficients ++ List.replicate m 0, 0⟩ : Equation α).setCoefficient (n + i) 1 =
      ⟨coefficients ++ unitEntries m i, 0⟩ := by
    rw [Equation.setCoefficient, List.set_append_right _ _ (by omega), hwidth, Nat.add_sub_cancel_left]
    rfl
  have hrhs := Equation.write_rhs (coefficients ++ unitEntries m i) 0 rhs
  rw [List.length_append, hwidth, unitEntries, List.length_set, List.length_replicate] at hrhs
  rw [slackRow, hfilled, Equation.write_coefficient (by rw [hcolumns]; omega), hslack]
  exact hrhs

/-- The rows of constraints of the same width. -/
theorem mapM_slackRow {n : ℕ} {stored : List (StoredConstraint α)}
    (hwidth : ∀ c ∈ stored, c.coefficients.length = n) :
    ((stored.map (·.coefficients)).zip (stored.map (·.label.rhs))).zipIdx.mapM (fun pair =>
      slackRow (n + stored.length) (n + pair.2) pair.1.1 pair.1.2) =
        some (stored.zipIdx.map fun pair =>
          (⟨pair.1.coefficients ++ unitEntries stored.length pair.2, pair.1.label.rhs⟩ :
            Equation α).entries) := by
  rw [List.zip_map', List.zipIdx_map, List.mapM_map]
  refine mapM_eq_some_map fun pair hpair => ?_
  exact slackRow_eq (hwidth pair.1 (List.fst_mem_of_mem_zipIdx hpair)) (List.snd_lt_of_mem_zipIdx hpair) _

/-- What is built from the numbers of constraints in `≤` form, with default names and labels. -/
theorem build_eq (decisions : List (Decision α)) (sense : Sense) (costs : List α)
    (stored : List (StoredConstraint α)) (hdecisions : decisions.length = costs.length)
    (hfault : shapeFault? (stored.map (·.coefficients)) (stored.map (·.label.rhs)) costs = none) :
    build (stored.map (·.coefficients)) (stored.map (·.label.rhs)) costs =
      some (.ok { (Tableau.ofStored decisions sense costs stored).plain with
        sense := .maximize
        costs := costs
        variableNames := (List.range costs.length).map Tableau.defaultVariableName
        labels := (stored.map (·.label.rhs)).zipIdx.map fun pair =>
          ⟨Tableau.defaultConstraintName pair.2, .le, pair.1⟩ }) := by
  have hwidth : ∀ c ∈ stored, c.coefficients.length = costs.length := fun c hc =>
    width_of_shapeFault? hfault _ (List.mem_map_of_mem hc)
  have hobjective : writeAll (List.replicate (costs.length + stored.length + 1) (0 : α))
      (costs.map (-·)) = some (Tableau.ofStored decisions sense costs stored).plain.objective := by
    rw [writeAll_eq_some (by rw [List.length_map, List.length_replicate]; omega), List.drop_replicate,
      List.length_map, show costs.length + stored.length + 1 - costs.length = stored.length + 1 by omega,
      List.replicate_succ', ← List.append_assoc]
    rfl
  have hbasis : List.range' costs.length stored.length =
      (Tableau.ofStored decisions sense costs stored).plain.basis :=
    hdecisions ▸ Tableau.basis_ofStored.symm
  have hrows := mapM_slackRow hwidth
  rw [build, hfault]
  simp only [List.length_map, hrows, hobjective, hbasis, Option.bind_eq_bind, Option.bind_some]
  simp only [Tableau.plain, Tableau.ofStored, List.map_map, hdecisions]
  rfl

/-- The labels of the first tableau are those of the constraints. -/
theorem labels_ofStored (decisions : List (Decision α)) (sense : Sense) (costs : List α)
    (stored : List (StoredConstraint α)) :
    (Tableau.ofStored decisions sense costs stored).rows.map (·.label) = stored.map (·.label) := by
  rw [Tableau.ofStored, List.map_map]
  exact map_zipIdx_fst StoredConstraint.label stored

/-! ## Matrices -/

/-- A tableau is built from a matrix on plain lists. -/
theorem ofMatrix_plain (a : List (List α)) (b c : List α) :
    ofMatrix a b c = some ((Tableau.ofMatrix a b c).map (·.plain)) := by
  rw [ofMatrix, Tableau.ofMatrix]
  cases negativeRightHandSide? b with
  | some fault => rfl
  | none =>
    cases hfault : shapeFault? a b c with
    | some fault => rw [build, hfault]; rfl
    | none =>
      obtain ⟨ha, hb, hlabels⟩ := parts_of_matrix (length_of_shapeFault? hfault)
      have hnames : (c.zipIdx.map fun pair => (⟨Tableau.defaultVariableName pair.2, pair.1⟩ :
          Decision α)).map (·.name) = (List.range c.length).map Tableau.defaultVariableName := by
        rw [List.range_eq_range', ← List.zipIdx_map_snd 0 c, List.map_map, List.map_map]
        rfl
      have hcosts : (c.zipIdx.map fun pair => (⟨Tableau.defaultVariableName pair.2, pair.1⟩ :
          Decision α)).map (·.cost) = c := by
        rw [List.map_map]
        exact List.zipIdx_map_fst 0 c
      have hbuilt := build_eq
        (c.zipIdx.map fun pair => ⟨Tableau.defaultVariableName pair.2, pair.1⟩)
        .maximize c _ (by simp) (by rw [ha, hb]; exact hfault)
      rw [hb, ← hlabels, ha] at hbuilt
      exact hbuilt.trans (congrArg (fun q => some (Except.ok q))
        (relabel_eq hnames hcosts (labels_ofStored _ .maximize c _)))

/-! ## Programs -/

/-- The parts of constraints in `≤` form. -/
def gathered (stored : List (StoredConstraint α)) : Gathered α :=
  ⟨stored.map (·.coefficients), stored.map (·.label.rhs), stored.map (·.label)⟩

/-- The parts of constraints are gathered after those that are there. -/
theorem foldlM_next (width : ℕ) (constraints : List (Constraint α)) (before : List (StoredConstraint α)) :
    constraints.foldlM (Gathered.next width) (gathered before) =
      (storeAll width constraints).map fun stored => gathered (before ++ stored) := by
  induction constraints generalizing before with
  | nil => rw [storeAll, Except.map, List.append_nil]; rfl
  | cons c rest ih =>
    rw [storeAll, List.foldlM_cons, Gathered.next]
    cases c.store width with
    | error fault => rfl
    | ok stored =>
      have hnext := ih (before ++ [stored])
      rw [gathered, List.map_append, List.map_append, List.map_append] at hnext
      refine hnext.trans ?_
      cases storeAll width rest with
      | error fault => rfl
      | ok others => rw [Except.map, Except.map, List.append_assoc, List.singleton_append]

/-- A program gathers the parts of its constraints. -/
theorem gather_eq (width : ℕ) (constraints : List (Constraint α)) :
    gather width constraints = (storeAll width constraints).map gathered :=
  foldlM_next width constraints []

/-- A tableau is built from a program on plain lists. -/
theorem ofProgram_plain (p : LinearProgram α) :
    ofProgram p = some (p.toTableau.map (·.plain)) := by
  rw [ofProgram, LinearProgram.toTableau]
  by_cases hwidth : p.objective.coefficients.length ≠ p.variableCount
  · rw [if_pos hwidth, if_pos hwidth]
    rfl
  · rw [if_neg hwidth, if_neg hwidth, gather_eq]
    cases storeAll p.variableCount p.constraints with
    | error fault => rfl
    | ok stored =>
      dsimp only [Except.map, gathered]
      cases hfault : shapeFault? (stored.map (·.coefficients)) (stored.map (·.label.rhs)) p.costs with
      | some fault => rw [build, hfault]; rfl
      | none =>
        have hlength : p.variableNames.length = p.objective.coefficients.length :=
          (not_not.mp hwidth).symm
        have hdecisions : p.decisions.length = p.costs.length := by
          rw [LinearProgram.decisions, LinearProgram.costs, List.length_zipWith, List.length_map, hlength,
            min_self]
        have hnames : p.decisions.map (·.name) = p.variableNames := by
          rw [LinearProgram.decisions, ← List.map_uncurry_zip_eq_zipWith, List.map_map]
          exact List.map_fst_zip hlength.le
        have hcosts : p.decisions.map (·.cost) = p.objective.coefficients := by
          rw [LinearProgram.decisions, ← List.map_uncurry_zip_eq_zipWith, List.map_map]
          exact List.map_snd_zip hlength.ge
        rw [build_eq p.decisions p.objective.sense p.costs stored hdecisions hfault]
        exact congrArg (fun q => some (Except.ok q))
          (relabel_eq hnames hcosts (labels_ofStored _ p.objective.sense p.costs stored))

end Plain

end WarmSimplex
