import WarmSimplex.Proofs.TwoPhase.Filling

/-!
# What one step of a resolve does

A step on plain rows is a step on the workspace that they lay out: a pivot of a phase or its end, a row
passed, replaced or dropped between the phases, or the objective put back. All that a step can do is
listed once, as a relation between stages and workspaces. Every step on plain rows has a result, and does
what is listed.
-/

namespace WarmSimplex.TwoPhase

variable {α : Type} [Scalar α]

namespace Workspace

variable {w next : Workspace α} {tolerance : α} {before budget column row : ℕ}

/-! ## Rounds -/

/-- One round of a phase: a pivot, or the end of the phase. -/
def round (w : Workspace α) (tolerance : α) (before budget : ℕ) : PhaseEnd ⊕ Workspace α :=
  match w.enteringColumn? tolerance before with
  | none => .inl .optimal
  | some column =>
    if budget = 0 then .inl .iterationLimit
    else
      match w.leavingRow? tolerance column with
      | none => .inl .unbounded
      | some row => .inr (w.pivot row column)

/-- A phase is its first round and the rounds after it. -/
theorem runPhase_eq_round (w : Workspace α) (tolerance : α) (before budget : ℕ) :
    w.runPhase tolerance before budget =
      match w.round tolerance before budget with
      | .inl ending => (w, ending)
      | .inr next => next.runPhase tolerance before (budget - 1) := by
  rw [round]
  cases budget with
  | zero =>
    rw [runPhase]
    cases w.enteringColumn? tolerance before <;> rfl
  | succ budget =>
    rw [runPhase]
    cases w.enteringColumn? tolerance before with
    | none => rfl
    | some column =>
      dsimp only
      cases w.leavingRow? tolerance column <;> rfl

/-- A round with a pivot takes one of the pivots that are left. -/
theorem round_eq_inr (h : w.round tolerance before budget = .inr next) :
    0 < budget ∧ ∃ column row, w.enteringColumn? tolerance before = some column ∧
      w.leavingRow? tolerance column = some row ∧ next = w.pivot row column := by
  rw [round] at h
  split at h
  · cases h
  · rename_i column hcolumn
    split at h
    · cases h
    · rename_i hbudget
      split at h
      · cases h
      · rename_i row hrow
        exact ⟨Nat.pos_of_ne_zero hbudget, column, row, hcolumn, hrow, (Sum.inr.inj h).symm⟩

/-- A round ends a phase as optimal only if no column enters. -/
theorem enteringColumn?_of_round (h : w.round tolerance before budget = .inl .optimal) :
    w.enteringColumn? tolerance before = none := by
  rw [round] at h
  split at h
  · assumption
  · split at h
    · cases h
    · split at h <;> cases h

/-- The entering column is one of those looked at. -/
theorem enteringColumn?_lt (h : w.enteringColumn? tolerance before = some column) :
    column < before ∧ column < w.columnCount := by
  obtain ⟨hin, -⟩ := List.findIdx?_eq_some_iff_getElem.mp h
  rw [List.length_take] at hin
  exact Nat.lt_min.mp hin

/-- The entering column has a reduced cost below the negated tolerance. -/
theorem enteringColumn?_cost (h : w.enteringColumn? tolerance before = some column) :
    w.objective.coefficient column < -tolerance := by
  obtain ⟨hin, hcost, -⟩ := List.findIdx?_eq_some_iff_getElem.mp h
  rw [List.length_take] at hin
  rw [Equation.coefficient, List.getD_eq_getElem _ _ (by omega)]
  simpa using hcost

/-- In the leaving row the column has an entry above the tolerance. -/
theorem exists_of_leavingRow? (h : w.leavingRow? tolerance column = some row) :
    ∃ r, w.rows[row]? = some r ∧ tolerance < r.coefficient column := by
  obtain ⟨bound, hbound, rfl⟩ := Option.map_eq_some_iff.mp h
  obtain ⟨i, r, hr, hentry, rfl⟩ := (mem_filterMap_zipIdx
    (p := fun r : BasicRow α => tolerance < r.coefficient column) fun _ _ => rfl).mp
      (mem_of_scan_eq_some hbound)
  exact ⟨r, hr, hentry⟩

/-- The leaving row is there. -/
theorem leavingRow?_lt (h : w.leavingRow? tolerance column = some row) : row < w.rows.length := by
  obtain ⟨r, hr, -⟩ := exists_of_leavingRow? h
  exact (List.getElem?_eq_some_iff.mp hr).1

/-- A replacement is a column before the artificial ones. -/
theorem replacement?_lt {r : BasicRow α} (h : w.replacement? tolerance r = some column) :
    column < w.artificialStart := by
  obtain ⟨hin, -⟩ := List.findIdx?_eq_some_iff_getElem.mp h
  rw [List.length_take] at hin
  exact (Nat.lt_min.mp hin).1

/-- A round on plain rows. -/
theorem Regular.round_dense (h : w.Regular) (tolerance : α) (hbefore : before ≤ w.columnCount)
    (budget : ℕ) : w.dense.round tolerance before budget =
      some ((w.round tolerance before budget).map id dense) := by
  rw [Dense.round, enteringColumn_dense tolerance hbefore, round]
  cases hcolumn : w.enteringColumn? tolerance before with
  | none => rfl
  | some column =>
    have hin := (enteringColumn?_lt hcolumn).2
    simp only [Option.bind_eq_bind, Option.bind_some]
    split
    · rfl
    · rw [h.leavingRow_dense tolerance hin, Option.bind_some]
      cases hrow : w.leavingRow? tolerance column with
      | none => rfl
      | some row =>
        dsimp only
        rw [h.pivot_dense (leavingRow?_lt hrow) hin]
        rfl

variable {first : Workspace α}

/-- A pivot keeps the width and the number of columns. -/
theorem Within.pivot (h : first.Within w) (hcolumn : column < w.columnCount) (row : ℕ) :
    first.Within (w.pivot row column) :=
  ⟨h.regular.pivot hcolumn row, by rw [h.regular.columnCount_pivot, h.columnCount],
    by rw [artificialStart_pivot, h.artificialStart]⟩

/-- A round keeps the width and the number of columns. -/
theorem Within.round (h : first.Within w) (hround : w.round tolerance before budget = .inr next) :
    first.Within next := by
  obtain ⟨-, column, row, hcolumn, -, rfl⟩ := round_eq_inr hround
  exact h.pivot (enteringColumn?_lt hcolumn).2 row

end Workspace

/-! ## Turns -/

/-- What a step does: from a stage and a workspace to the next ones. The equation is the objective that
the first phase keeps. -/
inductive Turn (options : Options α) (e : Equation α) :
    Stage α → Workspace α → Stage α → Workspace α → Prop
  | pivotFirst {budget saved w next}
      (h : w.round options.tolerance w.columnCount budget = .inr next) :
      Turn options e (.first budget saved) w (.first (budget - 1) saved) next
  | unbounded {budget saved w}
      (h : w.round options.tolerance w.columnCount budget = .inl .unbounded) :
      Turn options e (.first budget saved) w (.done .infeasible) w
  | exhausted {budget saved w}
      (h : w.round options.tolerance w.columnCount budget = .inl .iterationLimit) :
      Turn options e (.first budget saved) w (.done .iterationLimit) w
  | infeasible {budget saved w}
      (h : w.round options.tolerance w.columnCount budget = .inl .optimal)
      (hvalue : w.objective.rhs < -options.tolerance) :
      Turn options e (.first budget saved) w (.done .infeasible) w
  | feasible {budget saved w}
      (h : w.round options.tolerance w.columnCount budget = .inl .optimal)
      (hvalue : ¬w.objective.rhs < -options.tolerance) :
      Turn options e (.first budget saved) w (.clearing 0 saved) w
  | pass {row saved w r} (hr : w.rows[row]? = some r) (hlow : r.basic < w.artificialStart) :
      Turn options e (.clearing row saved) w (.clearing (row + 1) saved) w
  | replace {row saved w r column} (hr : w.rows[row]? = some r) (hhigh : ¬r.basic < w.artificialStart)
      (hcolumn : w.replacement? options.tolerance r = some column) :
      Turn options e (.clearing row saved) w (.clearing (row + 1) saved) (w.pivot row column)
  | drop {row saved w r} (hr : w.rows[row]? = some r) (hhigh : ¬r.basic < w.artificialStart)
      (hcolumn : w.replacement? options.tolerance r = none) :
      Turn options e (.clearing row saved) w (.clearing row saved)
        { w with rows := w.rows.eraseIdx row }
  | restore {row saved w} (h : w.rows.length ≤ row) :
      Turn options e (.clearing row saved) w (.second options.maxIterations) (w.reprice e)
  | pivotSecond {budget w next}
      (h : w.round options.tolerance w.artificialStart budget = .inr next) :
      Turn options e (.second budget) w (.second (budget - 1)) next
  | finish {budget w ending}
      (h : w.round options.tolerance w.artificialStart budget = .inl ending) :
      Turn options e (.second budget) w (.done ending.status) w
  | stay {status w} : Turn options e (.done status) w (.done status) w

/-- The first phase keeps the entries of the objective and their number. -/
def Stage.Keeps (e : Equation α) : Stage α → Prop
  | .first _ saved => saved = ⟨e.entries, e.coefficients.length + 1⟩
  | .clearing _ saved => saved = ⟨e.entries, e.coefficients.length + 1⟩
  | .second _ => True
  | .done _ => True

variable {options : Options α} {e : Equation α} {stage later : Stage α} {w next : Workspace α}

/-- A step keeps what the first phase keeps. -/
theorem Turn.keeps (h : Turn options e stage w later next) (hkeeps : stage.Keeps e) :
    later.Keeps e := by
  cases h with
  | pivotFirst | feasible | pass | replace | drop => exact hkeeps
  | unbounded | exhausted | infeasible | restore | pivotSecond | finish | stay => exact trivial

/-- A step keeps the width of the rows and the number of columns. -/
theorem Turn.within {first : Workspace α} (h : Turn options e stage w later next)
    (hw : first.Within w) (he : e.coefficients.length = first.columnCount) : first.Within next := by
  cases h with
  | pivotFirst h | pivotSecond h => exact hw.round h
  | unbounded | exhausted | infeasible | feasible | pass | finish | stay => exact hw
  | replace hr hhigh hcolumn =>
    exact hw.pivot ((Workspace.replacement?_lt hcolumn).trans_le hw.regular.artificialStart_le) _
  | drop => exact hw.eraseIdx _
  | restore =>
    have hclear := hw.regular.clearBasic_dense (he.trans hw.columnCount.symm)
    exact hw.withObjective (hclear.2.trans hw.columnCount)

/-- A step of the first phase. -/
theorem exists_turn_first (h : w.Regular) (budget : ℕ) (saved : Dense.Saved α)
    (hsaved : saved.width = w.columnCount + 1) : ∃ later next,
      Turn options e (.first budget saved) w later next ∧
        Machine.stepFirst options budget saved w.dense = some ⟨later, next.dense⟩ := by
  simp only [Machine.stepFirst, hsaved, predecessor_succ, Option.bind_eq_bind, Option.bind_some,
    h.round_dense options.tolerance le_rfl]
  cases hround : w.round options.tolerance w.columnCount budget with
  | inr next => exact ⟨_, _, .pivotFirst hround, rfl⟩
  | inl ending =>
    cases ending with
    | unbounded => exact ⟨_, _, .unbounded hround, rfl⟩
    | iterationLimit => exact ⟨_, _, .exhausted hround, rfl⟩
    | optimal =>
      have hread : w.objective.entries[w.columnCount]? = some w.objective.rhs :=
        List.getElem?_concat_length
      simp only [Sum.map_inl, id_eq, Workspace.objectiveIndex_dense, Workspace.data_dense_objective,
        hread, Option.bind_some]
      by_cases hvalue : w.objective.rhs < -options.tolerance
      · exact ⟨_, _, .infeasible hround hvalue, by rw [if_pos hvalue]⟩
      · exact ⟨_, _, .feasible hround hvalue, by rw [if_neg hvalue]⟩

/-- A step between the phases. -/
theorem exists_turn_clearing (h : w.Regular) (hwidth : e.coefficients.length = w.columnCount) (row : ℕ) :
    ∃ later next,
      Turn options e (.clearing row ⟨e.entries, e.coefficients.length + 1⟩) w later next ∧
        Machine.stepClearing options row ⟨e.entries, e.coefficients.length + 1⟩ w.dense =
          some ⟨later, next.dense⟩ := by
  have hcount : w.dense.basics.length = w.rows.length := List.length_map _
  rw [Machine.stepClearing, hcount]
  by_cases hrow : row < w.rows.length
  · obtain ⟨r, hr⟩ : ∃ r, w.rows[row]? = some r := ⟨_, List.getElem?_eq_getElem hrow⟩
    have hreplacement := Workspace.replacement_dense options.tolerance hr
      (h.artificialStart_le.trans_eq (h.width r (List.mem_of_getElem? hr)).symm)
    rw [if_pos hrow]
    simp only [Workspace.basics_dense hr, hreplacement, Option.bind_eq_bind, Option.bind_some]
    by_cases hlow : r.basic < w.artificialStart
    · exact ⟨_, _, .pass hr hlow, if_pos hlow⟩
    · rw [show w.dense.artificialStart = w.artificialStart from rfl, if_neg hlow]
      cases hcolumn : w.replacement? options.tolerance r with
      | none => exact ⟨_, _, .drop hr hlow hcolumn, by rw [Workspace.dropRow_dense hrow]; rfl⟩
      | some column =>
        have hin := (Workspace.replacement?_lt hcolumn).trans_le h.artificialStart_le
        refine ⟨_, _, .replace hr hlow hcolumn, ?_⟩
        dsimp only
        rw [h.pivot_dense hrow hin]
        rfl
  · rw [if_neg hrow, hwidth, h.restore_dense hwidth]
    exact ⟨_, _, .restore (not_lt.mp hrow), rfl⟩

/-- A step of the second phase. -/
theorem exists_turn_second (h : w.Regular) (budget : ℕ) : ∃ later next,
    Turn options e (.second budget) w later next ∧
      Machine.stepSecond options budget w.dense = some ⟨later, next.dense⟩ := by
  rw [Machine.stepSecond, show w.dense.artificialStart = w.artificialStart from rfl,
    h.round_dense options.tolerance h.artificialStart_le]
  cases hround : w.round options.tolerance w.artificialStart budget with
  | inr next => exact ⟨_, _, .pivotSecond hround, rfl⟩
  | inl ending => exact ⟨_, _, .finish hround, rfl⟩

/-- Every step on plain rows has a result, and does what is listed. -/
theorem exists_turn (h : w.Regular) (hwidth : e.coefficients.length = w.columnCount)
    (hkeeps : stage.Keeps e) : ∃ later next, Turn options e stage w later next ∧
      Machine.step options ⟨stage, w.dense⟩ = some ⟨later, next.dense⟩ := by
  cases stage with
  | first budget saved => exact exists_turn_first h budget saved (by rw [hkeeps, hwidth])
  | clearing row saved =>
    cases hkeeps
    exact exists_turn_clearing h hwidth row
  | second budget => exact exists_turn_second h budget
  | done status => exact ⟨_, _, .stay, rfl⟩

/-- The first step of a resolve starts with the first phase if there are artificial columns. -/
theorem start_dense (options : Options α) (p : LinearProgram α) :
    Machine.start options p = some
      (if (Workspace.ofProgram p).artificialStart < (Workspace.ofProgram p).columnCount then
        ⟨.first options.maxIterations ⟨(Workspace.ofProgram p).objective.entries,
          (Workspace.ofProgram p).columnCount + 1⟩,
          { Workspace.ofProgram p with
            objective := (Workspace.ofProgram p).artificialObjective : Workspace α }.dense⟩
      else ⟨.second options.maxIterations, (Workspace.ofProgram p).dense⟩) := by
  have hregular := Workspace.regular_ofProgram p
  simp only [Machine.start, Workspace.dense_ofProgram, hregular.rhsIndex_dense, hregular.setAside_dense,
    Option.bind_eq_bind, Option.bind_some]
  rw [show (Workspace.ofProgram p).dense.artificialStart = (Workspace.ofProgram p).artificialStart
    from rfl]
  split <;> rfl

end WarmSimplex.TwoPhase
