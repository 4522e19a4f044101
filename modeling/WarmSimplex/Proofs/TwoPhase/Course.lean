import WarmSimplex.Proofs.TwoPhase.Artificials
import WarmSimplex.Proofs.TwoPhase.Turns

/-!
# The course of a resolve

Three things go along with a resolve from step to step: what its rest comes to, how many steps it can
still make, and an account of the pivots. The two phases make no more pivots than they are allowed.
Between them every pivot puts a column that is not artificial in the place of one that is, so there are
no more of them than rows with an artificial basic column when the first phase ends.

How many such rows there are is left open here. A property of workspaces that the pivots of the first
phase keep, and that bounds these rows once no column enters, stands for it.
-/

namespace WarmSimplex.TwoPhase

/-- There is one entry more from an index on than after it. -/
theorem length_sub_of_getElem? {β : Type} {entries : List β} {i : ℕ} {b : β} (h : entries[i]? = some b) :
    entries.length - i = entries.length - (i + 1) + 1 := by
  have hi := (List.getElem?_eq_some_iff.mp h).1
  omega

section Basics

variable {α : Type} {w : Workspace α}

/-- The number of rows whose basic column is artificial. -/
def Workspace.artificialBasics (w : Workspace α) : ℕ :=
  w.rows.countP fun r => decide (w.artificialStart ≤ r.basic)

/-- It can be read off the basic columns. -/
theorem Workspace.artificialBasics_eq (w : Workspace α) : w.artificialBasics =
    (w.rows.map (·.basic)).countP fun column => decide (w.artificialStart ≤ column) := by
  rw [List.countP_map]
  rfl

end Basics

variable {α : Type} [Scalar α] {options : Options α} {e : Equation α} {stage later : Stage α}
  {w next : Workspace α}

/-! ## What the rest comes to -/

/-- What a resolve comes to from a stage on. -/
def Workspace.rest (options : Options α) (e : Equation α) :
    Stage α → Workspace α → Workspace α × Status
  | .first budget _, w =>
    match w.runPhase options.tolerance w.columnCount budget with
    | (reached, .unbounded) => (reached, .infeasible)
    | (reached, .iterationLimit) => (reached, .iterationLimit)
    | (reached, .optimal) =>
      if reached.objective.rhs < -options.tolerance then (reached, .infeasible)
      else
        ((dropArtificials options.tolerance reached.rows.length 0 reached).reprice e).secondPhase options
  | .clearing row _, w =>
    ((dropArtificials options.tolerance (w.rows.length - row) row w).reprice e).secondPhase options
  | .second budget, w =>
    match w.runPhase options.tolerance w.artificialStart budget with
    | (reached, ending) => (reached, ending.status)
  | .done status, w => (w, status)

/-- The second phase is what comes from its stage on. -/
theorem Workspace.secondPhase_eq_rest (options : Options α) (e : Equation α) (w : Workspace α) :
    w.secondPhase options = rest options e (.second options.maxIterations) w := by
  rw [secondPhase, rest]
  obtain ⟨reached, ending⟩ := w.runPhase options.tolerance w.artificialStart options.maxIterations
  cases ending <;> rfl

/-- With artificial columns, a resolve is what comes from the first phase on. -/
theorem Workspace.run_eq_rest (options : Options α) (w : Workspace α) (saved : Dense.Saved α)
    (hartificial : w.artificialStart < w.columnCount)
    (hwidth : w.artificialObjective.coefficients.length = w.columnCount) : w.run options =
      rest options w.objective (.first options.maxIterations saved)
        { w with objective := w.artificialObjective } := by
  have hcolumns : ({ w with objective := w.artificialObjective } : Workspace α).columnCount =
      w.columnCount := hwidth
  rw [run, if_pos hartificial, firstPhase, rest, hcolumns]
  obtain ⟨reached, ending⟩ := ({ w with objective := w.artificialObjective } : Workspace α).runPhase
    options.tolerance w.columnCount options.maxIterations
  cases ending with
  | unbounded | iterationLimit => rfl
  | optimal =>
    dsimp only
    by_cases hvalue : reached.objective.rhs < -options.tolerance
    · rw [if_pos hvalue, if_pos hvalue]
    · rw [if_neg hvalue, if_neg hvalue]

/-- A step leaves what the resolve comes to as it is. -/
theorem Turn.rest_eq (h : Turn options e stage w later next) (hw : w.Regular) :
    next.rest options e later = w.rest options e stage := by
  cases h with
  | pivotFirst h =>
    have hcolumns := (hw.within.round h).columnCount
    simp only [Workspace.rest, hcolumns, w.runPhase_eq_round, h]
  | unbounded h | exhausted h => simp only [Workspace.rest, w.runPhase_eq_round, h]
  | infeasible h hvalue => simp only [Workspace.rest, w.runPhase_eq_round, h, if_pos hvalue]
  | feasible h hvalue =>
    simp only [Workspace.rest, w.runPhase_eq_round, h, if_neg hvalue, Nat.sub_zero]
  | pass hr hlow =>
    simp only [Workspace.rest, length_sub_of_getElem? hr, Workspace.dropArtificials, hr, if_pos hlow]
  | replace hr hhigh hcolumn =>
    simp only [Workspace.rest, length_sub_of_getElem? hr, Workspace.dropArtificials, hr, if_neg hhigh,
      hcolumn, Workspace.length_rows_pivot]
  | drop hr hhigh hcolumn =>
    have hrow := (List.getElem?_eq_some_iff.mp hr).1
    simp only [Workspace.rest, length_sub_of_getElem? hr, Workspace.dropArtificials, hr, if_neg hhigh,
      hcolumn, List.length_eraseIdx_of_lt hrow, Nat.sub_right_comm _ 1]
    rfl
  | restore h =>
    rw [← Workspace.secondPhase_eq_rest, Workspace.rest, Nat.sub_eq_zero_of_le h,
      Workspace.dropArtificials]
  | pivotSecond h =>
    have hstart := (hw.within.round h).artificialStart
    simp only [Workspace.rest, hstart, w.runPhase_eq_round, h]
  | finish h => simp only [Workspace.rest, w.runPhase_eq_round, h]
  | stay => rfl

/-! ## How many steps are left -/

/-- A bound on the steps that a resolve can still make. -/
def Stage.stepsLeft (options : Options α) : Stage α → Workspace α → ℕ
  | .first budget _, w => budget + w.rows.length + options.maxIterations + 3
  | .clearing row _, w => w.rows.length - row + options.maxIterations + 2
  | .second budget, _ => budget + 1
  | .done _, _ => 0

/-- A step uses one of those that are left. -/
theorem Turn.stepsLeft_le (h : Turn options e stage w later next) :
    later.stepsLeft options next ≤ stage.stepsLeft options w - 1 := by
  cases h with
  | pivotFirst h =>
    obtain ⟨hbudget, column, row, -, -, rfl⟩ := Workspace.round_eq_inr h
    simp only [Stage.stepsLeft, Workspace.length_rows_pivot]
    omega
  | pivotSecond h =>
    have hbudget := (Workspace.round_eq_inr h).1
    simp only [Stage.stepsLeft]
    omega
  | unbounded | exhausted | infeasible | finish | stay => exact Nat.zero_le _
  | feasible | restore =>
    simp only [Stage.stepsLeft]
    omega
  | pass hr | replace hr | drop hr =>
    have hrow := (List.getElem?_eq_some_iff.mp hr).1
    simp only [Stage.stepsLeft, Workspace.length_rows_pivot, List.length_eraseIdx_of_lt hrow]
    omega

/-- Only a resolve that is done has no steps left. -/
theorem Stage.eq_done_of_stepsLeft (h : stage.stepsLeft options w = 0) :
    ∃ status, stage = .done status := by
  cases stage with
  | done status => exact ⟨status, rfl⟩
  | first | clearing | second => cases h

/-! ## The account of the pivots -/

/-- A pivot that replaces an artificial column by one that is not leaves one less. -/
theorem Workspace.artificialBasics_pivot {row column : ℕ} {r : BasicRow α} (hr : w.rows[row]? = some r)
    (hhigh : w.artificialStart ≤ r.basic) (hcolumn : column < w.artificialStart) :
    (w.pivot row column).artificialBasics + 1 = w.artificialBasics := by
  have hbasis : (w.rows.map (·.basic))[row]? = some r.basic := by rw [List.getElem?_map, hr]; rfl
  obtain ⟨hrow, hbasic⟩ := List.getElem?_eq_some_iff.mp hbasis
  have hpos : 0 < w.artificialBasics := by
    rw [artificialBasics_eq, List.countP_pos_iff]
    exact ⟨r.basic, List.mem_of_getElem? hbasis, decide_eq_true hhigh⟩
  rw [artificialBasics_eq] at hpos ⊢
  rw [artificialBasics_eq, basis_pivot, artificialStart_pivot, List.countP_set hrow, hbasic,
    if_pos (decide_eq_true hhigh), if_neg (by simpa using hcolumn)]
  omega

/-- The property of workspaces is kept by the pivots of the first phase, and once no column enters no
more rows than given have an artificial basic column. -/
structure Workspace.Bounding (tolerance : α) (room : ℕ) (I : Workspace α → Prop) : Prop where
  pivot : ∀ {w column row}, I w → w.Regular → w.enteringColumn? tolerance w.columnCount = some column →
    w.leavingRow? tolerance column = some row → I (w.pivot row column)
  room : ∀ {w}, I w → w.Regular → w.enteringColumn? tolerance w.columnCount = none →
    w.artificialBasics ≤ room

/-- The account at a stage: the pivots made, those still allowed, and where artificial columns can be
basic. -/
def Stage.Accounts (options : Options α) (room : ℕ) (I : Workspace α → Prop) :
    Stage α → Workspace α → Prop
  | .first budget _, w => I w ∧ w.iterations + budget ≤ options.maxIterations
  | .clearing row _, w =>
    w.Passed w.rows row ∧ w.iterations + w.artificialBasics ≤ options.maxIterations + room
  | .second budget, w =>
    (∀ r ∈ w.rows, r.basic < w.artificialStart) ∧
      w.iterations + budget ≤ 2 * options.maxIterations + room
  | .done _, w => w.iterations ≤ 2 * options.maxIterations + room

variable {room : ℕ} {I : Workspace α → Prop}

/-- An account bounds the pivots. -/
theorem Stage.Accounts.iterations_le (h : stage.Accounts options room I w) :
    w.iterations ≤ 2 * options.maxIterations + room := by
  cases stage with
  | first budget saved | clearing row saved | second budget =>
    obtain ⟨-, hcount⟩ := h
    omega
  | done status => exact h

/-- A step keeps the account. -/
theorem Turn.accounts (hI : Workspace.Bounding options.tolerance room I)
    (h : Turn options e stage w later next) (hw : w.Regular)
    (haccounts : stage.Accounts options room I w) : later.Accounts options room I next := by
  cases h with
  | pivotFirst h =>
    obtain ⟨hbudget, column, row, hcolumn, hrow, rfl⟩ := Workspace.round_eq_inr h
    obtain ⟨hbounding, hcount⟩ := haccounts
    refine ⟨hI.pivot hbounding hw hcolumn hrow, ?_⟩
    rw [Workspace.iterations_pivot (Workspace.leavingRow?_lt hrow)]
    omega
  | unbounded | exhausted | infeasible =>
    obtain ⟨-, hcount⟩ := haccounts
    simp only [Stage.Accounts]
    omega
  | feasible h =>
    obtain ⟨hbounding, hcount⟩ := haccounts
    have hroom := hI.room hbounding hw (Workspace.enteringColumn?_of_round h)
    exact ⟨fun i hi => absurd hi (Nat.not_lt_zero i), by omega⟩
  | pass hr hlow =>
    obtain ⟨hpassed, hcount⟩ := haccounts
    refine ⟨hpassed.succ fun s hs => ?_, hcount⟩
    rw [hr, Option.some.injEq] at hs
    exact hs ▸ hlow
  | replace hr hhigh hcolumn =>
    obtain ⟨hpassed, hcount⟩ := haccounts
    have hin := Workspace.replacement?_lt hcolumn
    have hbasics := Workspace.artificialBasics_pivot hr (not_lt.mp hhigh) hin
    refine ⟨?_, ?_⟩
    · rw [Workspace.Passed, Workspace.artificialStart_pivot]
      exact hpassed.pivot hin
    · rw [Workspace.iterations_pivot (List.getElem?_eq_some_iff.mp hr).1]
      omega
  | drop hr hhigh hcolumn =>
    obtain ⟨hpassed, hcount⟩ := haccounts
    refine ⟨hpassed.eraseIdx, le_trans ?_ hcount⟩
    exact Nat.add_le_add_left ((List.eraseIdx_sublist _ _).countP_le) _
  | restore h =>
    obtain ⟨hpassed, hcount⟩ := haccounts
    exact ⟨hpassed.all h, show w.iterations + options.maxIterations ≤ _ by omega⟩
  | pivotSecond h =>
    obtain ⟨hbudget, column, row, hcolumn, hrow, rfl⟩ := Workspace.round_eq_inr h
    obtain ⟨hbasics, hcount⟩ := haccounts
    refine ⟨?_, ?_⟩
    · rw [Workspace.artificialStart_pivot]
      exact Workspace.basic_lt_pivot hbasics (Workspace.enteringColumn?_lt hcolumn).1 row
    · rw [Workspace.iterations_pivot (Workspace.leavingRow?_lt hrow)]
      omega
  | finish h =>
    obtain ⟨-, hcount⟩ := haccounts
    simp only [Stage.Accounts]
    omega
  | stay => exact haccounts

/-! ## Every step of a resolve -/

variable {p : LinearProgram α} {n : ℕ}

/-- What holds of the stage and the workspace of a resolve after a number of steps. -/
structure OnCourse (options : Options α) (p : LinearProgram α) (room : ℕ) (I : Workspace α → Prop)
    (n : ℕ) (stage : Stage α) (w : Workspace α) : Prop where
  within : (Workspace.ofProgram p).Within w
  keeps : stage.Keeps (Workspace.ofProgram p).objective
  accounts : stage.Accounts options room I w
  rest : w.rest options (Workspace.ofProgram p).objective stage = (Workspace.ofProgram p).run options
  pace : stage.stepsLeft options w + n ≤ 2 * options.maxIterations + p.constraints.length + 3 ∨
    stage.stepsLeft options w = 0

/-- A step goes on with the course. -/
theorem OnCourse.turn (hI : Workspace.Bounding options.tolerance room I)
    (hcourse : OnCourse options p room I n stage w)
    (h : Turn options (Workspace.ofProgram p).objective stage w later next) :
    OnCourse options p room I (n + 1) later next := by
  have hregular := hcourse.within.regular
  refine ⟨h.within hcourse.within rfl, h.keeps hcourse.keeps, h.accounts hI hregular hcourse.accounts,
    (h.rest_eq hregular).trans hcourse.rest, ?_⟩
  have hpace := hcourse.pace
  have hless := h.stepsLeft_le
  omega

/-- A resolve starts on its course. -/
theorem exists_onCourse_start (options : Options α) (p : LinearProgram α)
    (hstart : I { Workspace.ofProgram p with
      objective := (Workspace.ofProgram p).artificialObjective }) :
    ∃ stage w, Machine.start options p = some ⟨stage, w.dense⟩ ∧
      OnCourse options p room I 0 stage w := by
  have hregular := Workspace.regular_ofProgram p
  have hrows : (Workspace.ofProgram p).rows.length = p.constraints.length :=
    Workspace.length_initialRows _ _ _ _ _
  have hwidth := hregular.priceOut_dense.2
  rw [start_dense]
  by_cases hartificial : (Workspace.ofProgram p).artificialStart < (Workspace.ofProgram p).columnCount
  · rw [if_pos hartificial]
    refine ⟨_, _, rfl, hregular.within.withObjective hwidth, rfl, ⟨hstart, (Nat.zero_add _).le⟩,
      (Workspace.run_eq_rest options _ _ hartificial hwidth).symm, .inl ?_⟩
    simp only [Stage.stepsLeft, hrows]
    omega
  · rw [if_neg hartificial]
    refine ⟨_, _, rfl, hregular.within, trivial, ⟨fun r hr => ?_, ?_⟩, ?_, .inl ?_⟩
    · exact (hregular.basic_lt r hr).trans_le (not_lt.mp hartificial)
    · rw [show (Workspace.ofProgram p).iterations = 0 from rfl]
      omega
    · rw [← Workspace.secondPhase_eq_rest, Workspace.run, if_neg hartificial]
    · simp only [Stage.stepsLeft]
      omega

/-- A resolve stays on its course. -/
theorem exists_onCourse (hI : Workspace.Bounding options.tolerance room I)
    (hstart : I { Workspace.ofProgram p with
      objective := (Workspace.ofProgram p).artificialObjective })
    (n : ℕ) : ∃ stage w, Machine.after options p n = some ⟨stage, w.dense⟩ ∧
      OnCourse options p room I n stage w := by
  induction n with
  | zero => exact exists_onCourse_start options p hstart
  | succ n ih =>
    obtain ⟨stage, w, hafter, hcourse⟩ := ih
    obtain ⟨later, next, hturn, hstep⟩ :=
      exists_turn hcourse.within.regular hcourse.within.columnCount.symm hcourse.keeps
    refine ⟨later, next, ?_, hcourse.turn hI hturn⟩
    rw [Machine.after, hafter, Option.bind_some, hstep]

end WarmSimplex.TwoPhase
