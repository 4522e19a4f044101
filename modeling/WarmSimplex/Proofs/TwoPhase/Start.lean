import WarmSimplex.Proofs.TwoPhase.InitialRow

/-!
# Where the two-phase method starts

The first workspace has a row for each constraint, with a right-hand side that is not negative and a
basic column of its own. The vectors that solve its rows, without negative entries and with zeros in
the artificial columns, are the feasible points together with their slacks.

Slack and artificial columns are handed out from left to right, so the columns of a row are told
apart from those of later rows by their place alone.
-/

namespace WarmSimplex.TwoPhase

/-! ## Columns -/

section Columns

variable {α : Type} [Scalar α] {c : Constraint α} {rest constraints : List (Constraint α)}
  {width columns slack artificial : ℕ}

/-- The rows mention variables and the columns that their constraints take. -/
theorem initialRows_mention {r : BasicRow α}
    (hr : r ∈ initialRows width columns slack artificial constraints) {j : ℕ}
    (hj : r.coefficient j ≠ 0) :
    j < width ∨ slack ≤ j ∧ j < slack + slackCount constraints ∨
      artificial ≤ j ∧ j < artificial + artificialCount constraints := by
  induction constraints generalizing slack artificial with
  | nil => cases hr
  | cons c rest ih =>
    rw [initialRows_cons] at hr
    rw [slackCount_cons, artificialCount_cons]
    rcases List.mem_cons.mp hr with rfl | hr
    · have hown := initialRow_mentions hj
      omega
    · have hlater := ih hr
      omega

/-- The rows are solved for columns that their constraints take. -/
theorem basic_initialRows {r : BasicRow α}
    (hr : r ∈ initialRows width columns slack artificial constraints) :
    slack ≤ r.basic ∧ r.basic < slack + slackCount constraints ∨
      artificial ≤ r.basic ∧ r.basic < artificial + artificialCount constraints := by
  induction constraints generalizing slack artificial with
  | nil => cases hr
  | cons c rest ih =>
    rw [initialRows_cons] at hr
    rw [slackCount_cons, artificialCount_cons]
    rcases List.mem_cons.mp hr with rfl | hr
    · have hown := basic_initialRow width columns slack artificial c
      omega
    · have hlater := ih hr
      omega

/-- The rows of a list of constraints are as wide as they are asked to be. -/
theorem length_of_mem_initialRows (hwidth : width ≤ columns) {r : BasicRow α}
    (hr : r ∈ initialRows width columns slack artificial constraints) :
    r.coefficients.length = columns := by
  induction constraints generalizing slack artificial with
  | nil => cases hr
  | cons c rest ih =>
    rw [initialRows_cons] at hr
    rcases List.mem_cons.mp hr with rfl | hr
    · exact length_initialRow hwidth _ _ c
    · exact ih hr

/-- The row of the first constraint and a later one are solved for different columns, and do not mention
each other's. -/
theorem initialRow_apart (h : Fits width columns slack artificial (c :: rest)) {r : BasicRow α}
    (hr : r ∈ initialRows width columns (slack + slackUse c) (artificial + artificialUse c) rest) :
    r.basic ≠ (initialRow width columns slack artificial c).basic ∧
      r.coefficient (initialRow width columns slack artificial c).basic = 0 ∧
        (initialRow width columns slack artificial c).coefficient r.basic = 0 := by
  have hvariables := h.afterVariables
  have hslacks := h.afterSlacks
  have hbasic := basic_initialRow width columns slack artificial c
  have hlater := basic_initialRows hr
  rw [slackCount_cons] at hslacks
  refine ⟨by omega, ?_, ?_⟩
  · by_contra hentry
    have hmention := initialRows_mention hr hentry
    omega
  · by_contra hentry
    have hmention := initialRow_mentions hentry
    omega

/-- The basic columns of the rows are different ones. -/
theorem nodup_initialRows (h : Fits width columns slack artificial constraints) :
    ((initialRows width columns slack artificial constraints).map (·.basic)).Nodup := by
  induction constraints generalizing slack artificial with
  | nil => exact List.nodup_nil
  | cons c rest ih =>
    rw [initialRows_cons, List.map_cons, List.nodup_cons]
    refine ⟨fun hmem => ?_, ih h.tail⟩
    obtain ⟨r, hr, hsame⟩ := List.mem_map.mp hmem
    exact (initialRow_apart h hr).1 hsame

/-- In its basic column a row has a one. -/
theorem coefficient_initialRows_own (h : Fits width columns slack artificial constraints)
    {r : BasicRow α} (hr : r ∈ initialRows width columns slack artificial constraints) :
    r.coefficient r.basic = 1 := by
  induction constraints generalizing slack artificial with
  | nil => cases hr
  | cons c rest ih =>
    rw [initialRows_cons] at hr
    rcases List.mem_cons.mp hr with rfl | hr
    · exact coefficient_initialRow_basic h
    · exact ih h.tail hr

/-- In the basic column of another row it has a zero. -/
theorem coefficient_initialRows_other (h : Fits width columns slack artificial constraints)
    {r s : BasicRow α} (hr : r ∈ initialRows width columns slack artificial constraints)
    (hs : s ∈ initialRows width columns slack artificial constraints) (hne : s.basic ≠ r.basic) :
    r.coefficient s.basic = 0 := by
  induction constraints generalizing slack artificial with
  | nil => cases hr
  | cons c rest ih =>
    rw [initialRows_cons] at hr hs
    rcases List.mem_cons.mp hr with rfl | hr
    · rcases List.mem_cons.mp hs with rfl | hs
      · exact absurd rfl hne
      · exact (initialRow_apart h hs).2.2
    · rcases List.mem_cons.mp hs with rfl | hs
      · exact (initialRow_apart h hr).2.1
      · exact ih h.tail hr hs

/-- The columns of the first workspace fit in it. -/
theorem Workspace.fits_ofProgram (p : LinearProgram α) :
    Fits p.variableCount
      (p.variableCount + slackCount p.constraints + artificialCount p.constraints)
      p.variableCount (p.variableCount + slackCount p.constraints) p.constraints :=
  ⟨le_rfl, le_rfl, le_rfl⟩

/-- The number of columns of the first workspace. -/
theorem Workspace.columnCount_ofProgram (p : LinearProgram α) :
    (Workspace.ofProgram p).columnCount =
      p.variableCount + slackCount p.constraints + artificialCount p.constraints := by
  simp only [Workspace.ofProgram, Workspace.columnCount, List.length_append, length_fit,
    List.length_replicate]
  omega

end Columns

variable {constraints : List (Constraint ℚ)} {width columns slack artificial : ℕ} {v : ℕ → ℚ}

/-! ## The rows of a list of constraints -/

/-- The rows are solved for columns of their own. -/
theorem solvedRows_initialRows (h : Fits width columns slack artificial constraints) :
    SolvedRows columns (initialRows width columns slack artificial constraints) := by
  have hwidth : width ≤ columns := by
    have hvariables := h.afterVariables
    have hslacks := h.afterSlacks
    have hinside := h.inside
    omega
  exact ⟨fun _ hr => length_of_mem_initialRows hwidth hr, nodup_initialRows h,
    fun _ hr => coefficient_initialRows_own h hr,
    fun _ hr _ hs hne => coefficient_initialRows_other h hr hs hne⟩

/-- The right-hand sides are not negative. -/
theorem rhs_initialRows_nonneg {r : BasicRow ℚ}
    (hr : r ∈ initialRows width columns slack artificial constraints) : 0 ≤ r.rhs := by
  induction constraints generalizing slack artificial with
  | nil => cases hr
  | cons c rest ih =>
    rw [initialRows_cons] at hr
    rcases List.mem_cons.mp hr with rfl | hr
    · rw [rhs_initialRow]
      exact orientation_mul_rhs_nonneg c
    · exact ih hr

/-- A vector that solves the rows without artificial columns is a point that meets the constraints. -/
theorem satisfied_of_holds_initialRows (h : Fits width columns slack artificial constraints)
    (hnonneg : ∀ j, 0 ≤ v j) (hzero : ∀ j, artificial ≤ j → v j = 0)
    (hv : ∀ r ∈ initialRows width columns slack artificial constraints, r.Holds v) :
    ∀ c ∈ constraints, c.Satisfied (valuesOf width v) := by
  induction constraints generalizing slack artificial with
  | nil => simp
  | cons c rest ih =>
    rw [initialRows_cons] at hv
    obtain ⟨hfirst, hrest⟩ := List.forall_mem_cons.mp hv
    refine List.forall_mem_cons.mpr ⟨?_, ih h.tail (fun j hj => hzero j (by omega)) hrest⟩
    by_cases hc : c.relation = .eq
    · exact (holds_initialRow_equation h hc (hzero _ le_rfl)).mp hfirst
    · rw [Constraint.satisfied_iff_slack_nonneg hc,
        ← (holds_initialRow_inequality h hc (hzero _ le_rfl)).mp hfirst]
      exact hnonneg slack

/-- The slacks that a point leaves in the inequalities. -/
def slackValues (constraints : List (Constraint ℚ)) (x : List ℚ) : List ℚ :=
  (constraints.filter fun c => decide (c.relation ≠ .eq)).map (·.slack x)

/-- There is a slack for each slack column. -/
theorem length_slackValues (constraints : List (Constraint ℚ)) (x : List ℚ) :
    (slackValues constraints x).length = slackCount constraints := by
  rw [slackValues, List.length_map, slackCount, List.countP_eq_length_filter]
  simp only [Ne, orientedRelation_eq_eq_iff]

/-- A point that meets the constraints solves the rows with its slacks. -/
theorem holds_initialRows (h : Fits width columns slack artificial constraints)
    (hsatisfied : ∀ c ∈ constraints, c.Satisfied (valuesOf width v))
    (hzero : ∀ j, artificial ≤ j → v j = 0)
    (hslack : ∀ k, v (slack + k) = (slackValues constraints (valuesOf width v)).getD k 0) :
    ∀ r ∈ initialRows width columns slack artificial constraints, r.Holds v := by
  induction constraints generalizing slack artificial with
  | nil => simp [initialRows]
  | cons c rest ih =>
    obtain ⟨hfirst, hrest⟩ := List.forall_mem_cons.mp hsatisfied
    have hlater : ∀ j, artificial + artificialUse c ≤ j → v j = 0 :=
      fun j hj => hzero j (by omega)
    rw [initialRows_cons]
    by_cases hc : c.relation = .eq
    · have huse : slackUse c = 0 := by rw [slackUse, if_pos (orientedRelation_eq_eq_iff.mpr hc)]
      refine List.forall_mem_cons.mpr
        ⟨(holds_initialRow_equation h hc (hzero _ le_rfl)).mpr hfirst, ih h.tail hrest hlater ?_⟩
      intro k
      rw [huse, Nat.add_zero, hslack k]
      simp [slackValues, hc]
    · have huse : slackUse c = 1 := by
        rw [slackUse, if_neg (mt orientedRelation_eq_eq_iff.mp hc)]
      have hvalues : slackValues (c :: rest) (valuesOf width v) =
          c.slack (valuesOf width v) :: slackValues rest (valuesOf width v) := by
        simp [slackValues, hc]
      refine List.forall_mem_cons.mpr
        ⟨(holds_initialRow_inequality h hc (hzero _ le_rfl)).mpr ?_, ih h.tail hrest hlater ?_⟩
      · have hown := hslack 0
        rwa [hvalues] at hown
      · intro k
        have hnext := hslack (k + 1)
        rw [hvalues, List.getD_cons_succ] at hnext
        rw [huse, ← hnext, Nat.add_assoc, Nat.add_comm 1 k]

/-! ## The first workspace -/

namespace Workspace

/-- The vector stands for a point: it solves the rows without negative entries and without
artificial columns. -/
structure Stands (w : Workspace ℚ) (v : ℕ → ℚ) : Prop where
  nonneg : ∀ j, 0 ≤ v j
  artificial : ∀ j, w.artificialStart ≤ j → v j = 0
  holds : w.dictionary.Holds v

/-- The vectors that stand for points stand for the feasible points of the program. -/
structure Poses (w : Workspace ℚ) (p : LinearProgram ℚ) : Prop where
  variableCount : w.variableCount = p.variableCount
  feasible : ∀ v, w.Stands v → p.Feasible (valuesOf p.variableCount v)
  complete : ∀ x, p.Feasible x → ∃ v, w.Stands v ∧ valuesOf p.variableCount v = x

variable {p : LinearProgram ℚ}

/-- The rows of the first workspace are solved. -/
theorem solvedRows_ofProgram (p : LinearProgram ℚ) :
    SolvedRows (ofProgram p).columnCount (ofProgram p).rows := by
  rw [columnCount_ofProgram]
  exact solvedRows_initialRows (fits_ofProgram p)

/-- The first workspace poses its program. -/
theorem poses_ofProgram (p : LinearProgram ℚ) : (ofProgram p).Poses p := by
  refine ⟨rfl, fun v hv => ?_, fun x hx => ?_⟩
  · refine ⟨length_valuesOf _ v, List.forall_mem_map.mpr fun j _ => hv.nonneg j, ?_⟩
    exact satisfied_of_holds_initialRows (fits_ofProgram p) hv.nonneg hv.artificial hv.holds
  · obtain ⟨v, hdef⟩ : ∃ v : ℕ → ℚ, ∀ j, v j = (x ++ slackValues p.constraints x).getD j 0 :=
      ⟨_, fun _ => rfl⟩
    have hlength := length_slackValues p.constraints x
    have hslacks : ∀ a ∈ slackValues p.constraints x, 0 ≤ a := by
      refine List.forall_mem_map.mpr fun c hc => ?_
      obtain ⟨hmem, hrelation⟩ := List.mem_filter.mp hc
      exact (Constraint.satisfied_iff_slack_nonneg (by simpa using hrelation)).mp
        (hx.satisfied c hmem)
    have hvalues : valuesOf p.variableCount v = x := by
      apply List.ext_getElem (by rw [length_valuesOf, hx.length])
      intro j _ hj
      simp only [valuesOf, List.getElem_map, List.getElem_range, hdef]
      rw [List.getD_append _ _ _ _ hj, List.getD_eq_getElem _ _ hj]
    have hzero : ∀ j, p.variableCount + slackCount p.constraints ≤ j → v j = 0 := by
      intro j hj
      rw [hdef, List.getD_eq_default]
      rw [List.length_append, hx.length, hlength]
      exact hj
    refine ⟨v, ⟨fun j => ?_, hzero, ?_⟩, hvalues⟩
    · rw [hdef]
      exact getD_nonneg (List.forall_mem_append.mpr ⟨hx.nonneg, hslacks⟩) j
    · refine holds_initialRows (fits_ofProgram p) (by rw [hvalues]; exact hx.satisfied) hzero ?_
      intro k
      rw [hdef, hvalues, ← hx.length, List.getD_append_right _ _ _ _ (Nat.le_add_right _ _),
        Nat.add_sub_cancel_left]

/-- The objective row of the first workspace gives the gain. -/
theorem gap_ofProgram (p : LinearProgram ℚ) (v : ℕ → ℚ) :
    (ofProgram p).objective.gap v = p.gain (valuesOf p.variableCount v) := by
  have heval : (ofProgram p).objective.eval v =
      Scalar.dot (p.objective.coefficients.map (-p.objective.sense.sign * ·))
        (valuesOf p.variableCount v) := eval_fit _ _ _ v
  rw [Equation.gap, heval, Scalar.dot_map_mul, LinearProgram.gain, LinearProgram.evaluate]
  change (0 : ℚ) - _ = _
  ring

/-- The first workspace has no reduced costs outside the variables. -/
theorem objective_ofProgram_of_le {j : ℕ} (hj : p.variableCount ≤ j) :
    (ofProgram p).objective.coefficient j = 0 :=
  coefficient_fit_of_le _ _ _ hj

/-- The first workspace is canonical. -/
theorem canonical_ofProgram (p : LinearProgram ℚ) : (ofProgram p).dictionary.Canonical := by
  refine ⟨solvedRows_ofProgram p, fun r hr => objective_ofProgram_of_le ?_⟩
  have hbasic := basic_initialRows hr
  omega

end Workspace

end WarmSimplex.TwoPhase
