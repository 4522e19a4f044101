import WarmSimplex.Proofs.Answer
import WarmSimplex.Proofs.TwoPhase.Artificials

/-!
# The first phase

The first phase cannot be unbounded, since the negated sum of the artificial columns is never above
zero. If it stays below zero the program has no feasible point. Otherwise the workspace is made ready
for the second phase: no artificial column is basic any more, and the objective row of the program is
written in terms of the basis.

A program without artificial columns is ready from the start.
-/

namespace WarmSimplex.TwoPhase.Workspace

variable {w later : Workspace ℚ} {p : LinearProgram ℚ}

/-- A workspace with the same points poses the same program. -/
theorem Poses.congr (h : w.Poses p) (hvariables : later.variableCount = w.variableCount)
    (hartificial : later.artificialStart = w.artificialStart)
    (hholds : ∀ v, (∀ j, w.artificialStart ≤ j → v j = 0) →
      (later.dictionary.Holds v ↔ w.dictionary.Holds v)) : later.Poses p := by
  have hstands : ∀ v, later.Stands v ↔ w.Stands v := by
    intro v
    constructor
    · intro hv
      have hzero := hv.artificial
      rw [hartificial] at hzero
      exact ⟨hv.nonneg, hzero, (hholds v hzero).mp hv.holds⟩
    · intro hv
      refine ⟨hv.nonneg, ?_, (hholds v hv.artificial).mpr hv.holds⟩
      rw [hartificial]
      exact hv.artificial
  refine ⟨hvariables.trans h.variableCount, fun v hv => h.feasible v ((hstands v).mp hv),
    fun x hx => ?_⟩
  obtain ⟨v, hv, hvalues⟩ := h.complete x hx
  exact ⟨v, (hstands v).mpr hv, hvalues⟩

/-- The workspace poses the program with a feasible basis without artificial columns, and its
objective row gives the gain. -/
structure Ready (w : Workspace ℚ) (p : LinearProgram ℚ) : Prop where
  canonical : w.dictionary.Canonical
  nonneg : ∀ r ∈ w.rows, 0 ≤ r.rhs
  basic : ∀ r ∈ w.rows, r.basic < w.artificialStart
  poses : w.Poses p
  gap : ∀ v, w.dictionary.Holds v → w.objective.gap v = p.gain (valuesOf p.variableCount v)

/-- What the first phase starts from: solved rows that pose the program, some columns of which may be
artificial, and an objective row that gives the gain. -/
structure Raw (w : Workspace ℚ) (p : LinearProgram ℚ) : Prop where
  solved : SolvedRows w.columnCount w.rows
  nonneg : ∀ r ∈ w.rows, 0 ≤ r.rhs
  artificial : w.artificialStart ≤ w.columnCount
  poses : w.Poses p
  gap : ∀ v, w.objective.gap v = p.gain (valuesOf p.variableCount v)

/-- The first workspace is where the first phase starts. -/
theorem raw_ofProgram (p : LinearProgram ℚ) : (ofProgram p).Raw p where
  solved := solvedRows_ofProgram p
  nonneg _ hr := rhs_initialRows_nonneg hr
  artificial := by
    rw [columnCount_ofProgram]
    exact Nat.le_add_right _ _
  poses := poses_ofProgram p
  gap := gap_ofProgram p

/-- Without artificial columns the first workspace is ready. -/
theorem ready_ofProgram (h : (ofProgram p).columnCount ≤ (ofProgram p).artificialStart) :
    (ofProgram p).Ready p where
  canonical := canonical_ofProgram p
  nonneg _ hr := rhs_initialRows_nonneg hr
  basic _ hr := ((solvedRows_ofProgram p).inside hr).trans_le h
  poses := poses_ofProgram p
  gap v _ := gap_ofProgram p v

namespace Raw

/-- The pivots of the first phase. -/
theorem rewrites (hw : w.Raw p) (before budget : ℕ) :
    w.forFirstPhase.Rewrites (w.forFirstPhase.runPhase 0 before budget).1 :=
  rewrites_runPhase (canonical_forFirstPhase hw.solved hw.artificial).1 hw.nonneg before budget

/-- The objective row of the first phase gives the negated sum of the artificial columns. -/
theorem gap_of_rewrites (hw : w.Raw p) (hreached : w.forFirstPhase.Rewrites later) {v : ℕ → ℚ}
    (hv : w.dictionary.Holds v) : later.objective.gap v = -w.artificialSum v := by
  rw [hreached.gap v hv]
  exact (canonical_forFirstPhase hw.solved hw.artificial).2.2 v hv

/-- The first phase is not unbounded, since the artificial columns of a ray do not become negative. -/
theorem runPhase_ne_unbounded (hw : w.Raw p) (before budget : ℕ) :
    (w.forFirstPhase.runPhase 0 before budget).2 ≠ .unbounded := by
  intro hunbounded
  obtain ⟨column, _, hcost, hfall⟩ := runPhase_unbounded hunbounded
  have hreached := hw.rewrites before budget
  obtain ⟨step, hholds, hnonneg, hpast⟩ :=
    Dictionary.exists_ray hreached.canonical hreached.nonneg hcost hfall 0
  have hgap := hw.gap_of_rewrites hreached ((hreached.holds_iff _).mp hholds)
  have hsum : 0 ≤ w.artificialSum _ := Finset.sum_nonneg fun k _ => hnonneg (w.artificialStart + k)
  have hpositive := hpast.trans_eq hgap
  linarith

/-- If the first phase ends optimal below zero, no point is feasible. -/
theorem isInfeasible (hw : w.Raw p) (hreached : w.forFirstPhase.Rewrites later)
    (hcosts : ∀ j < w.columnCount, 0 ≤ later.objective.coefficient j)
    (hneg : later.objective.rhs < 0) : p.IsInfeasible := by
  intro x hx
  obtain ⟨v, hv, _⟩ := hw.poses.complete x hx
  have hgap : later.dictionary.objective.gap v = 0 := by
    have hsum := hw.gap_of_rewrites hreached hv.holds
    rwa [artificialSum_eq_zero hv.artificial, neg_zero] at hsum
  have hbest := Dictionary.gap_le_rhs (d := later.dictionary) hcosts hv.nonneg
    (fun j hj => hv.artificial j (hw.artificial.trans hj))
  rw [hgap] at hbest
  exact absurd hneg (not_lt.mpr hbest)

/-- If the first phase does not end below zero, no artificial column has a value at the basic point:
they add up to zero there, and none is negative. -/
theorem basicPoint_artificial (hw : w.Raw p) (hreached : w.forFirstPhase.Rewrites later)
    (hrhs : 0 ≤ later.objective.rhs) {j : ℕ} (hartificial : w.artificialStart ≤ j)
    (hj : j < w.columnCount) : later.dictionary.basicPoint j = 0 := by
  have hnonneg : ∀ k, 0 ≤ later.dictionary.basicPoint k :=
    Dictionary.le_basicPoint le_rfl hreached.nonneg
  have hterms : ∀ k ∈ Finset.range (w.columnCount - w.artificialStart),
      0 ≤ later.dictionary.basicPoint (w.artificialStart + k) := fun k _ => hnonneg _
  have hsum : w.artificialSum later.dictionary.basicPoint = 0 := by
    have hholds := Dictionary.holds_basicPoint hreached.canonical
    have hgap := hw.gap_of_rewrites hreached ((hreached.holds_iff _).mp hholds)
    have hvalue : later.objective.gap later.dictionary.basicPoint = later.objective.rhs :=
      Dictionary.gap_basicPoint hreached.canonical
    have hsign : 0 ≤ w.artificialSum later.dictionary.basicPoint := Finset.sum_nonneg hterms
    linarith
  have hzero := (Finset.sum_eq_zero_iff_of_nonneg hterms).mp hsum (j - w.artificialStart)
    (Finset.mem_range.mpr (Nat.sub_lt_sub_right hartificial hj))
  rwa [Nat.add_sub_cancel' hartificial] at hzero

/-- If the first phase does not end below zero, the rows that are solved for artificial columns have
right-hand side zero. -/
theorem clears (hw : w.Raw p) (hreached : w.forFirstPhase.Rewrites later)
    (hrhs : 0 ≤ later.objective.rhs) : w.Clears later := by
  have hcolumns : later.columnCount = w.columnCount :=
    hreached.columnCount.trans (canonical_forFirstPhase hw.solved hw.artificial).2.1
  refine ⟨hreached.canonical.solved, hreached.nonneg, fun r hr hartificial => ?_,
    fun v _ => hreached.holds_iff v, hreached.variableCount, hreached.artificialStart, hcolumns⟩
  have hinside : r.basic < w.columnCount :=
    (hreached.canonical.solved.inside hr).trans_eq hcolumns
  rw [← Dictionary.basicPoint_basic hreached.canonical hr]
  exact hw.basicPoint_artificial hreached hrhs hartificial hinside

/-- Writing the objective of the program in terms of other rows keeps the number of columns. -/
theorem columnCount_reprice (hlater : w.Clears later) :
    (later.reprice w.objective).objective = clearBasis w.objective later.rows ∧
      (later.reprice w.objective).columnCount = w.columnCount := by
  have hlength : w.objective.coefficients.length = later.columnCount := hlater.columnCount.symm
  have hobjective : (later.reprice w.objective).objective = clearBasis w.objective later.rows :=
    foldl_clearWith_eq_clearBasis hlength hlater.solved.width
  refine ⟨hobjective, ?_⟩
  rw [columnCount, hobjective, length_clearBasis hlength hlater.solved.width, hlater.columnCount]

/-- Rows for the same points without artificial columns in the basis make the workspace ready, once
the objective of the program is written in terms of them. -/
theorem ready_reprice (hw : w.Raw p) (hlater : w.Clears later)
    (hbasic : ∀ r ∈ later.rows, r.basic < w.artificialStart) :
    (later.reprice w.objective).Ready p := by
  have hlength : w.objective.coefficients.length = later.columnCount := hlater.columnCount.symm
  obtain ⟨hobjective, hcolumns⟩ := columnCount_reprice hlater
  refine ⟨⟨?_, fun r hr => ?_⟩, hlater.nonneg, fun r hr => ?_, ?_, fun v hv => ?_⟩
  · change SolvedRows (later.reprice w.objective).columnCount later.rows
    rw [hcolumns, ← hlater.columnCount]
    exact hlater.solved
  · change (later.reprice w.objective).objective.coefficient r.basic = 0
    rw [hobjective, coefficient_clearBasis hlength hlater.solved hr]
  · change r.basic < later.artificialStart
    rw [hlater.artificialStart]
    exact hbasic r hr
  · exact hw.poses.congr hlater.variableCount hlater.artificialStart hlater.holds_iff
  · rw [hobjective, gap_clearBasis hlength hlater.solved.width hv, hw.gap]

/-- A first phase that does not end the resolve clears the basis of artificial columns, and puts the
objective of the program back. -/
theorem firstPhase_eq_none (hw : w.Raw p) {maxIterations : ℕ}
    (h : (w.firstPhase ⟨maxIterations, 0⟩).2 = none) :
    ∃ cleared, w.Clears cleared ∧ (∀ r ∈ cleared.rows, r.basic < w.artificialStart) ∧
      (w.firstPhase ⟨maxIterations, 0⟩).1 = cleared.reprice w.objective := by
  unfold Workspace.firstPhase at h ⊢
  split at h
  · cases h
  · cases h
  · rename_i reached hend
    have hend : w.forFirstPhase.runPhase 0 w.columnCount maxIterations = (reached, .optimal) := hend
    have hreached := hw.rewrites w.columnCount maxIterations
    rw [hend] at hreached
    rw [neg_zero] at h ⊢
    split at h
    · cases h
    · rename_i hrhs
      have hpassed : w.Passed reached.rows 0 := fun i hi => absurd hi (Nat.not_lt_zero i)
      have hcleared := clears_dropArtificials (hw.clears hreached (not_lt.mp hrhs)) hpassed
        (Nat.zero_add _)
      rw [if_neg hrhs]
      exact ⟨_, hcleared.1, hcleared.2, rfl⟩

/-- A status that the first phase ends with is true of the program. Otherwise it makes the workspace
ready. -/
theorem firstPhase (hw : w.Raw p) (maxIterations : ℕ) :
    (∀ status ∈ (w.firstPhase ⟨maxIterations, 0⟩).2, ∀ values, p.Answers values status) ∧
      ((w.firstPhase ⟨maxIterations, 0⟩).2 = none →
        (w.firstPhase ⟨maxIterations, 0⟩).1.Ready p) := by
  constructor
  · have hbounded := hw.runPhase_ne_unbounded w.columnCount maxIterations
    unfold Workspace.firstPhase
    split
    · rename_i reached hend
      exact absurd (congrArg Prod.snd hend) hbounded
    · intro status hstatus _
      cases hstatus
      trivial
    · rename_i reached hend
      have hend : w.forFirstPhase.runPhase 0 w.columnCount maxIterations = (reached, .optimal) := hend
      have hreached := hw.rewrites w.columnCount maxIterations
      have hcosts := runPhase_optimal (congrArg Prod.snd hend)
      rw [hend] at hreached hcosts
      rw [neg_zero]
      split
      · rename_i hneg
        intro status hstatus _
        cases hstatus
        exact hw.isInfeasible hreached hcosts hneg
      · intro status hstatus
        cases hstatus
  · intro hnone
    obtain ⟨cleared, hcleared, hbasic, hlast⟩ := hw.firstPhase_eq_none hnone
    rw [hlast]
    exact hw.ready_reprice hcleared hbasic

end Raw

end WarmSimplex.TwoPhase.Workspace
