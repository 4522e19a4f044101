import WarmSimplex.Proofs.Ending
import WarmSimplex.Proofs.Phases
import WarmSimplex.Proofs.Shape.Checked

/-!
# What a report says

A solve comes to an end within its budget, and its report says how: there is a certificate with a claim
that the constraints cannot be met, and diagnostics if there is no answer. A solve that gives up before
its budget is used up had pivots refused. Each of them was offered on a tableau of the course of the
solve, and was too small there.

This needs no law of arithmetic, only that the tableau fits together. In exact arithmetic a primal pivot
is never refused, since the ratio test passes over small entries; so all that are refused are dual.
-/

namespace WarmSimplex

section Loop

variable {α : Type} [Scalar α]

namespace Tableau

variable {t u next : Tableau α} {rule : EnteringRule} {row : ℕ} {columns : List ℕ}
variable {kind : PivotKind} {x : RejectedPivot α}

/-! ## Refused pivots -/

/-- The tableau offers the pivot, and refuses it for its size. -/
structure Refuses (u : Tableau α) (rule : EnteringRule) (kind : PivotKind) (x : RejectedPivot α) :
    Prop where
  offered : ∃ columns, u.nextMove rule = .pivot kind x.row columns ∧ x.column ∈ columns
  degenerate : u.pivot x.row x.column =
    .error (.degeneratePivot x.row x.column x.value u.pivotTolerance)

/-- A pivot is noted as refused if it was tried, with the entry it was tried on. -/
theorem mem_rejected_pivotFirst (hx : x ∈ (u.pivotFirst row columns).1) :
    x.row = row ∧ x.column ∈ columns ∧ x.value = u.coefficient row x.column ∧
      ∃ fault, u.pivot row x.column = .error fault := by
  induction columns with
  | nil => cases hx
  | cons column rest ih =>
    rw [pivotFirst] at hx
    cases hpivot : u.pivot row column with
    | ok made =>
      rw [hpivot] at hx
      cases hx
    | error fault =>
      rw [hpivot] at hx
      rcases List.mem_cons.mp hx with rfl | hrest
      · exact ⟨rfl, List.mem_cons_self, rfl, fault, hpivot⟩
      · obtain ⟨hrow, hcolumn, hrefused⟩ := ih hrest
        exact ⟨hrow, List.mem_cons_of_mem _ hcolumn, hrefused⟩

/-- If no pivot is made, all that were offered are refused. -/
theorem length_rejected_pivotFirst (h : (u.pivotFirst row columns).2 = none) :
    (u.pivotFirst row columns).1.length = columns.length := by
  induction columns with
  | nil => rfl
  | cons column rest ih =>
    rw [pivotFirst] at h ⊢
    cases hpivot : u.pivot row column with
    | ok made =>
      rw [hpivot] at h
      cases h
    | error fault =>
      rw [hpivot] at h
      exact congrArg Nat.succ (ih h)

/-- A pivot is refused for its size exactly inside the tableau and at an entry that is degenerate. -/
theorem pivot_eq_degenerate_iff {column : ℕ} {value : α} :
    u.pivot row column = .error (.degeneratePivot row column value u.pivotTolerance) ↔
      row < u.rowCount ∧ column < u.columnCount ∧ value = u.coefficient row column ∧
        u.isDegenerate value = true := by
  simp only [pivot]
  split
  · rename_i inside
    split
    · rename_i degenerate
      refine ⟨fun refused => ?_, ?_⟩
      · cases refused
        exact ⟨inside.1, inside.2, rfl, degenerate⟩
      · rintro ⟨_, _, rfl, _⟩
        rfl
    · rename_i usable
      refine ⟨fun refused => ?_, ?_⟩
      · cases refused
      · rintro ⟨_, _, rfl, degenerate⟩
        exact absurd degenerate usable
  · rename_i outside
    refine ⟨fun refused => ?_, fun refused => absurd ⟨refused.1, refused.2.1⟩ outside⟩
    cases refused

/-- The pivots that a move has refused are refused for their size. -/
theorem HasShape.refuses {n m : ℕ} (hu : u.HasShape n m)
    (hmove : u.nextMove rule = .pivot kind row columns) (hx : x ∈ (u.pivotFirst row columns).1) :
    u.Refuses rule kind x := by
  obtain ⟨hrow, hinside⟩ := hu.inside_of_nextMove hmove
  obtain ⟨rfl, hcolumn, hvalue, fault, hrefused⟩ := mem_rejected_pivotFirst hx
  have hrow : x.row < u.rowCount := hu.rowCount ▸ hrow
  have hcolumns : x.column < u.columnCount := hu.columns ▸ hinside _ hcolumn
  refine ⟨⟨columns, hmove, hcolumn⟩, pivot_eq_degenerate_iff.mpr ⟨hrow, hcolumns, hvalue, ?_⟩⟩
  rw [hvalue]
  by_contra husable
  have hmade := pivot_eq_ok_iff.mpr ⟨hrow, hcolumns, Bool.eq_false_iff.mpr husable, rfl⟩
  cases hmade.symm.trans hrefused

/-- A move that makes no pivot has one refused. -/
theorem rejected_ne_nil (hmove : u.nextMove rule = .pivot kind row columns)
    (h : (u.pivotFirst row columns).2 = none) : (u.pivotFirst row columns).1 ≠ [] := by
  have hcolumns : columns ≠ [] := by
    rcases nextMove_eq_pivot hmove with ⟨_, _, best, others, _, rfl⟩ | ⟨_, _, column, rfl, _⟩
    · exact List.cons_ne_nil _ _
    · exact List.cons_ne_nil _ _
  rw [← List.length_pos_iff, length_rejected_pivotFirst h]
  exact List.length_pos_iff.mpr hcolumns

/-- A move that stops does so with an answer, and not at a limit. -/
theorem ne_limit_of_nextMove {verdict : Verdict α} (h : u.nextMove rule = .stop verdict) :
    verdict ≠ .iterationLimit ∧ verdict ≠ .timeLimit := by
  have hallows := u.allows_nextMove rule
  rw [h] at hallows
  cases hallows with
  | optimal _ _ => simp
  | infeasible _ _ _ => simp
  | unbounded _ _ _ _ => simp

/-- The tableau has the shape and the settings of the one that a solve starts with. -/
structure Resembles (t u : Tableau α) : Prop where
  shape : u.HasShape t.structuralCount t.rowCount
  settings : u.settings = t.settings

/-- The steps of the loop keep the shape and the settings. -/
theorem Resembles.step (hu : t.Resembles u) {made : Pivot} (h : u.StepsTo rule made next) :
    t.Resembles next := by
  obtain ⟨columns, hmove, hfirst⟩ := h
  obtain ⟨_, hpivot⟩ := pivotFirst_eq_some (Prod.ext rfl hfirst)
  obtain ⟨_, hcolumn, _, rfl⟩ := pivot_eq_ok_iff.mp hpivot
  exact ⟨hu.shape.pivotAt _ (hu.shape.columns ▸ hcolumn), (settings_pivotAt u _ _).trans hu.settings⟩

end Tableau

/-! ## What the loop notes -/

/-- A pivot that is noted as refused was noted before or is refused by the tableau of the move. -/
theorem Progress.refuses_of_mem_reject {p : Progress α} {n m : ℕ} (hp : p.tableau.HasShape n m)
    {rule : EnteringRule} {kind : PivotKind} {row : ℕ} {columns : List ℕ}
    {rejected : List (RejectedPivot α)} {made : Option (ℕ × Tableau α)}
    (hmove : p.tableau.nextMove rule = .pivot kind row columns)
    (hfirst : p.tableau.pivotFirst row columns = (rejected, made)) {x : RejectedPivot α}
    (hx : x ∈ (p.reject rejected).rejected) : x ∈ p.rejected ∨ p.tableau.Refuses rule kind x := by
  rcases Array.mem_append.mp hx with hold | hnew
  · exact .inl hold
  · have htried : x ∈ (p.tableau.pivotFirst row columns).1 := by
      rw [hfirst]
      exact List.mem_toArray.mp hnew
    exact .inr (hp.refuses hmove htried)

namespace Progress.Ends

variable {rule : EnteringRule} {deadline : Deadline} {limit : ℕ}
variable {p last : Progress α} {verdict : Verdict α}

/-- Once the time is over the loop makes no pivot. -/
theorem pivots_eq_of_isOver (h : p.Ends rule deadline limit last verdict)
    (hover : deadline.isOver p.pivots.size = true) : last.pivots = p.pivots := by
  cases h with
  | stop _ => rfl
  | exhausted _ _ => rfl
  | late _ _ _ => rfl
  | refused _ _ _ _ => rfl
  | pivot _ _ hopen _ _ => exact absurd hover (Bool.eq_false_iff.mp hopen)

/-- A loop that gives up below its limit has noted a refused pivot. -/
theorem rejected_ne_empty (h : p.Ends rule deadline limit last verdict)
    (hverdict : verdict = .iterationLimit) (hroom : last.pivots.size < limit) :
    last.rejected.toList ≠ [] := by
  induction h with
  | stop hmove => exact absurd hverdict (Tableau.ne_limit_of_nextMove hmove).1
  | exhausted _ hlimit => exact absurd hroom (not_lt.mpr hlimit)
  | late _ _ _ => cases hverdict
  | @refused p kind row columns rejected hmove _ _ hfirst =>
    have hrefused := Tableau.rejected_ne_nil hmove (congrArg Prod.snd hfirst)
    rw [hfirst] at hrefused
    simp [reject, hrefused]
  | pivot _ _ _ _ _ ih => exact ih hverdict hroom

/-- The pivots that the loop notes as refused were refused by the tableaus that it leads through. -/
theorem refusals (h : p.Ends rule deadline limit last verdict) {t : Tableau α}
    (hp : t.Resembles p.tableau) :
    ∃ made, last.pivots.toList = p.pivots.toList ++ made ∧
      ∀ x ∈ last.rejected, x ∈ p.rejected ∨
        ∃ u ∈ p.tableau.replay made, t.Resembles u ∧ ∃ kind, u.Refuses rule kind x := by
  induction h with
  | stop _ => exact ⟨[], (List.append_nil _).symm, fun x hx => .inl hx⟩
  | exhausted _ _ => exact ⟨[], (List.append_nil _).symm, fun x hx => .inl hx⟩
  | late _ _ _ => exact ⟨[], (List.append_nil _).symm, fun x hx => .inl hx⟩
  | @refused p kind row columns rejected hmove _ _ hfirst =>
    refine ⟨[], (List.append_nil _).symm, fun x hx => ?_⟩
    rcases refuses_of_mem_reject hp.shape hmove hfirst hx with hold | hrefused
    · exact .inl hold
    · exact .inr ⟨p.tableau, List.mem_cons_self, hp, kind, hrefused⟩
  | @pivot p last kind row column columns rejected next verdict hmove _ _ hfirst _ ih =>
    have hmade : p.tableau.StepsTo rule ⟨kind, row, column⟩ next :=
      ⟨columns, hmove, congrArg Prod.snd hfirst⟩
    obtain ⟨made, hpivots, hrefusals⟩ := ih (hp.step hmade)
    refine ⟨⟨kind, row, column⟩ :: made, ?_, fun x hx => ?_⟩
    · rw [hpivots]
      simp [advance, reject]
    · rcases hrefusals x hx with hnoted | ⟨u, hu, hrefused⟩
      · -- noted before the pivot: either before this move, or refused by its tableau
        rcases refuses_of_mem_reject hp.shape hmove hfirst hnoted with hold | hrefused
        · exact .inl hold
        · exact .inr ⟨p.tableau, List.mem_cons_self, hp, kind, hrefused⟩
      · refine .inr ⟨u, List.mem_cons_of_mem _ ?_, hrefused⟩
        rw [← hmade.eq_pivotAt]
        exact hu

end Progress.Ends

/-! ## What a solve reports -/

namespace Tableau

variable {t : Tableau α} {options : SolveOptions} {last : Progress α} {verdict : Verdict α}

/-- The tableaus that a solve leads through, those of a feasibility phase first. -/
def course (t : Tableau α) (options : SolveOptions) : List (Tableau α) :=
  let pivots := (t.solve options).1.pivots
  if t.isPrimalFeasible || t.isDualFeasible then t.replay pivots
  else
    let phase := (t.restoreFeasibility options).1
    (t.withObjective (Equation.zero t.columnCount)).replay phase.pivots.toList ++
      phase.tableau.replay (pivots.drop phase.pivots.size)

/-- The report on a solve and the tableau after it agree with each other and with the limits. -/
structure ReportsCoherently (t : Tableau α) (options : SolveOptions) : Prop where
  budget : (t.solve options).1.iterations ≤ options.maxIterations
  late : options.deadline.isOver 0 = true → (t.solve options).1.iterations = 0
  certificate : (t.solve options).1.certificate.isSome = true ↔
    (t.solve options).1.status = .infeasible
  diagnostics : (t.solve options).1.diagnostics.isSome = true ↔
    (t.solve options).1.status = .iterationLimit ∨ (t.solve options).1.status = .timeLimit
  snapshot : ∀ d ∈ (t.solve options).1.diagnostics,
    d.snapshot = (t.solve options).2 ∧ d.rejectedPivots = (t.run options).1.rejected.toList
  restored : t.isPrimalFeasible = false → t.isDualFeasible = false →
    (t.restoreFeasibility options).2 ≠ .optimal →
      (t.solve options).2 = t.putBack (t.idleEnd options).1.tableau
  refused : (t.solve options).1.status = .iterationLimit →
    (t.solve options).1.iterations < options.maxIterations →
      ∃ d ∈ (t.solve options).1.diagnostics, d.rejectedPivots ≠ []

namespace SolveEnds

/-- A solve that starts after the deadline notes no pivot. -/
theorem size_eq_zero_of_isOver (h : t.SolveEnds options last verdict)
    (hover : options.deadline.isOver 0 = true) : last.pivots.size = 0 := by
  cases h with
  | direct _ hloop => rw [hloop.pivots_eq_of_isOver hover]; rfl
  | @stopped reached _ _ _ hphase _ =>
    change reached.pivots.size = 0
    rw [hphase.pivots_eq_of_isOver hover]
    rfl
  | @resumed middle _ _ _ _ hphase hloop =>
    have hmiddle : middle.pivots.size = 0 := by rw [hphase.pivots_eq_of_isOver hover]; rfl
    rw [hloop.pivots_eq_of_isOver ((congrArg _ hmiddle).trans hover)]
    exact hmiddle

/-- A solve that gives up within its budget has noted a refused pivot. -/
theorem rejected_ne_empty (h : t.SolveEnds options last verdict)
    (hverdict : verdict = .iterationLimit) (hroom : last.pivots.size < options.maxIterations) :
    last.rejected.toList ≠ [] := by
  cases h with
  | direct _ hloop => exact hloop.rejected_ne_empty hverdict hroom
  | stopped _ _ hphase _ => exact hphase.rejected_ne_empty hverdict hroom
  | resumed _ _ _ hloop => exact hloop.rejected_ne_empty hverdict hroom

/-- The pivots that a solve notes as refused were refused by the tableaus of its course. -/
theorem refusals (h : t.SolveEnds options last verdict)
    (ht : t.HasShape t.structuralCount t.rowCount) :
    ∀ x ∈ last.rejected, ∃ u ∈ t.course options, t.Resembles u ∧
      ∃ kind, u.Refuses options.rule kind x := by
  intro x hx
  have hpivots := h.pivots_eq
  have hidle : t.Resembles (t.withObjective (Equation.zero t.columnCount)) :=
    ⟨ht.withObjective (by rw [Equation.length_zero, ht.columns]), rfl⟩
  have hnone : x ∉ (#[] : Array (RejectedPivot α)) := Array.not_mem_empty x
  cases h with
  | direct hfeasible hloop =>
    obtain ⟨made, hmade, hrefusals⟩ := hloop.refusals ⟨ht, rfl⟩
    obtain ⟨u, hu, hrefused⟩ := (hrefusals x hx).resolve_left hnone
    refine ⟨u, ?_, hrefused⟩
    rw [course, if_pos (Bool.or_eq_true_iff.mpr hfeasible), hpivots, hmade]
    exact hu
  | @stopped reached _ hprimal hdual hphase hverdict =>
    obtain ⟨made, hmade, hrefusals⟩ := hphase.refusals hidle
    obtain ⟨u, hu, hrefused⟩ := (hrefusals x hx).resolve_left hnone
    refine ⟨u, ?_, hrefused⟩
    rw [course, if_neg (by simp [hprimal, hdual]), restoreFeasibility_of_ends hphase]
    refine List.mem_append_left _ ?_
    change u ∈ Tableau.replay _ reached.pivots.toList
    rw [hmade]
    exact hu
  | @resumed middle _ _ hprimal hdual hphase hloop =>
    have hrestored := restoreFeasibility_of_ends hphase
    have hmiddle : t.Resembles (t.putBack middle.tableau) := by
      have hshape := (OnTheWay.restoreFeasibility ht options).shape
      have hsettings := t.settings_restoreFeasibility options
      rw [hrestored] at hshape hsettings
      exact ⟨hshape, hsettings⟩
    obtain ⟨phase, hphaseMade, hphaseRefusals⟩ := hphase.refusals hidle
    obtain ⟨made, hmade, hrefusals⟩ := hloop.refusals hmiddle
    rw [course, if_neg (by simp [hprimal, hdual]), hrestored, hpivots]
    rcases hrefusals x hx with hbefore | ⟨u, hu, hrefused⟩
    · obtain ⟨u, hu, hrefused⟩ := (hphaseRefusals x hbefore).resolve_left hnone
      refine ⟨u, List.mem_append_left _ ?_, hrefused⟩
      change u ∈ Tableau.replay _ middle.pivots.toList
      rw [hphaseMade]
      exact hu
    · refine ⟨u, List.mem_append_right _ ?_, hrefused⟩
      have hlater : last.pivots.toList.drop middle.pivots.size = made := by
        rw [hmade]
        exact List.drop_left' (Array.length_toList)
      change u ∈ (t.putBack middle.tableau).replay (last.pivots.toList.drop middle.pivots.size)
      rw [hlater]
      exact hu

end SolveEnds

/-- The report on a solve is coherent, whatever the arithmetic does. -/
theorem reportsCoherently (t : Tableau α) (options : SolveOptions) : t.ReportsCoherently options := by
  obtain ⟨last, verdict, hends⟩ := t.exists_solveEnds options
  have hrun := hends.run_eq
  have hsolve := hends.solve_eq
  refine ⟨?_, fun hover => ?_, ?_, ?_, ?_, fun hprimal hdual hstopped => ?_, fun hstatus hroom => ?_⟩
  · exact hends.iterations_eq ▸ hends.size_le
  · exact hends.iterations_eq.trans (hends.size_eq_zero_of_isOver hover)
  · rw [hsolve]
    cases verdict <;> simp [Report.ofRun, Verdict.certificate?, Verdict.status]
  · rw [hsolve]
    cases verdict <;> simp [Report.ofRun, Verdict.status]
  · rw [hsolve, hrun]
    cases verdict <;> simp [Report.ofRun]
  · rw [solve, (run_of_infeasible hprimal hdual options).2 hstopped]
    rfl
  · rw [hends.iterations_eq] at hroom
    rw [hsolve] at hstatus ⊢
    cases verdict with
    | iterationLimit => exact ⟨_, rfl, hends.rejected_ne_empty rfl hroom⟩
    | timeLimit => cases hstatus
    | optimal => cases hstatus
    | unbounded => cases hstatus
    | infeasible certificate => cases hstatus

end Tableau

end Loop

/-! ## Refused pivots in exact arithmetic -/

/-- The ratio test of a primal pivot finds entries above the pivot tolerance, so a refused pivot is a dual
one, on a negative entry that is too small. -/
theorem Tableau.HasShape.dual_of_refuses {u : Tableau ℚ} {n m : ℕ} (hu : u.HasShape n m)
    {rule : EnteringRule} {kind : PivotKind} {x : RejectedPivot ℚ} (h : u.Refuses rule kind x) :
    kind = .dual ∧ x.value < -u.tolerance ∧ |x.value| < u.pivotTolerance := by
  obtain ⟨columns, hmove, hcolumn⟩ := h.offered
  obtain ⟨_, hinside, hvalue, hdegenerate⟩ := pivot_eq_degenerate_iff.mp h.degenerate
  have hsmall : |x.value| < u.pivotTolerance := by
    simpa [isDegenerate, Scalar.isNaN, Scalar.abs_rat] using hdegenerate
  have hallows := u.allows_nextMove rule
  rw [hmove] at hallows
  cases hallows with
  | dualPivot hr _ hcolumns =>
    refine ⟨rfl, ?_, hsmall⟩
    rw [hvalue, coefficient, hr]
    exact (hcolumns _ hcolumn).2
  | @primalPivot _ _ r _ _ _ hr hentry =>
    cases List.mem_singleton.mp hcolumn
    have hwidth := hu.width _ (List.mem_of_getElem? hr)
    have hcoefficient : x.value = r.coefficient x.column := by rw [hvalue, coefficient, hr]
    rw [Equation.entry_of_lt (hwidth.symm ▸ hu.columns ▸ hinside), ← hcoefficient, ratioThreshold,
      Scalar.larger_rat] at hentry
    have hlarge : u.pivotTolerance < |x.value| :=
      ((le_max_right _ _).trans_lt hentry).trans_le (le_abs_self _)
    exact absurd hsmall hlarge.not_gt

/-- Whatever the arithmetic does, a solve of a tableau that was built and edited ends in one way, its
report is coherent, and each pivot it notes as refused was refused for its size by a tableau of its
course. In exact arithmetic this was in a dual step, on an entry that is negative but too small. -/
theorem solve_reports_coherently :
    (∀ {α : Type} [Scalar α] {first : Tableau α}, first.IsInitial →
      ∀ (history : List (Edit α)) (options : SolveOptions),
        let reached := first.afterEdits history
        (∀ last verdict, reached.SolveEnds options last verdict ↔
            reached.run options = (last, verdict)) ∧
          reached.ReportsCoherently options ∧
          ∀ x ∈ (reached.run options).1.rejected,
            ∃ u ∈ reached.course options, ∃ kind, u.Refuses options.rule kind x) ∧
      ∀ {first : Tableau ℚ}, first.IsInitial →
        ∀ (history : List (Edit ℚ)) (options : SolveOptions),
          let reached := first.afterEdits history
          ∀ x ∈ (reached.run options).1.rejected,
            (∃ u ∈ reached.course options, u.Refuses options.rule .dual x) ∧
              x.value < -reached.tolerance ∧ |x.value| < reached.pivotTolerance := by
  have hrefusals {α : Type} [Scalar α] {first : Tableau α} (hfirst : first.IsInitial)
      (history : List (Edit α)) (options : SolveOptions) :
      ∀ x ∈ ((first.afterEdits history).run options).1.rejected,
        ∃ u ∈ (first.afterEdits history).course options, (first.afterEdits history).Resembles u ∧
          ∃ kind, u.Refuses options.rule kind x := by
    obtain ⟨n, k, hstart⟩ := hfirst.hasShape
    obtain ⟨m, hshape⟩ := (hstart.afterEdits history).shape
    exact (Tableau.solveEnds_iff.mpr rfl).refusals hshape.self
  refine ⟨fun hfirst history options => ?_, fun hfirst history options => ?_⟩
  · refine ⟨fun _ _ => Tableau.solveEnds_iff, Tableau.reportsCoherently _ options, fun x hx => ?_⟩
    obtain ⟨u, hu, _, hrefused⟩ := hrefusals hfirst history options x hx
    exact ⟨u, hu, hrefused⟩
  · intro reached x hx
    obtain ⟨u, hu, hresembles, kind, hrefused⟩ := hrefusals hfirst history options x hx
    obtain ⟨rfl, hnegative, hsmall⟩ := hresembles.shape.dual_of_refuses hrefused
    obtain ⟨_, _, htolerance, hpivotTolerance⟩ := Tableau.settings_eq_iff.mp hresembles.settings
    rw [htolerance] at hnegative
    rw [hpivotTolerance] at hsmall
    exact ⟨⟨u, hu, hrefused⟩, hnegative, hsmall⟩

/-- A cut with small entries after a solve: every pivot that might meet it is refused. -/
theorem reports_after_small_entries :
    let first := (LinearProgram.ofMatrix [[1, 1]] [4] [2, 1]).slackTableau
    let history : List (Edit ℚ) :=
      [.setTolerances (some 0) (some (1 / 100)), .solve {}, .appendRow [1 / 1000, 0] (1 / 1000)]
    let reached := first.afterEdits history
    first.IsInitial ∧ reached.ReportsCoherently {} ∧
      (reached.solve {}).1.status = .iterationLimit ∧ (reached.solve {}).1.iterations = 0 ∧
      ∃ x ∈ (reached.run {}).1.rejected,
        (∃ u ∈ reached.course {}, ∃ kind, u.Refuses .dantzig kind x) ∧
          (∃ u ∈ reached.course {}, u.Refuses .dantzig .dual x) ∧
          x.value < -reached.tolerance ∧ |x.value| < reached.pivotTolerance := by
  intro first history reached
  have hfirst : first.IsInitial := .inl ⟨[[1, 1]], [4], [2, 1], by with_unfolding_all rfl⟩
  obtain ⟨_, hcoherent, hrefused⟩ := solve_reports_coherently.1 hfirst history {}
  have hdual := solve_reports_coherently.2 hfirst history {}
  have hsize : 0 < (reached.run {}).1.rejected.size := by decide +kernel
  have hx := Array.getElem_mem hsize
  exact ⟨hfirst, hcoherent, by decide +kernel, by decide +kernel, _, hx, hrefused _ hx, hdual _ hx⟩

end WarmSimplex
