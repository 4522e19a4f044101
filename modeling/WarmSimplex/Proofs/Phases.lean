import WarmSimplex.Proofs.History
import WarmSimplex.Proofs.RatioTests

/-!
# Phases of a solve

The loop chooses between a primal and a dual pivot anew each time. Without tolerances it never changes
from one kind to the other: from a primal feasible tableau it makes primal pivots, which never lower the
objective, and from a dual feasible one it makes dual pivots, which never raise it. If the tableau is
feasible in neither sense, the two kinds stand in the two phases of the solve.

A run can still end at a limit, or go round in a cycle of degenerate pivots.
-/

namespace WarmSimplex

/-! ## The way of a run -/

section Ways

variable {α : Type} [Scalar α] {rule : EnteringRule}

namespace Tableau

/-- The tableaus that the pivots lead through one after the other, from the first to the last one. -/
def replay (t : Tableau α) : List Pivot → List (Tableau α)
  | [] => [t]
  | made :: rest => t :: (t.pivotAt made.row made.column).replay rest

/-- A replay begins with its first tableau. -/
theorem replay_eq_cons (t : Tableau α) (pivots : List Pivot) :
    ∃ others, t.replay pivots = t :: others := by
  cases pivots with
  | nil => exact ⟨[], rfl⟩
  | cons made rest => exact ⟨_, rfl⟩

/-- The loop makes the pivots in their order, and they lead from the first tableau to the second one. -/
inductive Reaches (rule : EnteringRule) : Tableau α → List Pivot → Tableau α → Prop
  | refl (t : Tableau α) : Reaches rule t [] t
  | step {t next last : Tableau α} {made : Pivot} {rest : List Pivot} :
      t.StepsTo rule made next → Reaches rule next rest last → Reaches rule t (made :: rest) last

end Tableau

/-- The loop notes the pivots that lead to the tableau it ends with. -/
theorem Progress.reaches_iterate (rule : EnteringRule) (deadline : Deadline) (budget : ℕ)
    (p : Progress α) :
    ∃ made, (p.iterate rule deadline budget).1.pivots.toList = p.pivots.toList ++ made ∧
      Tableau.Reaches rule p.tableau made (p.iterate rule deadline budget).1.tableau := by
  have hstays (q : Progress α) : ∃ made, q.pivots.toList = q.pivots.toList ++ made ∧
      Tableau.Reaches rule q.tableau made q.tableau := ⟨[], (List.append_nil _).symm, .refl _⟩
  induction budget generalizing p with
  | zero =>
    unfold Progress.iterate
    split
    · exact hstays p
    · exact hstays p
    · contradiction
  | succ budget ih =>
    unfold Progress.iterate
    split
    · exact hstays p
    · contradiction
    · rename_i kind row columns remaining hmove hbudget
      cases hbudget
      split
      · exact hstays p
      · split
        · exact hstays p
        · rename_i rejected column next hfirst
          obtain ⟨made, hpivots, hreaches⟩ := ih ((p.reject rejected).advance ⟨kind, row, column⟩ next)
          have hmade : p.tableau.StepsTo rule ⟨kind, row, column⟩ next :=
            ⟨columns, hmove, congrArg Prod.snd hfirst⟩
          refine ⟨⟨kind, row, column⟩ :: made, ?_, .step hmade hreaches⟩
          rw [hpivots]
          simp [advance, reject]

/-- If every step of the loop is of one kind, keeps an invariant and relates the tableaus before and
after it, a whole run is of this kind, keeps the invariant and relates its tableaus in turn. -/
theorem Tableau.Reaches.replay {kind : PivotKind} {I : Tableau α → Prop}
    {R : Tableau α → Tableau α → Prop}
    (hstep : ∀ t next made, I t → t.StepsTo rule made next → made.kind = kind ∧ I next ∧ R t next)
    {t last : Tableau α} {pivots : List Pivot} (h : Reaches rule t pivots last) (ht : I t) :
    (∀ made ∈ pivots, made.kind = kind) ∧ (∀ u ∈ t.replay pivots, I u) ∧
      (t.replay pivots).IsChain R ∧ (t.replay pivots).getLast? = some last := by
  induction h with
  | refl t => exact ⟨by simp, by simpa [Tableau.replay] using ht, .singleton _, rfl⟩
  | @step t next last made rest hmade hreaches ih =>
    obtain ⟨hkind, hnext, hrelated⟩ := hstep _ _ _ ht hmade
    obtain ⟨hkinds, hkeeps, hchain, hlast⟩ := ih hnext
    rw [hmade.eq_pivotAt] at hkeeps hchain hlast hrelated
    obtain ⟨others, hothers⟩ := replay_eq_cons (t.pivotAt made.row made.column) rest
    rw [Tableau.replay]
    refine ⟨List.forall_mem_cons.mpr ⟨hkind, hkinds⟩, List.forall_mem_cons.mpr ⟨ht, hkeeps⟩, ?_, ?_⟩
    · rw [hothers] at hchain ⊢
      exact .cons_cons hrelated hchain
    · rw [hothers] at hlast ⊢
      rwa [List.getLast?_cons_cons]

end Ways

/-! ## Runs of one kind -/

namespace Tableau

variable {t last : Tableau ℚ} {rule : EnteringRule} {pivots : List Pivot}

/-- The pivots are of one kind and lead to the last tableau, through tableaus that are feasible and
whose objective values are in order. -/
structure RunsBy (t : Tableau ℚ) (kind : PivotKind) (feasible : Tableau ℚ → Bool)
    (order : ℚ → ℚ → Prop) (pivots : List Pivot) (last : Tableau ℚ) : Prop where
  kind : ∀ made ∈ pivots, made.kind = kind
  feasible : ∀ u ∈ t.replay pivots, feasible u = true
  order : ((t.replay pivots).map (·.objectiveValue)).Pairwise order
  last : (t.replay pivots).getLast? = some last

/-- A run whose steps keep an invariant of feasible tableaus is one of their kind. -/
theorem Reaches.runsBy {kind : PivotKind} {feasible : Tableau ℚ → Bool} {order : ℚ → ℚ → Prop}
    [IsTrans ℚ order] {I : Tableau ℚ → Prop} (hfeasible : ∀ u, I u → feasible u = true)
    (hstep : ∀ u next made, I u → u.StepsTo rule made next →
      made.kind = kind ∧ I next ∧ order u.objectiveValue next.objectiveValue)
    (h : Reaches rule t pivots last) (ht : I t) :
    t.RunsBy kind feasible order pivots last ∧ ∀ u ∈ t.replay pivots, I u := by
  obtain ⟨hkind, hkeeps, hchain, hlast⟩ := h.replay
    (R := fun u next => order u.objectiveValue next.objectiveValue) hstep ht
  exact ⟨⟨hkind, fun u hu => hfeasible u (hkeeps u hu), ((List.isChain_map _).mpr hchain).pairwise,
    hlast⟩, hkeeps⟩

/-- The last tableau of a run is one of those that it leads through. -/
theorem RunsBy.last_mem {kind : PivotKind} {feasible : Tableau ℚ → Bool} {order : ℚ → ℚ → Prop}
    (h : t.RunsBy kind feasible order pivots last) : last ∈ t.replay pivots :=
  List.mem_of_getLast? h.last

/-- From a feasible basis a run makes primal pivots. -/
theorem ExactlyFeasible.runsBy (ht : t.ExactlyFeasible) (h : Reaches rule t pivots last) :
    t.RunsBy .primal Tableau.isPrimalFeasible (· ≤ ·) pivots last ∧
      ∀ u ∈ t.replay pivots, u.ExactlyFeasible :=
  h.runsBy (fun _ hu => hu.isPrimalFeasible) (fun _ _ _ hu hmade => hu.step hmade) ht

/-- Without negative reduced costs a run makes dual pivots. -/
theorem ExactlyPriced.runsBy (ht : t.ExactlyPriced) (h : Reaches rule t pivots last) :
    t.RunsBy .dual Tableau.isDualFeasible (· ≥ ·) pivots last ∧
      ∀ u ∈ t.replay pivots, u.ExactlyPriced :=
  h.runsBy (fun _ hu => hu.isDualFeasible) (fun _ _ _ hu hmade => hu.step hmade) ht

/-- The loop ends at a limit or with a status that the signs of its last tableau allow. -/
theorem status_iterate_ne {p : Progress ℚ} {deadline : Deadline} {budget : ℕ} {status : Status}
    (hiterations : status ≠ .iterationLimit) (htime : status ≠ .timeLimit)
    (h : ∀ verdict, (p.iterate rule deadline budget).1.tableau.Allows (.stop verdict) →
      verdict.status ≠ status) : (p.iterate rule deadline budget).2.status ≠ status := by
  rcases allows_iterate p rule deadline budget with hlimit | hlimit | hallows
  · rw [hlimit]
    exact hiterations.symm
  · rw [hlimit]
    exact htime.symm
  · exact h _ hallows

/-- The signs of the last tableau allow an optimum if the loop ends with one. -/
theorem allows_of_iterate_eq_optimal {p : Progress ℚ} {deadline : Deadline} {budget : ℕ}
    (h : (p.iterate rule deadline budget).2 = .optimal) :
    (p.iterate rule deadline budget).1.tableau.Allows (.stop .optimal) := by
  rcases allows_iterate p rule deadline budget with hlimit | hlimit | hallows
  · cases hlimit.symm.trans h
  · cases hlimit.symm.trans h
  · rwa [h] at hallows

/-- From a feasible basis the loop makes primal pivots, and does not end infeasible. -/
theorem ExactlyFeasible.iterate {p : Progress ℚ} (hp : p.tableau.ExactlyFeasible)
    (rule : EnteringRule) (deadline : Deadline) (budget : ℕ) :
    ∃ made, (p.iterate rule deadline budget).1.pivots.toList = p.pivots.toList ++ made ∧
      p.tableau.RunsBy .primal Tableau.isPrimalFeasible (· ≤ ·) made
        (p.iterate rule deadline budget).1.tableau ∧
      (p.iterate rule deadline budget).2.status ≠ .infeasible := by
  obtain ⟨made, hpivots, hreaches⟩ := p.reaches_iterate rule deadline budget
  obtain ⟨hruns, hkeeps⟩ := hp.runsBy hreaches
  have hlast := hkeeps _ hruns.last_mem
  exact ⟨made, hpivots, hruns, status_iterate_ne (by decide) (by decide)
    fun _ hallows => hlast.status_ne_infeasible hallows⟩

/-- Without negative reduced costs the loop makes dual pivots, and does not end unbounded. -/
theorem ExactlyPriced.iterate {p : Progress ℚ} (hp : p.tableau.ExactlyPriced)
    (rule : EnteringRule) (deadline : Deadline) (budget : ℕ) :
    ∃ made, (p.iterate rule deadline budget).1.pivots.toList = p.pivots.toList ++ made ∧
      p.tableau.RunsBy .dual Tableau.isDualFeasible (· ≥ ·) made
        (p.iterate rule deadline budget).1.tableau ∧
      (p.iterate rule deadline budget).2.status ≠ .unbounded := by
  obtain ⟨made, hpivots, hreaches⟩ := p.reaches_iterate rule deadline budget
  obtain ⟨hruns, hkeeps⟩ := hp.runsBy hreaches
  have hlast := hkeeps _ hruns.last_mem
  exact ⟨made, hpivots, hruns, status_iterate_ne (by decide) (by decide)
    fun _ hallows => hlast.status_ne_unbounded hallows⟩

/-! ## The feasibility phase -/

/-- The tableau with its objective set aside. -/
def setAside (t : Tableau ℚ) : Tableau ℚ := t.withObjective (Equation.zero t.columnCount)

/-- The pivots of the feasibility phase. -/
def phasePivots (t : Tableau ℚ) (options : SolveOptions) : List Pivot :=
  (t.restoreFeasibility options).1.pivots.toList

/-- The tableau with its objective set aside has no negative reduced costs. -/
theorem exactlyPriced_setAside {costs : List ℚ} {given : List (StoredConstraint ℚ)}
    (ht : t.Encodes costs given) (htolerance : t.tolerance = 0)
    (hpivotTolerance : t.pivotTolerance = 0) : t.setAside.ExactlyPriced :=
  ⟨ht.setAside.canonical, fun _ => (Equation.coefficient_zero _ _).ge, htolerance, hpivotTolerance⟩

/-- The feasibility phase makes dual pivots, which leave the zero objective as it is. -/
theorem runsBy_phase (hpriced : t.setAside.ExactlyPriced) (options : SolveOptions) :
    t.setAside.RunsBy .dual isDualFeasible (· ≥ ·) (t.phasePivots options)
        (t.idleEnd options).1.tableau ∧
      ∀ u ∈ t.setAside.replay (t.phasePivots options),
        u.ExactlyPriced ∧ u.objective = Equation.zero t.columnCount := by
  obtain ⟨made, hpivots, hreaches⟩ := (Progress.start t.setAside).reaches_iterate options.rule
    options.deadline options.maxIterations
  have hphase : t.phasePivots options = made := by
    rw [phasePivots, restoreFeasibility_eq]
    exact hpivots
  rw [hphase]
  refine hreaches.runsBy (I := fun u => u.ExactlyPriced ∧ u.objective = Equation.zero t.columnCount)
    (fun _ hu => hu.1.isDualFeasible) (fun u next made hu hmade => ?_) ⟨hpriced, rfl⟩
  obtain ⟨hkind, hnext, hfalls⟩ := hu.1.step hmade
  have hidle : ∀ j, u.reducedCost j = 0 := fun j => by
    rw [reducedCost, hu.2]
    exact Equation.coefficient_zero _ _
  have hobjective : next.objective = u.objective := by
    rw [hmade.eq_pivotAt]
    exact objective_pivotAt_of_idle hidle _ _
  exact ⟨hkind, ⟨hnext, hobjective.trans hu.2⟩, hfalls⟩

/-- A phase that ends well leaves a feasible basis, with the objective put back. -/
theorem exactlyFeasible_restoreFeasibility {costs : List ℚ} {given : List (StoredConstraint ℚ)}
    (ht : t.Encodes costs given) (htolerance : t.tolerance = 0)
    (hpivotTolerance : t.pivotTolerance = 0) {options : SolveOptions}
    (hoptimal : (t.restoreFeasibility options).2 = .optimal) :
    (t.restoreFeasibility options).1.tableau.ExactlyFeasible := by
  obtain ⟨_, _, hkept, hkeptPivot⟩ := settings_eq_iff.mp (t.settings_restoreFeasibility options)
  refine ⟨(ht.restoreFeasibility htolerance.ge options).canonical, fun r hr => ?_,
    hkept.trans htolerance, hkeptPivot.trans hpivotTolerance⟩
  have hstop : (t.idleEnd options).1.tableau.Allows (.stop .optimal) :=
    allows_of_iterate_eq_optimal (p := Progress.start t.setAside) hoptimal
  cases hstop with
  | optimal primal _ =>
    have hrhs := primal r hr
    rw [(settings_eq_iff.mp (t.settings_idleEnd options)).2.2.1, htolerance, neg_zero] at hrhs
    exact not_lt.mp hrhs

/-- What the two phases of a solve do: the first one makes dual pivots and leaves a zero objective as
it is; if it ends well, the second one makes primal pivots. -/
structure RunsInPhases (t : Tableau ℚ) (options : SolveOptions) (report : Report ℚ)
    (solved : Tableau ℚ) : Prop where
  first : t.setAside.RunsBy .dual isDualFeasible (· ≥ ·) (t.phasePivots options)
    (t.idleEnd options).1.tableau
  idle : ∀ u ∈ t.setAside.replay (t.phasePivots options), u.objective = Equation.zero t.columnCount
  bounded : (t.restoreFeasibility options).2 ≠ .unbounded
  stops : (t.restoreFeasibility options).2 ≠ .optimal →
    report.pivots = t.phasePivots options ∧
      report.status = (t.restoreFeasibility options).2.status
  second : (t.restoreFeasibility options).2 = .optimal →
    ∃ later, report.pivots = t.phasePivots options ++ later ∧
      (t.restoreFeasibility options).1.tableau.RunsBy .primal isPrimalFeasible (· ≤ ·) later solved ∧
      report.status ≠ .infeasible

/-- A solve of a tableau that is feasible in neither sense has two phases. -/
theorem runsInPhases_solve {costs : List ℚ} {given : List (StoredConstraint ℚ)}
    (ht : t.Encodes costs given) (htolerance : t.tolerance = 0)
    (hpivotTolerance : t.pivotTolerance = 0) (hprimal : t.isPrimalFeasible = false)
    (hdual : t.isDualFeasible = false) (options : SolveOptions) :
    t.RunsInPhases options (t.solve options).1 (t.solve options).2 := by
  have hpriced := exactlyPriced_setAside ht htolerance hpivotTolerance
  obtain ⟨hfirst, hidle⟩ := runsBy_phase hpriced options
  obtain ⟨hgoes, hstops⟩ := run_of_infeasible hprimal hdual options
  refine ⟨hfirst, fun u hu => (hidle u hu).2, fun hunbounded => ?_, fun hstopped => ?_,
    fun hoptimal => ?_⟩
  · have hlast := (hidle _ hfirst.last_mem).1
    have hstatus : (t.idleEnd options).2.status ≠ .unbounded :=
      status_iterate_ne (by decide) (by decide) fun _ hallows => hlast.status_ne_unbounded hallows
    exact hstatus (congrArg Verdict.status hunbounded)
  · simp only [solve, hstops hstopped, Report.ofRun, phasePivots, and_self]
  · obtain ⟨later, hpivots, hruns, hstatus⟩ :=
      (exactlyFeasible_restoreFeasibility ht htolerance hpivotTolerance hoptimal).iterate
        options.rule options.deadline
        (options.maxIterations - (t.restoreFeasibility options).1.pivots.size)
    rw [← hgoes hoptimal] at hpivots hruns hstatus
    exact ⟨later, hpivots, hruns, hstatus⟩

end Tableau

/-- Without tolerances, a solve of a primal feasible tableau makes primal pivots that do not lower the
objective, and one of a dual feasible tableau makes dual pivots that do not raise it. Otherwise dual
pivots against a zero objective come first, and primal pivots after them. -/
theorem Origin.solve_in_phases {o : Origin} {t : Tableau ℚ} (ht : o.tableau = .ok t)
    {history : List (Edit ℚ)} (hcareful : t.Careful history)
    (htolerance : (t.afterEdits history).tolerance = 0)
    (hpivotTolerance : (t.afterEdits history).pivotTolerance = 0) (options : SolveOptions) :
    let reached := t.afterEdits history
    let report := (reached.solve options).1
    let solved := (reached.solve options).2
    (reached.isPrimalFeasible = true →
        reached.RunsBy .primal Tableau.isPrimalFeasible (· ≤ ·) report.pivots solved ∧
          report.status ≠ .infeasible) ∧
      (reached.isDualFeasible = true →
        reached.RunsBy .dual Tableau.isDualFeasible (· ≥ ·) report.pivots solved ∧
          report.status ≠ .unbounded) ∧
      (reached.isPrimalFeasible = false → reached.isDualFeasible = false →
        reached.RunsInPhases options report solved) := by
  intro reached report solved
  obtain ⟨hencodes, _⟩ := Origin.encodes_of_pivotsOffZero ht hcareful.tolerance hcareful.offZero
  refine ⟨fun hprimal => ?_, fun hdual => ?_, fun hprimal hdual => ?_⟩
  · have hfeasible : reached.ExactlyFeasible :=
      .of_isPrimalFeasible hencodes.canonical htolerance hpivotTolerance hprimal
    obtain ⟨made, hpivots, hruns, hstatus⟩ := Tableau.ExactlyFeasible.iterate
      (p := Progress.start reached) hfeasible options.rule options.deadline options.maxIterations
    rw [← Tableau.run_of_feasible (.inl hprimal)] at hpivots hruns hstatus
    have hmade : report.pivots = made := hpivots
    exact hmade ▸ ⟨hruns, hstatus⟩
  · have hpriced : reached.ExactlyPriced :=
      .of_isDualFeasible hencodes.canonical htolerance hpivotTolerance hdual
    obtain ⟨made, hpivots, hruns, hstatus⟩ := Tableau.ExactlyPriced.iterate
      (p := Progress.start reached) hpriced options.rule options.deadline options.maxIterations
    rw [← Tableau.run_of_feasible (.inr hdual)] at hpivots hruns hstatus
    have hmade : report.pivots = made := hpivots
    exact hmade ▸ ⟨hruns, hstatus⟩
  · exact Tableau.runsInPhases_solve hencodes htolerance hpivotTolerance hprimal hdual options

/-- One program solved from its slack basis, again after a cut, and under a cover that leaves it
feasible in neither sense. -/
theorem phases_after_cut_and_cover :
    let o : Origin := .matrix [[1, 1], [1, -1]] [4, 2] [2, 1]
    let t := o.start.slackTableau
    let start : List (Edit ℚ) := [.setTolerances (some 0) (some 0)]
    let cut : List (Edit ℚ) := [.setTolerances (some 0) (some 0), .solve {}, .appendRow [1, 0] 1]
    let cover : List (Edit ℚ) := [.setTolerances (some 0) (some 0), .appendRow [-1, -1] (-1)]
    o.tableau = .ok t ∧ t.Careful start ∧ t.Careful cut ∧ t.Careful cover ∧
      (t.afterEdits start).isPrimalFeasible = true ∧
      (t.afterEdits start).RunsBy .primal Tableau.isPrimalFeasible (· ≤ ·)
        ((t.afterEdits start).solve {}).1.pivots ((t.afterEdits start).solve {}).2 ∧
      ((t.afterEdits start).solve {}).1.pivots.length = 2 ∧
      (t.afterEdits cut).isDualFeasible = true ∧
      (t.afterEdits cut).RunsBy .dual Tableau.isDualFeasible (· ≥ ·)
        ((t.afterEdits cut).solve {}).1.pivots ((t.afterEdits cut).solve {}).2 ∧
      ((t.afterEdits cut).solve {}).1.pivots.length = 1 ∧
      (t.afterEdits cover).isPrimalFeasible = false ∧ (t.afterEdits cover).isDualFeasible = false ∧
      (t.afterEdits cover).RunsInPhases {} ((t.afterEdits cover).solve {}).1
        ((t.afterEdits cover).solve {}).2 ∧
      ((t.afterEdits cover).solve {}).1.pivots.map (·.kind) = [.dual, .primal, .primal] := by
  intro o t start cut cover
  have ht : o.tableau = .ok t := by with_unfolding_all rfl
  have hstart : t.Careful start := ⟨by simp [start, Edit.SetsNonneg], trivial, trivial⟩
  have hcut : t.Careful cut := ⟨by simp [cut, Edit.SetsNonneg], trivial, trivial, trivial, trivial⟩
  have hcover : t.Careful cover := ⟨by simp [cover, Edit.SetsNonneg], trivial, trivial, trivial⟩
  have hprimal : (t.afterEdits start).isPrimalFeasible = true := by decide +kernel
  have hdual : (t.afterEdits cut).isDualFeasible = true := by decide +kernel
  have hneither : (t.afterEdits cover).isPrimalFeasible = false ∧
      (t.afterEdits cover).isDualFeasible = false := by decide +kernel
  obtain ⟨hrises, _, _⟩ := Origin.solve_in_phases ht hstart (by decide +kernel) (by decide +kernel) {}
  obtain ⟨_, hfalls, _⟩ := Origin.solve_in_phases ht hcut (by decide +kernel) (by decide +kernel) {}
  obtain ⟨_, _, hphases⟩ := Origin.solve_in_phases ht hcover (by decide +kernel) (by decide +kernel) {}
  exact ⟨ht, hstart, hcut, hcover, hprimal, (hrises hprimal).1, by decide +kernel, hdual,
    (hfalls hdual).1, by decide +kernel, hneither.1, hneither.2, hphases hneither.1 hneither.2,
    by decide +kernel⟩

end WarmSimplex
