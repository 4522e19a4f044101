import WarmSimplex.Proofs.Optimality
import WarmSimplex.Proofs.Resolve

/-!
# Warm starts agree with full resolves

Without tolerances, what the warm-started solver answers at the end of a session and what a full
resolve answers about the extended program are both true of this program, so they are the same
answer. An optimum is reported with the same objective value.

The values need not be the same, since a program can have several optima.
-/

namespace WarmSimplex

/-- The answer of a solve without tolerances is true of the program that the tableau represents, and
an optimum is reported with its objective. -/
theorem Tableau.Represents.answers_solve {t : Tableau ℚ} {p : LinearProgram ℚ} (ht : t.Represents p)
    (hexact : t.tolerance = 0) (hpivot : t.pivotTolerance = 0) {options : SolveOptions}
    (hanswer : (t.solve options).1.status.IsAnswer) :
    ∃ values, p.Answers values (t.solve options).1.status ∧
      ((t.solve options).1.status = .optimal →
        ((t.solve options).2.extract (t.solve options).1).objectiveValue =
          .attained (p.evaluate values)) := by
  have hsolved := ht.solve hexact.ge options
  have hsettings := settings_eq_iff.mp (t.settings_run options)
  obtain ⟨verdict, hverdict, hallows⟩ := allows_solve hexact.ge options hanswer.1 hanswer.2
  have hanswers := hsolved.answers (hsettings.2.2.1.trans hexact) (hsettings.2.2.2.trans hpivot) hallows
  rw [hverdict] at hanswers
  refine ⟨_, hanswers, fun hoptimal => ?_⟩
  obtain ⟨hvalues, hvalue⟩ := hsolved.readSolution (t.solve options).1.iterations
  rw [extract, if_pos hoptimal, hvalue, hvalues]

/-- At the end of a session without tolerances that adds constraints over the decision variables and
solves, the solver and a full resolve of the extended program do not answer differently, and report
the same objective value for an optimum. -/
theorem Origin.solve_agrees_with_resolve {o : Origin} {t : Tableau ℚ} (ht : o.tableau = .ok t)
    {history : List (Edit ℚ)}
    (hhistory : ∀ e ∈ history, e.ExtendsOrSolves o.start.variableCount) (options : SolveOptions)
    (maxIterations : ℕ) :
    let exact := t.withTolerances (some 0) (some 0)
    let solved := (exact.afterEdits history).solve options
    let outcome := (o.start.extend (exact.added history)).resolve ⟨maxIterations, 0⟩
    solved.1.status.IsAnswer → outcome.status.IsAnswer →
      solved.1.status = outcome.status ∧
        (solved.1.status = .optimal →
          (solved.2.extract solved.1).objectiveValue = outcome.objectiveValue) := by
  obtain ⟨hshaped, rfl⟩ := Origin.tableau_eq_ok ht
  intro exact solved outcome hsolve hresolve
  have hall : ∀ e ∈ Edit.setTolerances (some 0) (some 0) :: history,
      e.InSession o.start.variableCount := by
    refine List.forall_mem_cons.mpr ⟨?_, fun e he => (hhistory e he).inSession⟩
    simp [Edit.InSession]
  have hrepresents : (exact.afterEdits history).Represents
      (o.start.extend (exact.added history)) := Tableau.represents_afterEdits hshaped hall
  have hsettings : (exact.afterEdits history).tolerance = 0 ∧
      (exact.afterEdits history).pivotTolerance = 0 :=
    Tableau.settings_afterEdits (P := fun s => s.tolerance = 0 ∧ s.pivotTolerance = 0)
      (fun s e he hs => by rwa [(hhistory e he).after]) (t := exact) ⟨rfl, rfl⟩
  obtain ⟨values, hanswers, hvalue⟩ :=
    hrepresents.answers_solve hsettings.1 hsettings.2 hsolve
  obtain ⟨hfull, hfullValue⟩ :=
    (o.start.extend (exact.added history)).answers_resolve maxIterations
  obtain ⟨hstatus, hobjective⟩ := hanswers.agree hfull hsolve hresolve
  refine ⟨hstatus, fun hoptimal => ?_⟩
  rw [hvalue hoptimal, hobjective hoptimal]
  exact (hfullValue (hstatus.symm.trans hoptimal)).symm

/-- A maximum after two cuts, one of them an equation. -/
theorem solve_agrees_after_two_cuts :
    let o : Origin := .matrix [[1, 1], [1, 3]] [4, 6] [3, 2]
    let t := o.start.slackTableau
    let history : List (Edit ℚ) :=
      [.solve {}, .addConstraint none [1] .le 3, .addEquality none [1, -1] 1]
    let exact := t.withTolerances (some 0) (some 0)
    let solved := (exact.afterEdits history).solve {}
    let outcome := (o.start.extend (exact.added history)).resolve ⟨100, 0⟩
    o.tableau = .ok t ∧ (∀ e ∈ history, e.ExtendsOrSolves o.start.variableCount) ∧
      solved.1.status.IsAnswer ∧ outcome.status.IsAnswer ∧ solved.1.status = outcome.status ∧
        (solved.1.status = .optimal →
          (solved.2.extract solved.1).objectiveValue = outcome.objectiveValue) := by
  intro o t history
  have ht : o.tableau = .ok t := by with_unfolding_all rfl
  have hhistory : ∀ e ∈ history, e.ExtendsOrSolves o.start.variableCount := by
    simp [history, o, Origin.start, LinearProgram.ofMatrix, LinearProgram.variableCount,
      Edit.ExtendsOrSolves, OverFirst]
  have hsolve : (((t.withTolerances (some 0) (some 0)).afterEdits history).solve {}).1.status.IsAnswer :=
    ⟨by decide +kernel, by decide +kernel⟩
  have hresolve : ((o.start.extend ((t.withTolerances (some 0) (some 0)).added history)).resolve
      ⟨100, 0⟩).status.IsAnswer := ⟨by decide +kernel, by decide +kernel⟩
  exact ⟨ht, hhistory, hsolve, hresolve,
    Origin.solve_agrees_with_resolve ht hhistory {} 100 hsolve hresolve⟩

end WarmSimplex
