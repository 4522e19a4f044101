import WarmSimplex.Proofs.Ending
import WarmSimplex.Proofs.Origin
import WarmSimplex.Edit

/-!
# Larger budgets

What a larger budget of pivots changes about a solve. If the solve does not end for want of pivots, it
changes nothing. Otherwise the solve goes on from where it stopped: the pivots that were made are the first
ones of those that are made then, even if the solve stopped while the objective was set aside.

Entries, tolerances and the deadline may be anything. How many pivots would be enough is not looked at.
-/

namespace WarmSimplex

variable {α : Type} [Scalar α]

namespace Progress.Ends

variable {rule : EnteringRule} {deadline : Deadline} {limit more : ℕ}
variable {p last final : Progress α} {verdict finalVerdict : Verdict α}

/-- A loop that does not end for want of pivots ends the same way under a larger limit. -/
theorem of_settled (h : p.Ends rule deadline limit last verdict) (hmore : limit ≤ more)
    (hsettled : verdict ≠ .iterationLimit ∨ last.pivots.size < limit) :
    p.Ends rule deadline more last verdict := by
  induction h with
  | stop hmove => exact .stop hmove
  | exhausted hmove hlimit =>
    rcases hsettled with hverdict | hsize
    · exact absurd rfl hverdict
    · exact absurd hlimit (not_le.mpr hsize)
  | late hmove hroom hover => exact .late hmove (hroom.trans_le hmore) hover
  | refused hmove hroom hopen hfirst => exact .refused hmove (hroom.trans_le hmore) hopen hfirst
  | pivot hmove hroom hopen hfirst _ ih =>
    exact .pivot hmove (hroom.trans_le hmore) hopen hfirst (ih hsettled)

/-- A loop that has used up its limit goes on from there under a larger one. -/
theorem of_full (h : p.Ends rule deadline limit last verdict) (hfull : limit ≤ last.pivots.size)
    (hmore : limit ≤ more) (hfinal : last.Ends rule deadline more final finalVerdict) :
    p.Ends rule deadline more final finalVerdict := by
  induction h with
  | stop _ => exact hfinal
  | exhausted _ _ => exact hfinal
  | late _ _ _ => exact hfinal
  | refused _ hroom _ _ => exact absurd hfull (not_le.mpr hroom)
  | pivot hmove hroom hopen hfirst _ ih =>
    exact .pivot hmove (hroom.trans_le hmore) hopen hfirst (ih hfull hfinal)

end Progress.Ends

namespace Tableau

variable {t : Tableau α} {options : SolveOptions} {more : ℕ} {last : Progress α} {verdict : Verdict α}

namespace SolveEnds

/-- A solve that does not end for want of pivots ends the same way with a larger budget. -/
theorem of_settled (h : t.SolveEnds options last verdict) (hmore : options.maxIterations ≤ more)
    (hsettled : verdict ≠ .iterationLimit ∨ last.pivots.size < options.maxIterations) :
    t.SolveEnds { options with maxIterations := more } last verdict := by
  cases h with
  | direct hfeasible hloop => exact .direct hfeasible (hloop.of_settled hmore hsettled)
  | stopped hprimal hdual hphase hverdict =>
    exact .stopped hprimal hdual (hphase.of_settled hmore hsettled) hverdict
  | resumed hprimal hdual hphase hloop =>
    exact .resumed hprimal hdual (hphase.of_settled hmore (.inl (by simp))) (hloop.of_settled hmore hsettled)

/-- A solve that has used up its budget makes the same pivots first with a larger one. -/
theorem exists_of_full (h : t.SolveEnds options last verdict)
    (hfull : options.maxIterations ≤ last.pivots.size) (hmore : options.maxIterations ≤ more) :
    ∃ final finalVerdict, t.SolveEnds { options with maxIterations := more } final finalVerdict ∧
      last.pivots.toList <+: final.pivots.toList := by
  cases h with
  | direct hfeasible hloop =>
    obtain ⟨final, finalVerdict, hfinal⟩ := Progress.exists_ends (p := last) options.rule
      options.deadline ((hloop.size_le (Nat.zero_le _)).trans hmore)
    exact ⟨final, finalVerdict, .direct hfeasible (hloop.of_full hfull hmore hfinal),
      hfinal.pivots_prefix⟩
  | @stopped reached _ hprimal hdual hphase _ =>
    have hsize := hphase.size_le (Nat.zero_le _)
    obtain ⟨middle, middleVerdict, hmiddle⟩ := Progress.exists_ends (p := reached) options.rule
      options.deadline (hsize.trans hmore)
    have hwhole := hphase.of_full hfull hmore hmiddle
    by_cases hverdict : middleVerdict = .optimal
    · -- the larger budget lets the feasibility phase end well, so the second phase begins
      subst hverdict
      obtain ⟨final, finalVerdict, hfinal⟩ := Progress.exists_ends (p := middle.mapTableau t.putBack)
        options.rule options.deadline (hmiddle.size_le (hsize.trans hmore))
      exact ⟨final, finalVerdict, .resumed hprimal hdual hwhole hfinal,
        hmiddle.pivots_prefix.trans hfinal.pivots_prefix⟩
    · exact ⟨_, _, .stopped hprimal hdual hwhole hverdict, hmiddle.pivots_prefix⟩
  | resumed hprimal hdual hphase hloop =>
    have hsize := hloop.size_le (hphase.size_le (Nat.zero_le _))
    obtain ⟨final, finalVerdict, hfinal⟩ := Progress.exists_ends (p := last) options.rule
      options.deadline (hsize.trans hmore)
    exact ⟨final, finalVerdict, .resumed hprimal hdual (hphase.of_settled hmore (.inl (by simp)))
      (hloop.of_full hfull hmore hfinal), hfinal.pivots_prefix⟩

end SolveEnds

end Tableau

/-- A verdict is reported as a limit on the pivots only if it is one. -/
theorem Verdict.status_eq_iterationLimit_iff {β : Type} {verdict : Verdict β} :
    verdict.status = .iterationLimit ↔ verdict = .iterationLimit := by
  cases verdict <;> simp [status]

/-- A solve that did not use up its budget does the same with a larger one. A solve that did makes its
pivots first with a larger one, and maybe more after them. -/
theorem Tableau.solve_with_larger_budget (t : Tableau α) (options : SolveOptions) {more : ℕ}
    (hmore : options.maxIterations ≤ more) :
    let report := (t.solve options).1
    let larger := t.solve { options with maxIterations := more }
    (report.status ≠ .iterationLimit ∨ report.iterations < options.maxIterations →
        larger = t.solve options) ∧
      (report.status = .iterationLimit → options.maxIterations ≤ report.iterations →
        options.maxIterations ≤ larger.1.iterations ∧
          larger.1.pivots.take options.maxIterations = report.pivots) := by
  intro report larger
  obtain ⟨last, verdict, hends⟩ := t.exists_solveEnds options
  refine ⟨fun hsettled => ?_, fun _ hfull => ?_⟩
  · rw [hends.status_eq, hends.iterations_eq, ne_eq, Verdict.status_eq_iterationLimit_iff] at hsettled
    exact (hends.of_settled hmore hsettled).solve_eq.trans hends.solve_eq.symm
  · rw [hends.iterations_eq] at hfull
    obtain ⟨final, finalVerdict, hfinal, hbegins⟩ := hends.exists_of_full hfull hmore
    have hsize : last.pivots.toList.length = options.maxIterations :=
      Array.length_toList.trans (hends.size_le.antisymm hfull)
    rw [Report.iterations, hfinal.pivots_eq, hends.pivots_eq, ← hsize]
    exact ⟨hbegins.length_le, (List.prefix_iff_eq_take.mp hbegins).symm⟩

/-- A budget of one pivot ends at the feasibility phase, the next ones go on from there, and from the
third pivot on a larger budget changes nothing. -/
theorem larger_budgets_after_cover :
    let t := (LinearProgram.ofMatrix [[1, 1], [1, -1]] [4, 2] [2, 1]).slackTableau.afterEdits
      [.setTolerances (some 0) (some 0), .appendRow [-1, -1] (-1)]
    let short : SolveOptions := { maxIterations := 1 }
    let enough : SolveOptions := { maxIterations := 3 }
    (t.solve short).1.status = .iterationLimit ∧ (t.solve short).1.iterations = 1 ∧
      1 ≤ (t.solve enough).1.iterations ∧
      (t.solve enough).1.pivots.take 1 = (t.solve short).1.pivots ∧
      (t.solve enough).1.status = .optimal ∧ (t.solve enough).1.iterations = 3 ∧
      t.solve { maxIterations := 5 } = t.solve enough := by
  intro t short enough
  have hshort : (t.solve short).1.status = .iterationLimit ∧ (t.solve short).1.iterations = 1 := by
    decide +kernel
  have henough : (t.solve enough).1.status = .optimal ∧ (t.solve enough).1.iterations = 3 := by
    decide +kernel
  obtain ⟨hroom, htake⟩ := (Tableau.solve_with_larger_budget t short (by decide : 1 ≤ 3)).2
    hshort.1 hshort.2.ge
  have hsame := (Tableau.solve_with_larger_budget t enough (by decide : 3 ≤ 5)).1
    (.inl (by simp [henough.1]))
  exact ⟨hshort.1, hshort.2, hroom, htake, henough.1, henough.2, hsame⟩

end WarmSimplex
