import WarmSimplex.Proofs.Verdicts
import WarmSimplex.Solution

/-!
# Optimal solutions

The solution that is read off after a session that ends with an optimal solve: it has a value for
each variable and breaks nothing by more than the tolerance, its objective value is the objective at
these values, and no feasible point is better by more than the tolerance allows for its size.

Without a tolerance it is an optimum. Prices and ranges are not looked at here.
-/

namespace WarmSimplex

/-- Looking up an index in the entries of a range finds its own entry. -/
theorem lookup_filterMap_range {β : Type} (f : ℕ → Option β) (n k : ℕ) :
    ((List.range n).filterMap fun j => (f j).map (Prod.mk j)).lookup k =
      if k < n then f k else none := by
  induction n with
  | zero => rfl
  | succ n ih =>
    rw [List.range_succ, List.filterMap_append, List.lookup_append, ih]
    by_cases hkn : k = n
    · rw [hkn, if_neg (lt_irrefl n), if_pos (Nat.lt_succ_self n), Option.none_or]
      cases hn : f n <;> simp [hn]
    · have hlast : ([n].filterMap fun j => (f j).map (Prod.mk j)).lookup k = none := by
        cases hn : f n <;> simp [hn, hkn]
      have hsame : k < n + 1 ↔ k < n := by omega
      rw [hlast, Option.or_none]
      simp only [hsame]

namespace Tableau

/-- The value that the basic columns are listed with, in any order, is the value of the column. -/
theorem lookup_basicValues {t : Tableau ℚ} (hnodup : t.basis.Nodup)
    (hinside : ∀ column ∈ t.basis, column < t.columnCount) (column : ℕ) :
    (t.basicValues.lookup column).getD 0 = t.value column := by
  have hentries : t.basicValues = (List.range t.columnCount).filterMap fun column =>
      ((t.rows.reverse.find? (·.basic == column)).map (·.rhs)).map (Prod.mk column) := by
    rw [basicValues]
    congr 1
    funext column
    rw [Option.map_map]
    rfl
  rw [hentries, lookup_filterMap_range, find?_reverse_key hnodup, value]
  cases hfind : t.rows.find? (·.basic == column) with
  | none => simp
  | some r =>
    have hbasic : r.basic = column := by simpa using List.find?_some hfind
    have hmem := List.mem_map_of_mem (f := (·.basic)) (List.mem_of_find?_eq_some hfind)
    rw [if_pos (hbasic ▸ hinside _ hmem)]
    rfl

/-- The values of a solution are those of the basic point. -/
theorem values_readSolution {t : Tableau ℚ} (ht : t.dictionary.Canonical) (iterations : ℕ) :
    (t.readSolution iterations).values = valuesOf t.structuralCount t.dictionary.basicPoint := by
  have hnodup : t.basis.Nodup := basis_dictionary t ▸ ht.solved.nodup
  have hinside : ∀ column ∈ t.basis, column < t.columnCount :=
    List.forall_mem_map.mpr (forall_mem_dictionary_rows.mp fun _ hr => ht.solved.inside hr)
  apply List.map_congr_left
  intro column _
  rw [lookup_basicValues hnodup hinside, value_eq_basicPoint]

/-- What an optimal tableau says about the program that it represents. -/
theorem Represents.readSolution {t : Tableau ℚ} {p : LinearProgram ℚ} (ht : t.Represents p)
    (iterations : ℕ) :
    (t.readSolution iterations).values = valuesOf p.variableCount t.dictionary.basicPoint ∧
      (t.readSolution iterations).objectiveValue =
        .attained (p.evaluate (t.readSolution iterations).values) := by
  have hvalues := values_readSolution ht.encodes.canonical iterations
  rw [ht.structural] at hvalues
  refine ⟨hvalues, ?_⟩
  rw [hvalues, LinearProgram.evaluate_eq_sign_mul_gain, ht.gain_basicPoint, ← ht.sense]
  rfl

/-- The values of an optimal tableau have no violations beyond the tolerance. -/
theorem Represents.violations_eq_nil {t : Tableau ℚ} {p : LinearProgram ℚ} (ht : t.Represents p)
    (htolerance : 0 ≤ t.tolerance) (hallows : t.Allows (.stop .optimal)) :
    p.violations (valuesOf p.variableCount t.dictionary.basicPoint) t.tolerance = [] := by
  cases hallows with
  | optimal hprimal _ =>
    have hbound : ∀ j, -t.tolerance ≤ t.dictionary.basicPoint j :=
      Dictionary.le_basicPoint (neg_nonpos.mpr htolerance)
        (forall_mem_dictionary_rows.mpr fun r hr => not_lt.mp (hprimal r hr))
    refine (LinearProgram.violations_eq_nil_iff (length_valuesOf _ _) _).mpr ⟨?_, ?_⟩
    · exact LinearProgram.satisfiedWithin_valuesOf ht.width (ht.slackForm ht.holds_basicPoint) hbound
    · exact List.forall_mem_map.mpr fun j _ => hbound j

/-- The solution that an optimal tableau gives for the program that it represents. -/
theorem Represents.extract_of_optimal {t : Tableau ℚ} {p : LinearProgram ℚ} (ht : t.Represents p)
    (htolerance : 0 ≤ t.tolerance) (hallows : t.Allows (.stop .optimal)) {report : Report ℚ}
    (hreport : report.status = .optimal) :
    (t.extract report).values.length = p.variableCount ∧
      p.violations (t.extract report).values t.tolerance = [] ∧
      ∃ value, (t.extract report).objectiveValue = .attained value ∧
        value = p.evaluate (t.extract report).values ∧
        ∀ y, p.Feasible y →
          p.objective.sense.sign * p.evaluate y ≤
            p.objective.sense.sign * value +
              t.tolerance * (y.sum + (p.constraints.map (·.slack y)).sum) := by
  have hextract : t.extract report = t.readSolution report.iterations := by
    rw [extract, if_pos hreport]
  obtain ⟨hvalues, hvalue⟩ := ht.readSolution report.iterations
  have hviolations := ht.violations_eq_nil htolerance hallows
  rw [hextract, hvalue, hvalues]
  refine ⟨length_valuesOf _ _, hviolations, _, rfl, rfl, fun y hy => ?_⟩
  have hgain := ht.gain_basicPoint
  cases hallows with
  | optimal _ hdual =>
    have hbest := ht.gain_le (fun d hd => not_lt.mp (hdual d hd)) hy
    rw [← hgain] at hbest
    exact hbest

end Tableau

/-- The solution after an optimal solve at the end of a session: it violates nothing beyond the
tolerance, its objective value is the objective at its values, and no feasible point is better by
more than the tolerance for each unit of a variable or of a slack. -/
theorem LinearProgram.extract_after_session {p : LinearProgram ℚ} {t : Tableau ℚ}
    (ht : p.toTableau = .ok t) {history : List (Edit ℚ)}
    (hhistory : ∀ e ∈ history, e.InSession p.variableCount) {options : SolveOptions}
    (hoptimal : ((t.afterEdits history).solve options).1.status = .optimal) :
    let extended := p.extend (t.added history)
    let tolerance := (t.afterEdits history).tolerance
    let (report, solved) := (t.afterEdits history).solve options
    let solution := solved.extract report
    solution.values.length = p.variableCount ∧
      extended.violations solution.values tolerance = [] ∧
      ∃ value, solution.objectiveValue = .attained value ∧
        value = extended.evaluate solution.values ∧
        ∀ y, extended.Feasible y →
          extended.objective.sense.sign * extended.evaluate y ≤
            extended.objective.sense.sign * value +
              tolerance * (y.sum + (extended.constraints.map (·.slack y)).sum) := by
  obtain ⟨hshaped, rfl⟩ := LinearProgram.toTableau_eq_ok ht
  have htolerance := Tableau.tolerance_nonneg_afterEdits p.usable_slackTableau.tolerance hhistory
  have hsolved := (Tableau.represents_afterEdits hshaped hhistory).solve htolerance options
  have hsame := (p.slackTableau.afterEdits history).tolerance_solve options
  have hallows := Tableau.allows_optimal_of_solve htolerance hoptimal
  have hextract := hsolved.extract_of_optimal (by rwa [hsame]) hallows hoptimal
  rw [hsame] at hextract
  exact hextract

/-- A minimum that an added equation moves. -/
theorem extract_after_equation :
    let p : LinearProgram ℚ :=
      ⟨["x", "y"], ⟨[1, 2], .minimize⟩, [⟨"demand", [1, 1], .ge, 2⟩, ⟨"limit", [1, 0], .le, 3⟩]⟩
    let t := p.slackTableau
    let history : List (Edit ℚ) :=
      [.solve {}, .addEquality none [1, -1] 1, .setTolerances (some 0) none]
    let extended := p.extend (t.added history)
    let tolerance := (t.afterEdits history).tolerance
    let (report, solved) := (t.afterEdits history).solve {}
    let solution := solved.extract report
    p.toTableau = .ok t ∧ (∀ e ∈ history, e.InSession p.variableCount) ∧
      report.status = .optimal ∧ solution.values.length = p.variableCount ∧
      extended.violations solution.values tolerance = [] ∧
      ∃ value, solution.objectiveValue = .attained value ∧
        value = extended.evaluate solution.values ∧
        ∀ y, extended.Feasible y →
          extended.objective.sense.sign * extended.evaluate y ≤
            extended.objective.sense.sign * value +
              tolerance * (y.sum + (extended.constraints.map (·.slack y)).sum) := by
  intro p t history
  have ht : p.toTableau = .ok t := by with_unfolding_all rfl
  have hhistory : ∀ e ∈ history, e.InSession p.variableCount := by
    simp [history, p, Edit.InSession, OverFirst, LinearProgram.variableCount]
  have hoptimal : ((t.afterEdits history).solve {}).1.status = .optimal := by decide +kernel
  exact ⟨ht, hhistory, hoptimal, LinearProgram.extract_after_session ht hhistory hoptimal⟩

end WarmSimplex
