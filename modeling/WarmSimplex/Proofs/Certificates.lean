import WarmSimplex.Proofs.History

/-!
# Certificates of infeasibility

A solve that reports infeasibility shows a row of the tableau that it leaves. Its right-hand side is
below zero while none of its coefficients is, both by the tolerance, and it follows from the
constraints as they were given, whichever phase of the solve found it. A point that meets the
constraints without negative entries is therefore large, and without a tolerance there is none.

With a tolerance the program may still be feasible. How large the row is compared to the constraints
is not looked at here.
-/

namespace WarmSimplex

/-- The row that a certificate shows. -/
def Certificate.equation (c : Certificate ℚ) : Equation ℚ := ⟨c.coefficients, c.rhs⟩

/-- Only a verdict with a certificate is reported as infeasibility. -/
theorem Verdict.eq_infeasible {verdict : Verdict ℚ} (h : verdict.status = .infeasible) :
    ∃ c, verdict = .infeasible c := by
  cases verdict with
  | infeasible c => exact ⟨c, rfl⟩
  | optimal => cases h
  | unbounded => cases h
  | iterationLimit => cases h
  | timeLimit => cases h

namespace Tableau

/-- The certificate is a row of the tableau that no point without negative entries can meet, up to the
tolerance. -/
structure Certifies (t : Tableau ℚ) (c : Certificate ℚ) : Prop where
  basicColumn : t.basis[c.row]? = some c.basicColumn
  coefficients : t.row? c.row = some c.coefficients
  rhs : t.rhs? c.row = some c.rhs
  below : c.rhs < -t.tolerance
  nonneg : ∀ a ∈ c.coefficients, -t.tolerance ≤ a

variable {t : Tableau ℚ} {c : Certificate ℚ} {v : ℕ → ℚ}

/-- The certificate of a row shows its entries. -/
theorem certificate_eq {row : ℕ} {r : Row ℚ} (hr : t.rows[row]? = some r) :
    t.certificate row = ⟨row, r.basic, r.coefficients, r.rhs⟩ := by
  have hbasis : t.basis.getD row 0 = r.basic := by
    rw [List.getD_eq_getElem?_getD, basis, List.getElem?_map, hr]
    rfl
  rw [certificate, hbasis, row?, rhs?, hr]
  rfl

/-- A verdict of infeasibility that the signs allow comes with a certificate. -/
theorem Allows.certifies (h : t.Allows (.stop (.infeasible c))) : t.Certifies c := by
  cases h with
  | infeasible hr hrhs hcoefficients =>
    rw [certificate_eq hr]
    refine ⟨?_, by rw [row?, hr]; rfl, by rw [rhs?, hr]; rfl, hrhs,
      fun a ha => not_lt.mp (hcoefficients a ha)⟩
    rw [basis, List.getElem?_map, hr]
    rfl

/-- A solve that reports infeasibility has a certificate for the tableau that it leaves. -/
theorem exists_certificate (htolerance : 0 ≤ t.tolerance) {options : SolveOptions}
    (hinfeasible : (t.solve options).1.status = .infeasible) :
    ∃ c, (t.solve options).1.certificate = some c ∧ (t.solve options).2.Certifies c := by
  obtain ⟨c, hverdict⟩ : ∃ c, (t.run options).2 = .infeasible c := Verdict.eq_infeasible hinfeasible
  refine ⟨c, congrArg Verdict.certificate? hverdict, ?_⟩
  rcases allows_run htolerance options with hlimit | hlimit | hallows
  · cases hverdict.symm.trans hlimit
  · cases hverdict.symm.trans hlimit
  · exact Allows.certifies (hverdict ▸ hallows)

namespace Certifies

/-- The row of a certificate is one of the tableau. -/
theorem exists_row (h : t.Certifies c) : ∃ r ∈ t.rows, r.toEquation = c.equation := by
  obtain ⟨r, hr, hcoefficients⟩ := Option.map_eq_some_iff.mp h.coefficients
  obtain ⟨s, hs, hrhs⟩ := Option.map_eq_some_iff.mp h.rhs
  cases hr.symm.trans hs
  refine ⟨r, List.mem_of_getElem? hr, ?_⟩
  rw [Certificate.equation, ← hcoefficients, ← hrhs]

/-- A solution of the rows meets the row of a certificate. -/
theorem holds (h : t.Certifies c) (hv : t.Holds v) : c.equation.Holds v := by
  obtain ⟨r, hr, hequation⟩ := h.exists_row
  exact hequation ▸ hv r hr

/-- A solution of the rows without negative entries is so large that the tolerance makes up for the
row of a certificate. -/
theorem neg_rhs_le (h : t.Certifies c) (ht : SolvedRows t.columnCount t.dictionary.rows)
    (hv : t.Holds v) (hnonneg : ∀ j < t.columnCount, 0 ≤ v j) :
    -c.rhs ≤ t.tolerance * ∑ j ∈ Finset.range t.columnCount, v j := by
  obtain ⟨r, hr, hequation⟩ := h.exists_row
  have hwidth : c.equation.coefficients.length = t.columnCount := by
    rw [← hequation]
    exact forall_mem_dictionary_rows.mp ht.width r hr
  have hlower := Equation.mul_sum_le_eval h.nonneg (hwidth.symm ▸ hnonneg)
  have hholds : c.equation.eval v = c.rhs := h.holds hv
  rw [hwidth, hholds] at hlower
  linarith

/-- Without a tolerance, every solution of the rows has a negative entry. -/
theorem exists_neg (h : t.Certifies c) (ht : SolvedRows t.columnCount t.dictionary.rows)
    (hexact : t.tolerance = 0) (hv : t.Holds v) : ∃ j < t.columnCount, v j < 0 := by
  by_contra hnone
  push Not at hnone
  have hlarge := h.neg_rhs_le ht hv hnone
  have hbelow := h.below
  rw [hexact, zero_mul] at hlarge
  rw [hexact, neg_zero] at hbelow
  linarith

end Certifies

end Tableau

/-- The certificate of a solve that reports infeasibility, after a history that takes care not to
pivot on a zero. It is a row of the tableau that the solve leaves, its equation follows from the
constraints as they were given, and a point of the constraints without negative entries outweighs the
right-hand side by the tolerance for each unit of a column. -/
theorem Origin.certificate_of_infeasible {o : Origin} {t : Tableau ℚ} (ht : o.tableau = .ok t)
    {history : List (Edit ℚ)} (hhistory : ∀ e ∈ history, e.SetsNonneg)
    (hpivots : t.PivotsOffZero history) {options : SolveOptions}
    (hinfeasible : ((t.afterEdits history).solve options).1.status = .infeasible) :
    let report := ((t.afterEdits history).solve options).1
    let solved := ((t.afterEdits history).solve options).2
    let given := storedForms (o.start.constraints ++ t.added history)
    let tolerance := (t.afterEdits history).tolerance
    solved.tolerance = tolerance ∧
      ∃ c, report.certificate = some c ∧ solved.Certifies c ∧
        ∀ v, SlackForm o.start.variableCount given v →
          c.equation.Holds v ∧
            ((∀ j < solved.columnCount, 0 ≤ v j) →
              tolerance < -c.rhs ∧
                -c.rhs ≤ tolerance * ∑ j ∈ Finset.range solved.columnCount, v j) ∧
            (tolerance = 0 → ∃ j < solved.columnCount, v j < 0) := by
  intro report solved given tolerance
  obtain ⟨hencodes, htolerance⟩ := Origin.encodes_of_pivotsOffZero ht hhistory hpivots
  have hsame : solved.tolerance = tolerance := (t.afterEdits history).tolerance_solve options
  have hsolved : solved.Encodes o.start.costs given := hencodes.run htolerance options
  have hstructural : solved.structuralCount = o.start.variableCount := by
    obtain ⟨hshaped, rfl⟩ := Origin.tableau_eq_ok ht
    rw [← LinearProgram.structuralCount_afterEdits hshaped history]
    exact congrArg List.length (Tableau.settings_eq_iff.mp (Tableau.settings_run _ options)).1
  obtain ⟨c, hreport, hcertifies⟩ := Tableau.exists_certificate htolerance hinfeasible
  refine ⟨hsame, c, hreport, hcertifies, fun v hv => ?_⟩
  have hholds : solved.Holds v := (hsolved.holds_iff v).mpr (hstructural.symm ▸ hv)
  refine ⟨hcertifies.holds hholds, fun hnonneg => ?_, fun hexact =>
    hcertifies.exists_neg hsolved.canonical.solved (hsame.trans hexact) hholds⟩
  have hbelow := hcertifies.below
  have hlarge := hcertifies.neg_rhs_le hsolved.canonical.solved hholds hnonneg
  rw [hsame] at hbelow hlarge
  exact ⟨lt_neg_of_lt_neg hbelow, hlarge⟩

/-- A certificate that the feasibility phase finds, after a pivot on a negative entry and a cut. -/
theorem certificate_after_pivot_and_cut :
    let o : Origin := .program
      ⟨["x", "y"], ⟨[1, 1], .maximize⟩, [⟨"floor", [1, 0], .ge, 3⟩, ⟨"limit", [1, 0], .le, 1⟩]⟩
    let t := o.start.slackTableau
    let history : List (Edit ℚ) :=
      [.setTolerances (some 0) (some 0), .pivot 0 0, .addConstraint none [0, 1] .ge 4]
    let options : SolveOptions := { rule := .bland }
    o.tableau = .ok t ∧ (∀ e ∈ history, e.SetsNonneg) ∧ t.PivotsOffZero history ∧
      (t.afterEdits history).isDualFeasible = false ∧
      ((t.afterEdits history).solve options).1.status = .infeasible ∧
      let report := ((t.afterEdits history).solve options).1
      let solved := ((t.afterEdits history).solve options).2
      let given := storedForms (o.start.constraints ++ t.added history)
      let tolerance := (t.afterEdits history).tolerance
      solved.tolerance = tolerance ∧
        ∃ c, report.certificate = some c ∧ solved.Certifies c ∧
          ∀ v, SlackForm o.start.variableCount given v →
            c.equation.Holds v ∧
              ((∀ j < solved.columnCount, 0 ≤ v j) →
                tolerance < -c.rhs ∧
                  -c.rhs ≤ tolerance * ∑ j ∈ Finset.range solved.columnCount, v j) ∧
              (tolerance = 0 → ∃ j < solved.columnCount, v j < 0) := by
  intro o t history options
  have ht : o.tableau = .ok t := by with_unfolding_all rfl
  have hhistory : ∀ e ∈ history, e.SetsNonneg := by simp [history, Edit.SetsNonneg]
  have hpivots : t.PivotsOffZero history := by
    have hentry : (t.afterEdit (.setTolerances (some 0) (some 0))).coefficient 0 0 ≠ 0 := by
      decide +kernel
    exact ⟨trivial, fun _ _ => hentry, trivial, trivial⟩
  have hinfeasible : ((t.afterEdits history).solve options).1.status = .infeasible := by
    decide +kernel
  have hdual : (t.afterEdits history).isDualFeasible = false := by decide +kernel
  exact ⟨ht, hhistory, hpivots, hdual, hinfeasible,
    Origin.certificate_of_infeasible ht hhistory hpivots hinfeasible⟩

end WarmSimplex
