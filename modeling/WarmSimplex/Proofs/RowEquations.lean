import WarmSimplex.Proofs.History

/-!
# Rows and constraints have the same solutions

After any history, a vector solves the rows of the tableau if and only if it solves the constraints
as they were given, each with its own slack. For such a vector the objective row gives the
objective: its value, less the reduced costs of the vector.

This is read off the accessors of the tableau. It does not say whether the basis is feasible.
-/

namespace WarmSimplex

namespace Tableau

/-- The vector solves every row: the products with its coefficients add up to its right-hand side. -/
def Solves (t : Tableau ℚ) (v : ℕ → ℚ) : Prop :=
  ∀ i b, t.rhs? i = some b → ∑ j ∈ Finset.range t.columnCount, t.coefficient i j * v j = b

/-- The accessors show the rows. -/
theorem solves_iff_holds {t : Tableau ℚ} (hwidth : ∀ r ∈ t.rows, r.coefficients.length = t.columnCount)
    (v : ℕ → ℚ) : t.Solves v ↔ t.Holds v := by
  have hrow : ∀ i r, t.rows[i]? = some r →
      ∑ j ∈ Finset.range t.columnCount, t.coefficient i j * v j = r.eval v := by
    intro i r hr
    rw [Equation.eval, hwidth r (List.mem_of_getElem? hr)]
    apply Finset.sum_congr rfl
    intro j _
    rw [coefficient, hr]
  constructor
  · intro hsolves r hr
    obtain ⟨i, hi⟩ := List.mem_iff_getElem?.mp hr
    rw [Equation.Holds, ← hrow i r hi]
    exact hsolves i r.rhs (by rw [rhs?, hi]; rfl)
  · intro hholds i b hb
    obtain ⟨r, hr, rfl⟩ := Option.map_eq_some_iff.mp hb
    rw [hrow i r hr]
    exact hholds r (List.mem_of_getElem? hr)

end Tableau

/-- The tolerances that an edit sets are usable. -/
def Edit.SetsUsable : Edit ℚ → Prop
  | .setTolerances tolerance pivotTolerance =>
    (∀ value ∈ tolerance, 0 ≤ value) ∧ ∀ value ∈ pivotTolerance, 0 < value
  | _ => True

/-- Settings stay usable. -/
theorem Tableau.Settings.Usable.after {s : Tableau.Settings ℚ} (hs : s.Usable) {e : Edit ℚ}
    (he : e.SetsUsable) : (s.after e).Usable := by
  refine after_of_setTolerances hs ?_
  rintro tolerance pivotTolerance rfl
  exact ⟨getD_of_forall he.1 hs.tolerance, getD_of_forall he.2 hs.pivotTolerance⟩

/-- After any history whose tolerances are usable, a vector solves the rows of the tableau exactly
if it solves the equations as they were given, and then the objective row gives its objective. -/
theorem Origin.solves_iff_and_cost_afterEdits {o : Origin} {t : Tableau ℚ} (ht : o.tableau = .ok t)
    {history : List (Edit ℚ)} (hhistory : ∀ e ∈ history, e.SetsUsable) (v : ℕ → ℚ) :
    ((t.afterEdits history).Solves v ↔
        SlackForm o.start.variableCount
          (storedForms (o.start.constraints ++ t.added history)) v) ∧
      ((t.afterEdits history).Solves v →
        costAt o.start.costs v = (t.afterEdits history).objectiveValue -
          ∑ j ∈ Finset.range (t.afterEdits history).columnCount,
            (t.afterEdits history).reducedCost j * v j) := by
  obtain ⟨hshaped, rfl⟩ := Origin.tableau_eq_ok ht
  have hencodes := LinearProgram.encodes_afterEdits hshaped (P := Tableau.Settings.Usable)
    (fun s e he hs => hs.after (hhistory e he)) (fun s hs => hs.tolerance)
    (fun s _ _ hs _ => hs.pivotTolerance) o.start.usable_slackTableau
  have hwidth := Tableau.forall_mem_dictionary_rows.mp hencodes.canonical.solved.width
  constructor
  · rw [Tableau.solves_iff_holds hwidth, hencodes.holds_iff,
      LinearProgram.structuralCount_afterEdits hshaped]
  · intro hv
    rw [← hencodes.gap v ((Tableau.solves_iff_holds hwidth v).mp hv)]
    rfl

/-- Two solves with a cut and a change of the tolerance between them. -/
theorem solves_iff_and_cost_after_cut :
    let o : Origin := .matrix [[1, 1], [1, 3]] [4, 6] [3, 2]
    let history : List (Edit ℚ) :=
      [.solve {}, .addConstraint none [1] .le 3, .setTolerances (some 0) none, .solve {}]
    let v : ℕ → ℚ := fun j => [3, 1, 0, 0, 0].getD j 0
    ∃ t, o.tableau = .ok t ∧ (∀ e ∈ history, e.SetsUsable) ∧
      ((t.afterEdits history).Solves v ↔
        SlackForm o.start.variableCount
          (storedForms (o.start.constraints ++ t.added history)) v) ∧
      ((t.afterEdits history).Solves v →
        costAt o.start.costs v = (t.afterEdits history).objectiveValue -
          ∑ j ∈ Finset.range (t.afterEdits history).columnCount,
            (t.afterEdits history).reducedCost j * v j) := by
  intro o history v
  obtain ⟨t, ht⟩ : ∃ t, o.tableau = .ok t := ⟨_, rfl⟩
  have hhistory : ∀ e ∈ history, e.SetsUsable := by simp [history, Edit.SetsUsable]
  exact ⟨t, ht, hhistory, Origin.solves_iff_and_cost_afterEdits ht hhistory v⟩

end WarmSimplex
