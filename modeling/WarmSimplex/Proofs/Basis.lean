import WarmSimplex.Proofs.Optimality
import WarmSimplex.Proofs.RowEquations

/-!
# The basis of a tableau

After any history the basic columns are different columns, together an identity matrix, and without
reduced costs. Everything that reads the basis follows from this: the check of the basis succeeds, a
solution has the values of the tableau, and no column has both a reduced cost and a value.

Which columns are basic is not looked at here, nor whether their values are feasible.
-/

namespace WarmSimplex

namespace Tableau

/-- The basic columns are different, the columns of an identity matrix, and without reduced costs. -/
structure IdentityBasis (t : Tableau ℚ) : Prop where
  nodup : t.basis.Nodup
  inside : ∀ column ∈ t.basis, column < t.columnCount
  unit : ∀ i column, t.basis[i]? = some column →
    ∀ k < t.rowCount, t.coefficient k column = if k = i then 1 else 0
  priced : ∀ column ∈ t.basis, t.reducedCost column = 0

/-- The solution was read off the tableau: after a report of an optimum, or because the tableau is
optimal as it stands. -/
def GivesSolution (t : Tableau ℚ) (s : Solution ℚ) : Prop :=
  (∃ report, report.status = .optimal ∧ t.extract report = s) ∨ t.solution = .ok s

/-- The solution gives each column and each variable the value that it has in the tableau. -/
structure ValuesAgree (t : Tableau ℚ) (s : Solution ℚ) : Prop where
  value : ∀ column, s.value column = t.value column
  values : s.values = (List.range t.structuralCount).map t.value

variable {t : Tableau ℚ}

/-- The basis of a canonical tableau is an identity matrix without reduced costs. -/
theorem identityBasis (ht : t.dictionary.Canonical) : t.IdentityBasis where
  nodup := basis_dictionary t ▸ ht.solved.nodup
  inside := List.forall_mem_map.mpr (forall_mem_dictionary_rows.mp fun _ hr => ht.solved.inside hr)
  unit i column hcolumn k hk := by
    rw [basis, List.getElem?_map, Option.map_eq_some_iff] at hcolumn
    obtain ⟨s, hs, rfl⟩ := hcolumn
    obtain ⟨r, hr⟩ : ∃ r, t.rows[k]? = some r := ⟨_, List.getElem?_eq_getElem hk⟩
    have hr' := getElem?_dictionary_rows hr
    have hs' := getElem?_dictionary_rows hs
    have hentry : t.coefficient k s.basic = r.coefficient s.basic := by rw [coefficient, hr]
    rw [hentry]
    rcases eq_or_ne k i with rfl | hki
    · cases hr.symm.trans hs
      rw [if_pos rfl]
      exact ht.solved.own _ (List.mem_of_getElem? hr')
    · rw [if_neg hki]
      exact ht.solved.other _ (List.mem_of_getElem? hr') _ (List.mem_of_getElem? hs')
        (ht.solved.basic_ne hr' hs' hki)
  priced := List.forall_mem_map.mpr (forall_mem_dictionary_rows.mp ht.priced)

/-- A solution that was read off a tableau lists its basic columns. -/
theorem GivesSolution.exists_iterations {s : Solution ℚ} (h : t.GivesSolution s) :
    ∃ iterations, t.readSolution iterations = s := by
  rcases h with ⟨report, hreport, rfl⟩ | h
  · exact ⟨report.iterations, by rw [extract, if_pos hreport]⟩
  · rw [solution] at h
    split at h
    · cases h
      exact ⟨0, rfl⟩
    · cases h

namespace IdentityBasis

/-- The check of the basis finds no fault, however small the tolerance is. -/
theorem verifyBasis (ht : t.IdentityBasis) (htolerance : 0 ≤ t.tolerance) : t.verifyBasis = true := by
  rw [Tableau.verifyBasis, Bool.and_eq_true, decide_eq_true_iff, List.all_eq_true]
  refine ⟨ht.nodup, ?_⟩
  rintro ⟨column, row⟩ hmem
  have hcolumn := List.mem_zipIdx_iff_getElem?.mp hmem
  have hbasic := List.mem_of_getElem? hcolumn
  have hunit : t.isUnitColumn row column = true := by
    rw [isUnitColumn, List.all_eq_true]
    rintro ⟨r, k⟩ hr
    have hr := List.mem_zipIdx_iff_getElem?.mp hr
    have hentry := ht.unit row column hcolumn k (List.getElem?_eq_some_iff.mp hr).1
    rw [coefficient, hr] at hentry
    simpa [hentry, Scalar.abs_rat] using htolerance
  simpa [hunit, ht.inside column hbasic, ht.priced column hbasic, Scalar.abs_rat] using htolerance

/-- A solution has the values of the tableau that it was read off. -/
theorem valuesAgree (ht : t.IdentityBasis) {s : Solution ℚ} (hs : t.GivesSolution s) :
    t.ValuesAgree s := by
  obtain ⟨iterations, rfl⟩ := hs.exists_iterations
  exact ⟨lookup_basicValues ht.nodup ht.inside,
    List.map_congr_left fun column _ => lookup_basicValues ht.nodup ht.inside column⟩

/-- A column with a value has no reduced cost. -/
theorem reducedCost_mul_value (ht : t.IdentityBasis) (column : ℕ) :
    t.reducedCost column * t.value column = 0 := by
  rw [value]
  split
  · rename_i r hfind
    have hbasic : r.basic = column := by simpa using List.find?_some hfind
    have hmem : column ∈ t.basis :=
      List.mem_map.mpr ⟨r, List.mem_of_find?_eq_some hfind, hbasic⟩
    rw [ht.priced column hmem, zero_mul]
  · exact mul_zero _

end IdentityBasis

end Tableau

/-- After any history whose tolerances are usable, the basic columns form an identity matrix and have
no reduced costs. The check of the basis says so, solutions have the values of the tableau, and no
column has both a reduced cost and a value. -/
theorem Origin.identityBasis_afterEdits {o : Origin} {t : Tableau ℚ} (ht : o.tableau = .ok t)
    {history : List (Edit ℚ)} (hhistory : ∀ e ∈ history, e.SetsUsable) :
    let reached := t.afterEdits history
    reached.IdentityBasis ∧ reached.verifyBasis = true ∧
      (∀ s, reached.GivesSolution s → reached.ValuesAgree s) ∧
      ∀ column, reached.reducedCost column * reached.value column = 0 := by
  obtain ⟨hshaped, rfl⟩ := Origin.tableau_eq_ok ht
  intro reached
  have hafter : ∀ (s : Tableau.Settings ℚ), ∀ e ∈ history, s.Usable → (s.after e).Usable :=
    fun s e he hs => hs.after (hhistory e he)
  have hencodes := LinearProgram.encodes_afterEdits hshaped hafter (fun s hs => hs.tolerance)
    (fun s _ _ hs _ => hs.pivotTolerance) o.start.usable_slackTableau
  have hbasis : reached.IdentityBasis := Tableau.identityBasis hencodes.canonical
  have htolerance : 0 ≤ reached.tolerance :=
    (Tableau.settings_afterEdits hafter o.start.usable_slackTableau).tolerance
  exact ⟨hbasis, hbasis.verifyBasis htolerance, fun s hs => hbasis.valuesAgree hs,
    hbasis.reducedCost_mul_value⟩

/-- A refused pivot, one on a basic column, other tolerances, and an equation that cannot be met. -/
theorem identityBasis_after_infeasible_solve :
    let o : Origin := .matrix [[1, 1], [1, 3]] [4, 6] [3, 2]
    let history : List (Edit ℚ) :=
      [.pivot 0 9, .pivot 1 3, .solve {}, .setTolerances (some 0) (some (1 / 2)),
        .addEquality none [1] 5, .solve {}]
    ∃ t, o.tableau = .ok t ∧ (∀ e ∈ history, e.SetsUsable) ∧
      let reached := t.afterEdits history
      reached.IdentityBasis ∧ reached.verifyBasis = true ∧
        (∀ s, reached.GivesSolution s → reached.ValuesAgree s) ∧
        ∀ column, reached.reducedCost column * reached.value column = 0 := by
  intro o history
  obtain ⟨t, ht⟩ : ∃ t, o.tableau = .ok t := ⟨_, rfl⟩
  have hhistory : ∀ e ∈ history, e.SetsUsable := by simp [history, Edit.SetsUsable]
  exact ⟨t, ht, hhistory, Origin.identityBasis_afterEdits ht hhistory⟩

end WarmSimplex
