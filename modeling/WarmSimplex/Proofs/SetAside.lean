import WarmSimplex.Proofs.Dictionary.Uniqueness
import WarmSimplex.Proofs.Ending
import WarmSimplex.Proofs.Phases

/-!
# Setting the objective aside

A pivot chooses its row and column, and is refused or made, without a look at the objective row. So the
objective can be set aside, pivots be made against any other row, and the objective be put back in terms
of the basis that they lead to. In exact arithmetic the tableau is then the one that the same pivots lead
to with the objective in its place, where each of them changed it: both objective rows are without the
columns of the same basis, and they agree at the points that meet the rows.

Which pivots are made is not looked at here. A solver that has another objective in view chooses others.
-/

namespace WarmSimplex

namespace Tableau

/-- The pivots succeed one after the other, each on an entry other than zero, and lead from the first
tableau to the second one. -/
inductive PivotsTo : Tableau ℚ → List (ℕ × ℕ) → Tableau ℚ → Prop
  | refl (t : Tableau ℚ) : PivotsTo t [] t
  | step {t next last : Tableau ℚ} {row column : ℕ} {rest : List (ℕ × ℕ)}
      (hmade : t.pivot row column = .ok next) (hentry : t.coefficient row column ≠ 0)
      (hrest : PivotsTo next rest last) : PivotsTo t ((row, column) :: rest) last

/-- The rows are as wide as the objective row. -/
def Rectangular (t : Tableau ℚ) : Prop := ∀ r ∈ t.rows, r.coefficients.length = t.columnCount

/-- The second tableau is the first one in terms of another basis: it has the same columns, and every
point that meets its rows meets those of the first one, with the same objective. -/
structure Rebases (t u : Tableau ℚ) : Prop where
  canonical : u.dictionary.Canonical
  columnCount : u.columnCount = t.columnCount
  holds : ∀ v, u.Holds v → t.Holds v
  gap : ∀ v, u.Holds v → u.objective.gap v = t.objective.gap v

variable {t u last reached next : Tableau ℚ} {objective : Equation ℚ} {row column : ℕ}
variable {places : List (ℕ × ℕ)}

/-- A pivot that is not refused, on an entry other than zero, comes before the others. -/
theorem PivotsTo.pivotAt (h : row < t.rowCount ∧ column < t.columnCount ∧
      t.isDegenerate (t.coefficient row column) = false ∧ t.coefficient row column ≠ 0)
    (hrest : (t.pivotAt row column).PivotsTo places last) :
    t.PivotsTo ((row, column) :: places) last :=
  .step (pivot_eq_ok_iff.mpr ⟨h.1, h.2.1, h.2.2.1, rfl⟩) h.2.2.2 hrest

/-! ## Pivots against another objective -/

/-- A pivot does the same to the rows, whatever the objective is. -/
theorem pivotAt_withObjective (t : Tableau ℚ) (objective : Equation ℚ) (row column : ℕ) :
    (t.withObjective objective).pivotAt row column = (t.pivotAt row column).withObjective
      ((t.withObjective objective).pivotAt row column).objective := by
  simp only [pivotAt, withObjective]
  split <;> rfl

/-- A pivot that is made is made against another objective of the same length as well. -/
theorem pivot_withObjective (hwidth : objective.coefficients.length = t.columnCount)
    (hmade : t.pivot row column = .ok next) :
    (t.withObjective objective).pivot row column =
      .ok ((t.withObjective objective).pivotAt row column) := by
  obtain ⟨hrow, hcolumn, hsize, -⟩ := pivot_eq_ok_iff.mp hmade
  exact pivot_eq_ok_iff.mpr ⟨hrow, hcolumn.trans_eq hwidth.symm, hsize, rfl⟩

/-- The rows of a canonical tableau are as wide as its objective row. -/
theorem rectangular_of_canonical (ht : t.dictionary.Canonical) : t.Rectangular :=
  forall_mem_dictionary_rows.mp ht.solved.width

/-- Pivots keep the width of all rows. -/
theorem Rectangular.pivotAt (ht : t.Rectangular) (row column : ℕ) :
    (t.pivotAt row column).Rectangular ∧ (t.pivotAt row column).columnCount = t.columnCount := by
  cases hr : t.rows[row]? with
  | none =>
    have hsame : t.pivotAt row column = t := by simp only [Tableau.pivotAt, hr]
    rw [hsame]
    exact ⟨ht, rfl⟩
  | some r =>
    have hsolved : (r.normalize column).coefficients.length = t.columnCount := by
      rw [Equation.length_normalize, ht r (List.mem_of_getElem? hr)]
    have hcolumns : (t.pivotAt row column).columnCount = t.columnCount := by
      simp only [Tableau.pivotAt, hr]
      exact Equation.length_eliminate column hsolved
    refine ⟨fun s hs => ?_, hcolumns⟩
    rw [hcolumns]
    simp only [Tableau.pivotAt, hr, List.mem_mapIdx] at hs
    obtain ⟨i, hi, rfl⟩ := hs
    split
    · exact hsolved
    · have hother := ht _ (List.getElem_mem hi)
      exact (Equation.length_eliminate column (hsolved.trans hother.symm)).trans hother

/-- Pivots that are made in place are made against another objective of the same length as well, and lead
to the same tableau but for the objective. -/
theorem PivotsTo.withObjective (hpivots : u.PivotsTo places last) (hu : u.Rectangular)
    {objective : Equation ℚ} (hwidth : objective.coefficients.length = u.columnCount) :
    ∃ left : Equation ℚ, (u.withObjective objective).PivotsTo places (last.withObjective left) := by
  induction hpivots generalizing objective with
  | refl u => exact ⟨objective, .refl _⟩
  | @step u next last row column rest hmade hentry _ ih =>
    have hother := pivot_withObjective hwidth hmade
    obtain ⟨-, -, -, rfl⟩ := pivot_eq_ok_iff.mp hmade
    have hrectangular : (u.withObjective objective).Rectangular :=
      fun r hr => (hu r hr).trans hwidth.symm
    have hlength := ((hrectangular.pivotAt row column).2.trans hwidth).trans
      (hu.pivotAt row column).2.symm
    obtain ⟨left, hleft⟩ := ih (hu.pivotAt row column).1 hlength
    rw [← pivotAt_withObjective] at hleft
    exact ⟨left, .step hother hentry hleft⟩

/-! ## Another basis -/

/-- A canonical tableau is itself in terms of its basis. -/
theorem Rebases.refl (ht : t.dictionary.Canonical) : t.Rebases t :=
  ⟨ht, rfl, fun _ hv => hv, fun _ _ => rfl⟩

/-- The row of an entry other than zero. -/
theorem exists_row_of_coefficient_ne_zero (hentry : t.coefficient row column ≠ 0) :
    ∃ r, t.rows[row]? = some r ∧ r.coefficient column ≠ 0 := by
  rw [coefficient] at hentry
  split at hentry
  · rename_i r hr
    exact ⟨r, hr, hentry⟩
  · exact absurd rfl hentry

/-- A pivot on an entry other than zero goes to another basis. -/
theorem Rebases.pivotAt (h : t.Rebases u) (hentry : u.coefficient row column ≠ 0) :
    t.Rebases (u.pivotAt row column) := by
  obtain ⟨r, hr, hpivot⟩ := exists_row_of_coefficient_ne_zero hentry
  have hrow := getElem?_dictionary_rows hr
  have hsolved := h.canonical.solved
  have hdictionary := dictionary_pivotAt hsolved hr hpivot
  have hholds : ∀ v, (u.pivotAt row column).Holds v → u.Holds v := by
    intro v hv
    rw [← holds_dictionary, hdictionary, Dictionary.holds_pivot hsolved hrow hpivot] at hv
    exact holds_dictionary.mp hv
  refine ⟨hdictionary ▸ Dictionary.canonical_pivot h.canonical hrow hpivot,
    ((rectangular_of_canonical h.canonical).pivotAt row column).2.trans h.columnCount,
    fun v hv => h.holds v (hholds v hv), fun v hv => ?_⟩
  have hgap := Dictionary.gap_pivot hsolved row column (holds_dictionary.mpr (hholds v hv))
  rw [← hdictionary] at hgap
  exact hgap.trans (h.gap v (hholds v hv))

/-- Pivots on entries other than zero go to another basis. -/
theorem PivotsTo.rebases (hpivots : u.PivotsTo places last) (h : t.Rebases u) : t.Rebases last := by
  induction hpivots with
  | refl u => exact h
  | step hmade hentry _ ih =>
    obtain ⟨-, -, -, rfl⟩ := pivot_eq_ok_iff.mp hmade
    exact ih (h.pivotAt hentry)

/-- The objective of a tableau, put back in terms of another basis, is its objective in that basis. Both
are without the basic columns, and they agree where the rows hold. -/
theorem Rebases.putBack_eq (h : t.Rebases u) : t.putBack u = u := by
  have hwidth : t.objective.coefficients.length = u.dictionary.columns := h.columnCount.symm
  have hsolved : SolvedRows (u.withObjective t.objective).columnCount
      (u.withObjective t.objective).dictionary.rows := by
    change SolvedRows t.objective.coefficients.length u.dictionary.rows
    rw [hwidth]
    exact h.canonical.solved
  have hcleared : (t.putBack u).objective = clearBasis t.objective u.dictionary.rows :=
    congrArg Dictionary.objective (dictionary_reprice hsolved)
  have hsame : clearBasis t.objective u.dictionary.rows = u.dictionary.objective := by
    refine h.canonical.equation_eq rfl (length_clearBasis hwidth h.canonical.solved.width)
      (fun r hr => ?_) fun v hv => ?_
    · rw [h.canonical.priced r hr, coefficient_clearBasis hwidth h.canonical.solved hr]
    · rw [gap_clearBasis hwidth h.canonical.solved.width hv]
      exact (h.gap v (holds_dictionary.mp hv)).symm
  change u.withObjective (t.putBack u).objective = u
  rw [hcleared, hsame]
  rfl

/-! ## Nothing is lost -/

/-- What is put back does not depend on the objective that was pivoted against. -/
theorem putBack_of_withObjective (t u : Tableau ℚ) (objective : Equation ℚ) :
    t.putBack (u.withObjective objective) = t.putBack u := rfl

/-- Pivots that are made in place lead to the tableau that the objective is put back in, if another one
stands there while they are made. -/
theorem PivotsTo.exists_putBack_eq (hpivots : t.PivotsTo places last) (ht : t.dictionary.Canonical)
    (hwidth : objective.coefficients.length = t.columnCount) :
    ∃ reached, (t.withObjective objective).PivotsTo places reached ∧ t.putBack reached = last := by
  obtain ⟨left, hleft⟩ := hpivots.withObjective (rectangular_of_canonical ht) hwidth
  refine ⟨_, hleft, ?_⟩
  rw [putBack_of_withObjective]
  exact (hpivots.rebases (.refl ht)).putBack_eq

/-- Pivots that are made against another objective are made in place as well, and lead to the tableau
that the objective is put back in. -/
theorem PivotsTo.putBack (hpivots : (t.withObjective objective).PivotsTo places reached)
    (ht : t.dictionary.Canonical) (hwidth : objective.coefficients.length = t.columnCount) :
    t.PivotsTo places (t.putBack reached) := by
  have hrectangular : (t.withObjective objective).Rectangular :=
    fun r hr => (rectangular_of_canonical ht r hr).trans hwidth.symm
  have hback : t.objective.coefficients.length = (t.withObjective objective).columnCount := hwidth.symm
  -- the same pivots, with the objective in its place again
  obtain ⟨left, hleft⟩ := hpivots.withObjective hrectangular hback
  have hinplace : t.PivotsTo places (reached.withObjective left) := hleft
  rw [← putBack_of_withObjective t reached left, (hinplace.rebases (.refl ht)).putBack_eq]
  exact hinplace

/-- Pivots lead to a tableau in place exactly if the same pivots, made while another objective of the
same length stands there, lead to it once the objective is put back. -/
theorem pivotsTo_iff_putBack (ht : t.dictionary.Canonical)
    (hwidth : objective.coefficients.length = t.columnCount) (places : List (ℕ × ℕ))
    (last : Tableau ℚ) :
    t.PivotsTo places last ↔
      ∃ reached, (t.withObjective objective).PivotsTo places reached ∧ t.putBack reached = last := by
  constructor
  · exact fun hpivots => hpivots.exists_putBack_eq ht hwidth
  · rintro ⟨reached, hreached, rfl⟩
    exact hreached.putBack ht hwidth

/-- A column that enters, leaves and enters again, while an objective with a reduced cost in it stands
there. -/
theorem putBack_after_reentry :
    let t := (LinearProgram.ofMatrix [[1, 1], [1, 3]] [4, 6] [3, 2]).slackTableau
    let objective : Equation ℚ := ⟨[5, 0, -1, 2], 7⟩
    let places := [(0, 0), (1, 1), (0, 2), (0, 0)]
    ∃ last, t.dictionary.Canonical ∧ objective.coefficients.length = t.columnCount ∧
      t.PivotsTo places last ∧
        ∃ reached, (t.withObjective objective).PivotsTo places reached ∧ t.putBack reached = last := by
  intro t objective places
  have hcanonical : t.dictionary.Canonical :=
    ⟨⟨by decide +kernel, by decide +kernel, by decide +kernel, by decide +kernel⟩, by decide +kernel⟩
  have hwidth : objective.coefficients.length = t.columnCount := by decide +kernel
  have hpivots : t.PivotsTo places ((((t.pivotAt 0 0).pivotAt 1 1).pivotAt 0 2).pivotAt 0 0) := by
    refine .pivotAt ?_ (.pivotAt ?_ (.pivotAt ?_ (.pivotAt ?_ (.refl _)))) <;> decide +kernel
  exact ⟨_, hcanonical, hwidth, hpivots, (pivotsTo_iff_putBack hcanonical hwidth places _).mp hpivots⟩

/-! ## A solve as a sequence of pivots -/

/-- Pivots come one sequence after the other. -/
theorem PivotsTo.append {others : List (ℕ × ℕ)} (hpivots : t.PivotsTo places u)
    (hothers : u.PivotsTo others last) : t.PivotsTo (places ++ others) last := by
  induction hpivots with
  | refl t => exact hothers
  | step hmade hentry _ ih => exact .step hmade hentry (ih hothers)

/-- Pivots keep the decision variables, the sense and the tolerances. -/
theorem PivotsTo.settings (hpivots : t.PivotsTo places last) : last.settings = t.settings := by
  induction hpivots with
  | refl t => rfl
  | step hmade _ _ ih =>
    obtain ⟨-, -, -, rfl⟩ := pivot_eq_ok_iff.mp hmade
    rw [ih, settings_pivotAt]

/-- With a tolerance the loop makes pivots on entries other than zero. -/
theorem Reaches.pivotsTo {rule : EnteringRule} {made : List Pivot} (h : Reaches rule t made last)
    (ht : t.Rectangular) (htolerance : 0 ≤ t.tolerance) :
    t.PivotsTo (made.map fun p => (p.row, p.column)) last := by
  induction h with
  | refl t => exact .refl t
  | @step t next last made rest hstep _ ih =>
    obtain ⟨columns, hmove, hfirst⟩ := hstep
    obtain ⟨hmem, hmade⟩ := pivotFirst_eq_some (Prod.ext rfl hfirst)
    obtain ⟨r, hr, hpivot⟩ :=
      Allows.coefficient_ne_zero (hmove ▸ allows_nextMove t rule) htolerance ht hmem
    have hentry : t.coefficient made.row made.column ≠ 0 := by rwa [coefficient, hr]
    refine .step hmade hentry ?_
    obtain ⟨-, -, -, rfl⟩ := pivot_eq_ok_iff.mp hmade
    refine ih (ht.pivotAt _ _).1 ?_
    rwa [(settings_eq_iff.mp (settings_pivotAt t _ _)).2.2.1]

end Tableau

/-- The loop leads on by the pivots that it notes. -/
theorem Progress.Ends.pivotsTo {p final : Progress ℚ} {rule : EnteringRule}
    {deadline : Deadline} {limit : ℕ} {verdict : Verdict ℚ}
    (h : p.Ends rule deadline limit final verdict) (hlimit : p.pivots.size ≤ limit)
    (hp : p.tableau.Rectangular) (htolerance : 0 ≤ p.tableau.tolerance) :
    ∃ made : List Pivot, final.pivots.toList = p.pivots.toList ++ made ∧
      p.tableau.PivotsTo (made.map fun p => (p.row, p.column)) final.tableau := by
  obtain ⟨made, hpivots, hreaches⟩ := p.reaches_iterate rule deadline (limit - p.pivots.size)
  rw [h.iterate_eq (Nat.add_sub_cancel' hlimit)] at hpivots hreaches
  exact ⟨made, hpivots, hreaches.pivotsTo hp htolerance⟩

namespace Tableau

variable {t : Tableau ℚ}

/-- A solve leads to the tableau that its pivots lead to in place, whether or not it set the objective
aside for some of them. -/
theorem pivotsTo_solve (ht : t.dictionary.Canonical) (htolerance : 0 ≤ t.tolerance)
    (options : SolveOptions) :
    t.PivotsTo ((t.solve options).1.pivots.map fun p => (p.row, p.column)) (t.solve options).2 := by
  have hrectangular := rectangular_of_canonical ht
  have hwidth : (Equation.zero t.columnCount : Equation ℚ).coefficients.length = t.columnCount :=
    Equation.length_zero _
  have hidle : (t.withObjective (Equation.zero t.columnCount)).Rectangular :=
    fun r hr => (hrectangular r hr).trans hwidth.symm
  obtain ⟨last, verdict, hends⟩ := t.exists_solveEnds options
  rw [hends.pivots_eq, hends.solve_eq]
  cases hends with
  | direct _ hloop =>
    obtain ⟨made, hmade, hpivots⟩ := hloop.pivotsTo (Nat.zero_le _) hrectangular htolerance
    rw [hmade]
    exact hpivots
  | @stopped last _ _ _ hphase _ =>
    obtain ⟨made, hmade, hpivots⟩ := hphase.pivotsTo (Nat.zero_le _) hidle htolerance
    change t.PivotsTo (last.pivots.toList.map _) (t.putBack last.tableau)
    rw [hmade]
    exact PivotsTo.putBack hpivots ht hwidth
  | @resumed middle _ _ _ _ hphase hloop =>
    obtain ⟨before, hbefore, hpivots⟩ := hphase.pivotsTo (Nat.zero_le _) hidle htolerance
    have hfirst : t.PivotsTo _ (t.putBack middle.tableau) := PivotsTo.putBack hpivots ht hwidth
    have htolerance' : 0 ≤ (t.putBack middle.tableau).tolerance := by
      rwa [(settings_eq_iff.mp hfirst.settings).2.2.1]
    obtain ⟨after, hafter, hpivots⟩ := hloop.pivotsTo (hphase.size_le (Nat.zero_le _))
      (rectangular_of_canonical (hfirst.rebases (.refl ht)).canonical) htolerance'
    have hall : last.pivots.toList = before ++ after := by
      rw [hafter]
      exact congrArg (· ++ after) hbefore
    rw [hall, List.map_append]
    exact hfirst.append hpivots

end Tableau

end WarmSimplex
