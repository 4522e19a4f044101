import WarmSimplex.Proofs.Basis

/-!
# Prices

The price of a constraint is the reduced cost of its slack. A tableau that represents a program has the
other reduced costs and the objective value in terms of these prices: they are what the prices say
about the coefficients and about the right-hand sides of the `≤` forms. At an optimum the prices that
are reported add the right-hand sides up to the objective, in the program's own sense.

Prices are not unique, and nothing here says how the objective changes if a right-hand side does.
-/

namespace WarmSimplex

namespace Scalar

/-- The dot product with a list of zeros is zero. -/
theorem dot_replicate_zero (coefficients : List ℚ) (count : ℕ) :
    Scalar.dot coefficients (List.replicate count 0) = 0 := by
  rw [dot_eq_sum _ _ count (.inr (by simp))]
  refine Finset.sum_eq_zero fun j _ => ?_
  have hzero : (List.replicate count 0).getD j (0 : ℚ) = 0 := Equation.coefficient_zero count j
  rw [hzero, mul_zero]

/-- The dot product with a unit list is the coefficient at its position. -/
theorem dot_unitEntries (coefficients : List ℚ) {count position : ℕ} (h : position < count) :
    Scalar.dot coefficients (unitEntries count position) = coefficients.getD position 0 := by
  rw [dot_eq_sum _ _ _ (.inr le_rfl), ← sum_unitEntries h fun k => coefficients.getD k 0]
  exact Finset.sum_congr rfl fun j _ => mul_comm _ _

/-- The dot product with differences is the difference of the dot products. -/
theorem dot_map_sub {β : Type} (coefficients : List ℚ) (f g : β → ℚ) (entries : List β) :
    Scalar.dot coefficients (entries.map fun b => f b - g b) =
      Scalar.dot coefficients (entries.map f) - Scalar.dot coefficients (entries.map g) := by
  simp only [dot_eq_sum _ _ coefficients.length (.inl le_rfl), ← Finset.sum_sub_distrib]
  apply Finset.sum_congr rfl
  intro j _
  simp only [List.getD_eq_getElem?_getD, List.getElem?_map]
  cases entries[j]? <;> simp [mul_sub]

end Scalar

/-- The constraints of a program as a tableau numbers them, an equation as two inequalities. -/
def LinearProgram.inequalities (p : LinearProgram ℚ) : List (Constraint ℚ) :=
  p.constraints.flatMap Constraint.inequalities

/-- The price of each constraint in `≤` form: the reduced cost of its slack. -/
def Tableau.prices (t : Tableau ℚ) : List ℚ :=
  (List.range t.rowCount).map fun i => t.reducedCost (t.slackColumn i)

/-- The form of an inequality of a program has its index. -/
theorem LinearProgram.exists_storedForm {p : LinearProgram ℚ} {i : ℕ} {c : Constraint ℚ}
    (hc : p.inequalities[i]? = some c) :
    ∃ s, (storedForms p.constraints)[i]? = some s ∧ c.stored? = some s := by
  have hforms := forall₂_storedForms p.constraints
  obtain ⟨hi, rfl⟩ := List.getElem?_eq_some_iff.mp hc
  have hi' : i < (storedForms p.constraints).length := hforms.length_eq ▸ hi
  exact ⟨_, List.getElem?_eq_getElem hi', hforms.get hi hi'⟩

/-- The value of an equation where the slacks take up the rooms: its coefficients of the variables at
their values, and those of the slacks at the rooms. -/
theorem Equation.eval_withSlacks (e : Equation ℚ) {given : List (StoredConstraint ℚ)} {x : List ℚ}
    (hwidth : e.coefficients.length = x.length + given.length) :
    e.eval (withSlacks given x) = Scalar.dot e.coefficients x +
      Scalar.dot ((List.range given.length).map fun i => e.coefficient (x.length + i))
        (given.map (·.room x)) := by
  have hvalues : ∑ j ∈ Finset.range x.length, e.coefficient j * withSlacks given x j =
      Scalar.dot e.coefficients x := by
    rw [Scalar.dot_eq_sum _ _ x.length (.inr le_rfl)]
    exact Finset.sum_congr rfl fun j hj => by
      rw [withSlacks_of_lt (Finset.mem_range.mp hj)]
      rfl
  have hrooms : ∑ i ∈ Finset.range given.length,
      e.coefficient (x.length + i) * withSlacks given x (x.length + i) =
        Scalar.dot ((List.range given.length).map fun i => e.coefficient (x.length + i))
          (given.map (·.room x)) := by
    rw [Scalar.dot_eq_sum _ _ given.length (.inl (by simp))]
    refine Finset.sum_congr rfl fun i hi => ?_
    have hi := Finset.mem_range.mp hi
    rw [withSlacks_of_getElem? (List.getElem?_eq_getElem hi)]
    simp [List.getD_eq_getElem?_getD, hi]
  rw [eval, hwidth, Finset.sum_range_add, hvalues, hrooms]

namespace Tableau

variable {t : Tableau ℚ} {p : LinearProgram ℚ}

/-- The price of a constraint, by its index. -/
theorem getD_prices {i : ℕ} (hi : i < t.rowCount) :
    t.prices.getD i 0 = t.reducedCost (t.slackColumn i) := by
  rw [prices, List.getD_eq_getElem _ _ (by simpa using hi)]
  simp

/-- The reported price of a constraint is for its right-hand side as written: together they are the
price and the right-hand side of the `≤` form, in the program's own sense. -/
theorem shadowPrice_mul_rhs (t : Tableau ℚ) (i : ℕ) {c : Constraint ℚ} {s : StoredConstraint ℚ}
    (hs : c.stored? = some s) :
    (t.shadowPrice i s.label).value * c.rhs =
      t.sense.sign * (t.reducedCost (t.slackColumn i) * s.label.rhs) := by
  obtain ⟨name, coefficients, relation, rhs⟩ := c
  obtain ⟨sign, hsign, rfl⟩ := Option.map_eq_some_iff.mp hs
  cases relation with
  | le =>
    cases hsign
    simp [shadowPrice]
    ring
  | ge =>
    cases hsign
    simp [shadowPrice]
    ring
  | eq => cases hsign

/-- A reported price is zero if the price of the `≤` form is. -/
theorem shadowPrice_eq_zero {i : ℕ} (hprice : t.reducedCost (t.slackColumn i) = 0)
    (label : Label ℚ) : (t.shadowPrice i label).value = 0 := by
  simp [shadowPrice, hprice]

namespace Represents

/-- There is a row for each inequality of the program. -/
theorem rowCount_eq (ht : t.Represents p) : t.rowCount = p.inequalities.length :=
  ht.encodes.rowCount.trans (forall₂_storedForms p.constraints).length_eq.symm

/-- The row of an inequality has the label of its form. -/
theorem exists_row (ht : t.Represents p) {i : ℕ} {c : Constraint ℚ}
    (hc : p.inequalities[i]? = some c) :
    ∃ s r, (storedForms p.constraints)[i]? = some s ∧ c.stored? = some s ∧
      t.rows[i]? = some r ∧ r.label = s.label := by
  obtain ⟨s, hs, hcs⟩ := p.exists_storedForm hc
  obtain ⟨r, hr, hlabel⟩ := ht.encodes.exists_row hs
  exact ⟨s, r, hs, hcs, hr, hlabel⟩

/-- The objective value in terms of any point: its gain, what its values cost, and what the rooms that
it leaves are worth at the prices. -/
theorem objectiveValue_eq_at (ht : t.Represents p) {x : List ℚ} (hx : x.length = p.variableCount) :
    t.objectiveValue = Scalar.dot p.costs x + Scalar.dot t.reducedCosts x +
      Scalar.dot t.prices ((storedForms p.constraints).map (·.room x)) := by
  have hwidth := overFirst_of_mem_storedForms ht.width
  have hform : SlackForm t.structuralCount (storedForms p.constraints)
      (withSlacks (storedForms p.constraints) x) := by
    rw [ht.structural, ← hx]
    exact slackForm_withSlacks (hx.symm ▸ hwidth)
  have hgap := ht.encodes.gap _ ((ht.encodes.holds_iff _).mpr hform)
  have hcosts : p.costs.length = x.length := by
    rw [hx, LinearProgram.costs, List.length_map, ht.objective]
  rw [costAt_eq_dot fun j hj => withSlacks_of_lt (hcosts ▸ hj)] at hgap
  have hcolumns : t.objective.coefficients.length =
      x.length + (storedForms p.constraints).length := by
    rw [hx, ← ht.structural]
    exact ht.encodes.columns
  have hprices : t.prices = (List.range (storedForms p.constraints).length).map fun i =>
      t.objective.coefficient (x.length + i) := by
    rw [prices, ht.encodes.rowCount, hx, ← ht.structural]
    rfl
  rw [Equation.gap, t.objective.eval_withSlacks hcolumns, ← hprices] at hgap
  rw [objectiveValue, reducedCosts]
  linarith

/-- The objective value is what the right-hand sides are worth at the prices. -/
theorem objectiveValue_eq_prices (ht : t.Represents p) :
    t.objectiveValue =
      Scalar.dot t.prices ((storedForms p.constraints).map (·.label.rhs)) := by
  have hzero := ht.objectiveValue_eq_at (x := List.replicate p.variableCount 0) (by simp)
  rw [Scalar.dot_replicate_zero, Scalar.dot_replicate_zero] at hzero
  simpa [StoredConstraint.room, Scalar.dot_replicate_zero] using hzero

/-- The reduced cost of a variable is what its coefficients are worth at the prices, less its cost. -/
theorem reducedCost_eq_prices (ht : t.Represents p) {j : ℕ} (hj : j < p.variableCount) :
    t.reducedCost j =
      Scalar.dot t.prices ((storedForms p.constraints).map (·.coefficients.getD j 0)) -
        p.costs.getD j 0 := by
  have hunit := ht.objectiveValue_eq_at (x := unitEntries p.variableCount j) (by simp [unitEntries])
  have hrooms : (storedForms p.constraints).map (·.room (unitEntries p.variableCount j)) =
      (storedForms p.constraints).map fun s => s.label.rhs - s.coefficients.getD j 0 :=
    List.map_congr_left fun s _ => by rw [StoredConstraint.room, Scalar.dot_unitEntries _ hj]
  rw [hrooms, Scalar.dot_map_sub, ← ht.objectiveValue_eq_prices, Scalar.dot_unitEntries _ hj,
    Scalar.dot_unitEntries _ hj] at hunit
  change _ = _ + t.reducedCost j + _ at hunit
  linarith

/-- The reported prices add the right-hand sides as written up to the objective value, in the program's
own sense. -/
theorem dot_shadowPrices (ht : t.Represents p) :
    Scalar.dot (t.analysis.shadowPrices.map (·.value)) (p.inequalities.map (·.rhs)) =
      t.sense.sign * t.objectiveValue := by
  have hlength : (t.analysis.shadowPrices.map (·.value)).length = t.rowCount := by
    simp [analysis, Tableau.rowCount]
  rw [ht.objectiveValue_eq_prices, Scalar.dot_eq_sum _ _ t.rowCount (.inl hlength.le),
    Scalar.dot_eq_sum _ _ t.rowCount (.inl (by simp [prices])), Finset.mul_sum]
  refine Finset.sum_congr rfl fun i hi => ?_
  have hi := Finset.mem_range.mp hi
  have hin : i < p.inequalities.length := ht.rowCount_eq ▸ hi
  have hc : p.inequalities[i]? = some p.inequalities[i] := List.getElem?_eq_getElem hin
  obtain ⟨s, r, hs, hcs, hr, hlabel⟩ := ht.exists_row hc
  rw [getD_prices hi, List.getD_eq_getElem?_getD, List.getD_eq_getElem?_getD,
    List.getD_eq_getElem?_getD, List.getElem?_map, List.getElem?_map, List.getElem?_map, hc, hs,
    analysis, List.getElem?_mapIdx, hr]
  change (t.shadowPrice i r.label).value * _ = _
  rw [hlabel]
  exact t.shadowPrice_mul_rhs i hcs

/-- A constraint with a price has no slack, neither in the tableau nor at the values that are read off,
and is listed among the binding ones. -/
theorem binding_of_price (ht : t.Represents p) (htolerance : 0 ≤ t.tolerance) {i : ℕ}
    {c : Constraint ℚ} (hc : p.inequalities[i]? = some c)
    (hprice : t.reducedCost (t.slackColumn i) ≠ 0) :
    t.value (t.slackColumn i) = 0 ∧
      c.slack (valuesOf p.variableCount t.dictionary.basicPoint) = 0 ∧
      c.name ∈ t.analysis.bindingConstraints := by
  obtain ⟨s, r, hs, hcs, hr, hlabel⟩ := ht.exists_row hc
  have hvalue : t.value (t.slackColumn i) = 0 :=
    (mul_eq_zero.mp ((identityBasis ht.encodes.canonical).reducedCost_mul_value _)).resolve_left hprice
  have hname : r.label.name = c.name := by
    obtain ⟨sign, _, rfl⟩ := Option.map_eq_some_iff.mp hcs
    rw [hlabel]
  refine ⟨hvalue, ?_, ?_⟩
  · have hover := overFirst_of_mem_storedForms ht.width s (List.mem_of_getElem? hs)
    rw [← StoredConstraint.room_of_stored? hcs, (ht.slackForm ht.holds_basicPoint i s hs).room_eq hover,
      ← value_eq_basicPoint, ← ht.structural]
    exact hvalue
  · have hbinding : t.isBinding i = true := by
      simpa [isBinding, hvalue, Scalar.abs_rat] using htolerance
    refine List.mem_filterMap.mpr ⟨(r, i), List.mem_zipIdx_iff_getElem?.mpr hr, ?_⟩
    change (if t.isBinding i = true then some r.label.name else none) = _
    rw [if_pos hbinding, hname]

end Represents

/-- Reduced costs and objective value in terms of the prices of the `≤` forms. -/
structure PricedBy (t : Tableau ℚ) (p : LinearProgram ℚ) : Prop where
  reducedCost : ∀ j < p.variableCount, t.reducedCost j =
    Scalar.dot t.prices ((storedForms p.constraints).map (·.coefficients.getD j 0)) - p.costs.getD j 0
  objectiveValue : t.objectiveValue =
    Scalar.dot t.prices ((storedForms p.constraints).map (·.label.rhs))

/-- The prices that a solution reports: one for each constraint, whose right-hand sides they add up to
the objective value, and none for a constraint with slack. -/
structure PricesOptimum (t : Tableau ℚ) (p : LinearProgram ℚ) (solution : Solution ℚ) : Prop where
  nonneg : ∀ y ∈ t.prices, -t.tolerance ≤ y
  count : solution.analysis.shadowPrices.length = p.inequalities.length
  objective : solution.objectiveValue = .attained
    (Scalar.dot (solution.analysis.shadowPrices.map (·.value)) (p.inequalities.map (·.rhs)))
  label : ∀ (i : ℕ) s c, solution.analysis.shadowPrices[i]? = some s → p.inequalities[i]? = some c →
    s.constraint = c.name ∧ s.relation = c.relation
  binding : ∀ (i : ℕ) s c, solution.analysis.shadowPrices[i]? = some s →
    p.inequalities[i]? = some c → s.value ≠ 0 →
      t.value (t.slackColumn i) = 0 ∧ c.slack solution.values = 0 ∧
        c.name ∈ solution.analysis.bindingConstraints

/-- A tableau that represents a program is priced by it. -/
theorem Represents.pricedBy (ht : t.Represents p) : t.PricedBy p :=
  ⟨fun _ hj => ht.reducedCost_eq_prices hj, ht.objectiveValue_eq_prices⟩

/-- The prices that are read off an optimal tableau. -/
theorem Represents.pricesOptimum (ht : t.Represents p) (htolerance : 0 ≤ t.tolerance)
    (hallows : t.Allows (.stop .optimal)) {report : Report ℚ} (hreport : report.status = .optimal) :
    t.PricesOptimum p (t.extract report) := by
  have hextract : t.extract report = t.readSolution report.iterations := by
    rw [extract, if_pos hreport]
  obtain ⟨hvalues, _⟩ := ht.readSolution report.iterations
  have hreported : ∀ (i : ℕ) s c, t.analysis.shadowPrices[i]? = some s → p.inequalities[i]? = some c →
      ∃ stored, c.stored? = some stored ∧ s = t.shadowPrice i stored.label := by
    intro i s c hs hc
    obtain ⟨stored, r, _, hcs, hr, hlabel⟩ := ht.exists_row hc
    rw [analysis, List.getElem?_mapIdx, hr] at hs
    have hprice : t.shadowPrice i r.label = s := Option.some.inj hs
    exact ⟨stored, hcs, by rw [← hprice, hlabel]⟩
  rw [hextract]
  refine ⟨?_, ?_, ?_, fun i s c hs hc => ?_, fun i s c hs hc hprice => ?_⟩
  · cases hallows with
    | optimal _ hdual =>
      refine List.forall_mem_map.mpr fun i hi => not_lt.mp (hdual _ ?_)
      have hin : t.slackColumn i < t.columnCount := by
        rw [slackColumn, ht.encodes.columns, ← ht.encodes.rowCount]
        exact Nat.add_lt_add_left (List.mem_range.mp hi) _
      rw [reducedCost, Equation.coefficient, List.getD_eq_getElem _ _ hin]
      exact List.getElem_mem hin
  · change t.analysis.shadowPrices.length = _
    rw [← ht.rowCount_eq, analysis, List.length_mapIdx]
    rfl
  · exact congrArg ObjectiveValue.attained ht.dot_shadowPrices.symm
  · obtain ⟨stored, hcs, rfl⟩ := hreported i s c hs hc
    obtain ⟨sign, _, rfl⟩ := Option.map_eq_some_iff.mp hcs
    exact ⟨rfl, rfl⟩
  · obtain ⟨stored, _, rfl⟩ := hreported i s c hs hc
    rw [hvalues]
    exact ht.binding_of_price htolerance hc fun hzero => hprice (t.shadowPrice_eq_zero hzero _)

end Tableau

/-- A history that adds constraints over the variables, pivots off zero and solves represents its
program with the constraints that were added. -/
theorem LinearProgram.represents_of_careful {p : LinearProgram ℚ} {t : Tableau ℚ}
    (ht : p.toTableau = .ok t) {history : List (Edit ℚ)}
    (hhistory : ∀ e ∈ history, e.OverVariables p.variableCount) (hcareful : t.Careful history) :
    (t.afterEdits history).Represents (p.extend (t.added history)) ∧
      0 ≤ (t.afterEdits history).tolerance := by
  obtain ⟨hencodes, htolerance⟩ := Origin.encodes_of_pivotsOffZero (o := .program p) ht
    hcareful.tolerance hcareful.offZero
  obtain ⟨hshaped, rfl⟩ := LinearProgram.toTableau_eq_ok ht
  exact ⟨⟨hencodes, p.structuralCount_afterEdits hshaped history,
    (p.slackTableau.decisions_and_sense_afterEdits history).2, hshaped.objective,
    LinearProgram.width_extend hshaped hhistory⟩, htolerance⟩

/-- Whatever was added over the variables, pivoted off zero and solved, the reduced costs and the
objective value are what the prices say. The prices that are reported after an optimal solve are not
below zero by more than the tolerance, add the right-hand sides up to the objective value, and are zero
for constraints with slack. -/
theorem LinearProgram.prices_afterEdits {p : LinearProgram ℚ} {t : Tableau ℚ}
    (ht : p.toTableau = .ok t) {history : List (Edit ℚ)}
    (hhistory : ∀ e ∈ history, e.OverVariables p.variableCount) (hcareful : t.Careful history) :
    let extended := p.extend (t.added history)
    let reached := t.afterEdits history
    reached.PricedBy extended ∧
      ∀ options, (reached.solve options).1.status = .optimal →
        let solved := (reached.solve options).2
        solved.PricesOptimum extended (solved.extract (reached.solve options).1) := by
  obtain ⟨hrepresents, htolerance⟩ := LinearProgram.represents_of_careful ht hhistory hcareful
  refine ⟨hrepresents.pricedBy, fun options hoptimal => ?_⟩
  have hsame := (t.afterEdits history).tolerance_solve options
  exact (hrepresents.solve htolerance options).pricesOptimum (by rwa [hsame])
    (Tableau.allows_optimal_of_solve htolerance hoptimal) hoptimal

/-- The prices of a minimum with a constraint that was added after a solve and a pivot. -/
theorem prices_after_equation :
    let p : LinearProgram ℚ :=
      ⟨["x", "y"], ⟨[1, 2], .minimize⟩, [⟨"demand", [1, 1], .ge, 2⟩, ⟨"limit", [1, 0], .le, 3⟩]⟩
    let t := p.slackTableau
    let history : List (Edit ℚ) :=
      [.solve {}, .pivot 0 1, .addEquality none [1, -1] 1, .setTolerances (some 0) none]
    p.toTableau = .ok t ∧ (∀ e ∈ history, e.OverVariables p.variableCount) ∧ t.Careful history ∧
      ((t.afterEdits history).solve {}).1.status = .optimal ∧
      let extended := p.extend (t.added history)
      let reached := t.afterEdits history
      let solved := (reached.solve {}).2
      reached.PricedBy extended ∧
        solved.PricesOptimum extended (solved.extract (reached.solve {}).1) := by
  intro p t history
  have ht : p.toTableau = .ok t := by with_unfolding_all rfl
  have hhistory : ∀ e ∈ history, e.OverVariables p.variableCount := by
    simp [history, p, Edit.OverVariables, OverFirst, LinearProgram.variableCount]
  have hcareful : t.Careful history := by
    have hentry : (t.afterEdit (.solve {})).coefficient 0 1 ≠ 0 := by decide +kernel
    exact ⟨by simp [history, Edit.SetsNonneg], trivial, fun _ _ => hentry, trivial, trivial, trivial⟩
  have hoptimal : ((t.afterEdits history).solve {}).1.status = .optimal := by decide +kernel
  obtain ⟨hpriced, hsolve⟩ := LinearProgram.prices_afterEdits ht hhistory hcareful
  exact ⟨ht, hhistory, hcareful, hoptimal, hpriced, hsolve {} hoptimal⟩

end WarmSimplex
