import WarmSimplex.Proofs.Staged

/-!
# Prices as rates of change

On a fixed basis the objective changes at a constant rate with each right-hand side. The reported price of
a constraint is read off the reduced cost of its slack. That is its rate as long as no constraint mentions
the slack. If others do, the slack also stands for a part of their left-hand sides, and its reduced cost
is the rate of the constraint together with the rates of those that mention it.

Whether the basis is feasible or optimal does not matter for the rates.
-/

namespace WarmSimplex

/-- On the basis of the tableau, the objective changes at the given rate with the right-hand side of an
inequality, both as they were written. Whatever the right-hand side is, the basis has exactly one basic
solution. -/
structure Tableau.ChangesAtRate (t : Tableau ℚ) (p : LinearProgram ℚ) (i : ℕ) (c : Constraint ℚ)
    (rate : ℚ) : Prop where
  basicSolution : ∀ r, ∃! w, (p.withRhs i r).BasicSolution t.basis w
  evaluate : ∀ r w, (p.withRhs i r).BasicSolution t.basis w →
    p.evaluate (valuesOf p.variableCount w) =
      t.sense.sign * t.objectiveValue + (r - c.rhs) * rate

/-- The coefficients that the inequalities have for the slack of one of them. -/
def LinearProgram.slackEntries (p : LinearProgram ℚ) (i : ℕ) : List ℚ :=
  p.inequalities.map fun d => d.coefficients.getD (p.variableCount + i) 0

/-- The reported price of a constraint and the rates at which the objective changes: the price is the rate
of the constraint and the rates of the constraints that mention its slack, each times the coefficient. -/
structure Tableau.PricedByRates (t : Tableau ℚ) (p : LinearProgram ℚ) (rate : ℕ → ℚ) (i : ℕ)
    (c : Constraint ℚ) (s : ShadowPrice ℚ) : Prop where
  constraint : s.constraint = c.name
  relation : s.relation = c.relation
  changes : t.ChangesAtRate p i c (rate i)
  value : s.value = rate i + c.relation.slackSign *
    ∑ k ∈ Finset.range p.inequalities.length, rate k * (p.slackEntries i).getD k 0
  unmentioned : (∀ a ∈ p.slackEntries i, a = 0) → t.ChangesAtRate p i c s.value

namespace Tableau

variable {t : Tableau ℚ} {p : LinearProgram ℚ} {i : ℕ} {c : Constraint ℚ}

/-- The reported price is the reduced cost of the slack, in the orientation of the constraint and in the
program's own sense. -/
theorem value_shadowPrice (hc : c.relation ≠ .eq) (rhs : ℚ) :
    (t.shadowPrice i ⟨c.name, c.relation, rhs⟩).value =
      t.sense.sign * c.relation.slackSign * t.reducedCost (t.slackColumn i) := by
  obtain ⟨name, coefficients, relation, _⟩ := c
  cases relation with
  | le => simp [shadowPrice, Relation.slackSign]
  | ge => simp [shadowPrice, Relation.slackSign]
  | eq => exact absurd rfl hc

namespace Stores

/-- The objective at a displaced basic point, if only slacks are displaced. -/
theorem evaluate_displace (ht : t.Stores p) {e : ℕ → ℚ} (he : ∀ j < p.variableCount, e j = 0) :
    p.evaluate (valuesOf p.variableCount (t.dictionary.displace e).basicPoint) =
      t.sense.sign * (t.objectiveValue + t.objective.eval e) := by
  have hcanonical : (t.dictionary.displace e).Canonical :=
    Dictionary.canonical_displace ht.encodes.canonical
  have hsolved : p.SolvedBy ((t.dictionary.displace e).basicPoint - e) :=
    ht.holds_iff.mp (Dictionary.holds_displace.mp (Dictionary.holds_basicPoint hcanonical))
  have hvalues : valuesOf p.variableCount ((t.dictionary.displace e).basicPoint - e) =
      valuesOf p.variableCount (t.dictionary.displace e).basicPoint := by
    apply List.map_congr_left
    intro j hj
    rw [Pi.sub_apply, he j (List.mem_range.mp hj), sub_zero]
  have hgap : t.objective.gap ((t.dictionary.displace e).basicPoint - e) =
      t.objectiveValue + t.objective.eval e :=
    Dictionary.gap_displace.symm.trans (Dictionary.gap_basicPoint hcanonical)
  rw [LinearProgram.evaluate_eq_sign_mul_gain, ← ht.sense, ← hvalues, ← ht.gap hsolved, hgap]

section Multipliers

variable {multiplier : ℕ → ℚ}
  (hmultiplier : ∀ e change : ℕ → ℚ, (∀ j < p.variableCount, e j = 0) →
    (∀ k < p.inequalities.length, ∀ c, p.inequalities[k]? = some c →
      c.lhs (p.variableCount + k) e = change k) →
    ∑ k ∈ Finset.range p.inequalities.length,
        t.objective.coefficient (p.variableCount + k) * e (p.variableCount + k) =
      ∑ k ∈ Finset.range p.inequalities.length, multiplier k * change k)

include hmultiplier

/-- The multiplier of an inequality is the rate at which the objective changes with it. -/
theorem changesAtRate (ht : t.Stores p) (hstaged : Staged p.variableCount p.inequalities)
    (hi : p.inequalities[i]? = some c) :
    t.ChangesAtRate p i c (t.sense.sign * multiplier i) := by
  have hin : i < p.inequalities.length := (List.getElem?_eq_some_iff.mp hi).1
  have hpoint : ∀ r, ∃ point, (∀ w, (p.withRhs i r).BasicSolution t.basis w ↔ w = point) ∧
      p.evaluate (valuesOf p.variableCount point) =
        t.sense.sign * t.objectiveValue + (r - c.rhs) * (t.sense.sign * multiplier i) := by
    intro r
    obtain ⟨e, hzero, hlhs⟩ := hstaged.exists_displacement (fun _ => LinearProgram.relation_ne_eq)
      (fun k => if k = i then r - c.rhs else 0) p.inequalities.length
    have hsolved : ∀ v, (p.withRhs i r).SolvedBy v ↔ p.SolvedBy (v - e) := by
      intro v
      apply LinearProgram.solvedBy_withRhs
      intro k d hd
      rw [hlhs k (List.getElem?_eq_some_iff.mp hd).1 d hd]
      split
      · rename_i hk
        rw [hk] at hd
        cases hd.symm.trans hi
        rfl
      · rfl
    have heval : t.objective.eval e = (r - c.rhs) * multiplier i := by
      have hsum := hmultiplier e _ hzero hlhs
      rw [Equation.eval_of_zero_below ht.columns.le hzero, hsum,
        Finset.sum_eq_single_of_mem i (Finset.mem_range.mpr hin), if_pos rfl, mul_comm]
      intro k _ hk
      rw [if_neg hk, mul_zero]
    refine ⟨_, fun w => ht.basicSolution_iff hsolved, ?_⟩
    rw [ht.evaluate_displace hzero, heval]
    ring
  constructor
  · intro r
    obtain ⟨point, hbasic, _⟩ := hpoint r
    exact ⟨point, (hbasic point).mpr rfl, fun w hw => (hbasic w).mp hw⟩
  · intro r w hw
    obtain ⟨point, hbasic, hvalue⟩ := hpoint r
    rw [(hbasic w).mp hw, hvalue]

/-- The reduced cost of a slack is made up of the multipliers of the inequalities that mention it. -/
theorem reducedCost_slack (ht : t.Stores p) (hi : p.inequalities[i]? = some c) :
    t.reducedCost (t.slackColumn i) = c.relation.slackSign * multiplier i +
      ∑ k ∈ Finset.range p.inequalities.length, multiplier k * (p.slackEntries i).getD k 0 := by
  have hin : i ∈ Finset.range p.inequalities.length :=
    Finset.mem_range.mpr (List.getElem?_eq_some_iff.mp hi).1
  have hsum := hmultiplier (Pi.single (p.variableCount + i) 1)
    (fun k => (p.slackEntries i).getD k 0 + if k = i then c.relation.slackSign else 0)
    (fun j hj => Pi.single_eq_of_ne (by omega) _) ?_
  · rw [Finset.sum_eq_single_of_mem i hin, Pi.single_eq_same, mul_one] at hsum
    · rw [reducedCost, slackColumn, ht.structural, hsum]
      simp only [mul_add, Finset.sum_add_distrib, mul_ite, mul_zero]
      rw [Finset.sum_ite_eq', if_pos hin]
      ring
    · intro k _ hk
      rw [Pi.single_eq_of_ne (by omega), mul_zero]
  · intro k _ d hd
    have hentry : (p.slackEntries i).getD k 0 = d.coefficients.getD (p.variableCount + i) 0 := by
      rw [LinearProgram.slackEntries, List.getD_eq_getElem?_getD, List.getElem?_map, hd]
      rfl
    rw [Constraint.lhs_single, mul_one, hentry]
    congr 1
    by_cases hk : k = i
    · subst hk
      cases hd.symm.trans hi
      rw [if_pos rfl, if_pos rfl]
    · rw [if_neg hk, if_neg (by omega)]

end Multipliers

/-- The reported prices of a program whose constraints are over earlier slacks. -/
theorem exists_rates (ht : t.Stores p) (hstaged : Staged p.variableCount p.inequalities) :
    ∃ rate : ℕ → ℚ, ∀ (i : ℕ) c, p.inequalities[i]? = some c →
      ∃ s, t.analysis.shadowPrices[i]? = some s ∧ t.PricedByRates p rate i c s := by
  obtain ⟨multiplier, hmultiplier⟩ := hstaged.exists_multipliers
    (fun _ => LinearProgram.relation_ne_eq)
    (fun k => t.objective.coefficient (p.variableCount + k)) le_rfl
  refine ⟨fun k => t.sense.sign * multiplier k, fun i c hi => ?_⟩
  have hrelation := LinearProgram.relation_ne_eq (List.mem_of_getElem? hi)
  have hchanges := ht.changesAtRate hmultiplier hstaged hi
  obtain ⟨row, hrow, hlabel⟩ := ht.exists_row hi
  have hvalue : (t.shadowPrice i row.label).value = t.sense.sign * multiplier i +
      c.relation.slackSign * ∑ k ∈ Finset.range p.inequalities.length,
        t.sense.sign * multiplier k * (p.slackEntries i).getD k 0 := by
    have hsign := Constraint.slackSign_mul_slackSign hrelation
    have hfactor : ∑ k ∈ Finset.range p.inequalities.length,
        t.sense.sign * multiplier k * (p.slackEntries i).getD k 0 = t.sense.sign *
          ∑ k ∈ Finset.range p.inequalities.length, multiplier k * (p.slackEntries i).getD k 0 := by
      rw [Finset.mul_sum]
      exact Finset.sum_congr rfl fun k _ => mul_assoc _ _ _
    rw [hlabel, value_shadowPrice hrelation, ht.reducedCost_slack hmultiplier hi, hfactor]
    linear_combination t.sense.sign * multiplier i * hsign
  refine ⟨t.shadowPrice i row.label, ?_, ?_⟩
  · rw [analysis, List.getElem?_mapIdx, hrow]
    rfl
  · refine ⟨?_, ?_, hchanges, hvalue, fun hzero => ?_⟩
    · rw [hlabel]
      rfl
    · rw [hlabel]
      rfl
    · have hnone : ∑ k ∈ Finset.range p.inequalities.length,
          t.sense.sign * multiplier k * (p.slackEntries i).getD k 0 = 0 := by
        apply Finset.sum_eq_zero
        intro k hk
        have hin : k < (p.slackEntries i).length := by
          rw [LinearProgram.slackEntries, List.length_map]
          exact Finset.mem_range.mp hk
        rw [List.getD_eq_getElem _ _ hin, hzero _ (List.getElem_mem hin), mul_zero]
      rw [hvalue, hnone, mul_zero, add_zero]
      exact hchanges

end Stores

end Tableau

/-- After any history that adds constraints over the columns, pivots off zero and solves, the objective has
a rate of change for each right-hand side. The reported price of a constraint is its rate if no constraint
mentions its slack, and otherwise adds the rates of those that do. -/
theorem Origin.shadowPrices_by_rates {o : Origin} {t : Tableau ℚ} (ht : o.tableau = .ok t)
    {history : List (Edit ℚ)} (hcareful : t.Careful history) :
    let reached := t.afterEdits history
    let extended := o.start.extend (t.added history)
    ∃ rate : ℕ → ℚ, ∀ (i : ℕ) c, extended.inequalities[i]? = some c →
      ∃ s, reached.analysis.shadowPrices[i]? = some s ∧ reached.PricedByRates extended rate i c s := by
  intro reached extended
  exact (Origin.stores_of_careful ht hcareful).exists_rates (Origin.staged_extend ht hcareful)

/-- The prices of a minimum with a cut over the slack of its first constraint, after a pivot. -/
theorem shadowPrices_after_cut :
    let o : Origin := .program
      ⟨["x", "y"], ⟨[1, 2], .minimize⟩, [⟨"demand", [1, 1], .ge, 2⟩, ⟨"limit", [1, 0], .le, 3⟩]⟩
    let t := o.start.slackTableau
    let history : List (Edit ℚ) := [.solve {}, .appendRow [0, 1, 1] 1, .pivot 0 1]
    o.tableau = .ok t ∧ t.Careful history ∧
      let reached := t.afterEdits history
      let extended := o.start.extend (t.added history)
      ∃ rate : ℕ → ℚ, ∀ (i : ℕ) c, extended.inequalities[i]? = some c →
        ∃ s, reached.analysis.shadowPrices[i]? = some s ∧
          reached.PricedByRates extended rate i c s := by
  intro o t history
  have ht : o.tableau = .ok t := by with_unfolding_all rfl
  have hcareful : t.Careful history := by
    have hentry : ((t.afterEdit (.solve {})).afterEdit (.appendRow [0, 1, 1] 1)).coefficient 0 1 ≠ 0 := by
      decide +kernel
    exact ⟨by simp [history, Edit.SetsNonneg], trivial, trivial, fun _ _ => hentry, trivial⟩
  exact ⟨ht, hcareful, Origin.shadowPrices_by_rates ht hcareful⟩

/-- A cut asks the slack of the first constraint for at least one unit. One more unit of the right-hand
side then goes to the variable and raises the objective, but the reported price is zero. -/
theorem shadowPrice_ne_rate :
    let o : Origin := .matrix [[1]] [4] [1]
    let t := o.start.slackTableau
    let history : List (Edit ℚ) := [.appendRow [0, -1] (-1), .solve {}]
    let reached := t.afterEdits history
    let extended := o.start.extend (t.added history)
    let c : Constraint ℚ := ⟨"c1", [1], .le, 4⟩
    o.tableau = .ok t ∧ t.Careful history ∧ reached.isOptimal = true ∧
      extended.inequalities[0]? = some c ∧
      ∃ s, reached.analysis.shadowPrices[0]? = some s ∧ s.value = 0 ∧
        ¬reached.ChangesAtRate extended 0 c s.value := by
  intro o t history reached extended c
  have ht : o.tableau = .ok t := by with_unfolding_all rfl
  have hcareful : t.Careful history := ⟨by simp [history, Edit.SetsNonneg], trivial, trivial, trivial⟩
  have hoptimal : reached.isOptimal = true := by decide +kernel
  have hadded : t.added history = [⟨"c2", [0, -1], .le, -1⟩] := by
    have hsolve : (t.afterEdit (.appendRow [0, -1] (-1))).added [.solve {}] = [] := by
      simp [Tableau.added, Tableau.accepted, Tableau.perform, Edit.constraints]
    have hrow : t.accepted (.appendRow [0, -1] (-1)) = [⟨"c2", [0, -1], .le, -1⟩] := by
      with_unfolding_all rfl
    rw [Tableau.added, hsolve, hrow, List.append_nil]
  have hinequalities : extended.inequalities = [c, ⟨"c2", [0, -1], .le, -1⟩] := by
    change (o.start.constraints ++ t.added history).flatMap Constraint.inequalities = _
    rw [hadded]
    with_unfolding_all rfl
  have hcount : extended.variableCount = 1 := by with_unfolding_all rfl
  have hbasis : reached.basis = [1, 0] := by decide +kernel
  have hvalue : reached.sense.sign * reached.objectiveValue = 3 := by decide +kernel
  obtain ⟨s, hs, hprice⟩ : ∃ s, reached.analysis.shadowPrices[0]? = some s ∧ s.value = 0 := by
    have hprices : reached.analysis.shadowPrices.map (·.value) = [0, 1] := by decide +kernel
    have hfirst := congrArg (·[0]?) hprices
    simpa [List.getElem?_map, Option.map_eq_some_iff] using hfirst
  -- the basic solution for a right-hand side of 5
  have hbasic : (extended.withRhs 0 5).BasicSolution reached.basis fun j => [4, 1].getD j 0 := by
    constructor
    · rw [LinearProgram.solvedBy_withRhs_iff, hinequalities, hcount]
      intro k c hc
      rcases k with _ | _ | k
      · cases hc
        norm_num [c, Constraint.lhs, Equation.eval, Equation.coefficient, Relation.slackSign]
      · cases hc
        simp [Constraint.lhs, Equation.eval, Equation.coefficient, Relation.slackSign,
          Finset.sum_range_succ]
      · cases hc
    · intro j hj
      rw [hbasis] at hj
      have hlong : 2 ≤ j := by
        simp only [List.mem_cons, List.not_mem_nil, or_false, not_or] at hj
        omega
      exact List.getD_eq_default _ _ hlong
  refine ⟨ht, hcareful, hoptimal, by rw [hinequalities]; rfl, s, hs, hprice, fun hrate => ?_⟩
  have hobjective := hrate.evaluate 5 _ hbasic
  have hraised : extended.evaluate (valuesOf extended.variableCount fun j => [4, 1].getD j 0) = 4 := by
    decide +kernel
  rw [hraised, hvalue, hprice] at hobjective
  norm_num at hobjective

end WarmSimplex
