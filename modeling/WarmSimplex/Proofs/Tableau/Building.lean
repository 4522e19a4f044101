import WarmSimplex.Proofs.Tableau.Encoding

/-!
# Building and extending an encoding

The tableau of a program encodes it: every row is solved for its own slack. A further constraint is
reduced against the basis before it becomes a row, which changes nothing at the points that meet the
other rows, so the extended tableau encodes the extended program.

The coefficients of a further constraint range over all columns there are, slacks included.
-/

namespace WarmSimplex

open TwoPhase (BasicRow)

/-- The entries of a unit list. -/
theorem getD_unitEntries {count position : ℕ} (h : position < count) (k : ℕ) :
    (unitEntries count position : List ℚ).getD k 0 = if k = position then 1 else 0 := by
  rw [unitEntries, List.getD_eq_getElem?_getD, List.getElem?_set]
  by_cases heq : position = k
  · subst heq
    simp [h]
  · rw [if_neg heq, if_neg (Ne.symm heq), ← List.getD_eq_getElem?_getD]
    by_cases hk : k < count
    · rw [List.getD_eq_getElem _ _ (by simpa using hk), List.getElem_replicate]
    · rw [List.getD_eq_default _ _ (by simpa using hk)]

/-- A sum over a unit list picks out one term. -/
theorem sum_unitEntries {count position : ℕ} (h : position < count) (v : ℕ → ℚ) :
    ∑ k ∈ Finset.range (unitEntries count position : List ℚ).length,
      (unitEntries count position : List ℚ).getD k 0 * v k = v position := by
  have hlength : (unitEntries count position : List ℚ).length = count := by simp [unitEntries]
  rw [hlength, Finset.sum_eq_single_of_mem position (Finset.mem_range.mpr h)]
  · rw [getD_unitEntries h, if_pos rfl, one_mul]
  · intro k _ hk
    rw [getD_unitEntries h, if_neg hk, zero_mul]

namespace Tableau

/-! ## The tableau of a program -/

/-- The basis of the initial tableau is the slacks in their order. -/
theorem basis_ofStored {α : Type} [Scalar α] {decisions : List (Decision α)} {sense : Sense}
    {costs : List α} {stored : List (StoredConstraint α)} :
    (ofStored decisions sense costs stored).basis =
      List.range' decisions.length stored.length := by
  apply List.ext_getElem (by simp [basis, ofStored])
  intro i _ _
  simp [basis, ofStored]

section OfStored

variable {decisions : List (Decision ℚ)} {sense : Sense} {costs : List ℚ}
  {stored : List (StoredConstraint ℚ)}

/-- The rows of the initial tableau: each constraint with a unit entry for its slack. -/
theorem mem_ofStored_rows {r : Row ℚ} :
    r ∈ (ofStored decisions sense costs stored).rows ↔
      ∃ i c, stored[i]? = some c ∧
        r = ⟨⟨c.coefficients ++ unitEntries stored.length i, c.label.rhs⟩,
          decisions.length + i, c.label⟩ := by
  simp only [ofStored, List.mem_map, Prod.exists, List.mem_zipIdx_iff_getElem?]
  constructor
  · rintro ⟨c, i, hc, rfl⟩
    exact ⟨i, c, hc, rfl⟩
  · rintro ⟨i, c, hc, rfl⟩
    exact ⟨c, i, hc, rfl⟩

/-- The initial tableau has a column for each variable and for each constraint. -/
theorem columnCount_ofStored (decisions : List (Decision ℚ)) (sense : Sense) (costs : List ℚ)
    (stored : List (StoredConstraint ℚ)) :
    (ofStored decisions sense costs stored).columnCount = costs.length + stored.length := by
  simp [columnCount, ofStored]

/-- The coefficients of an initial row in the columns of the slacks. -/
theorem coefficient_slack {c : StoredConstraint ℚ} {n i k : ℕ} (hc : c.coefficients.length = n)
    (hi : i < stored.length) (basic : ℕ) (label : Label ℚ) :
    (⟨⟨c.coefficients ++ unitEntries stored.length i, c.label.rhs⟩, basic, label⟩ :
      Row ℚ).coefficient (n + k) = if k = i then 1 else 0 := by
  rw [Equation.coefficient_append, if_neg (by omega), hc, Nat.add_sub_cancel_left,
    getD_unitEntries hi]

/-- The initial tableau is canonical. -/
theorem canonical_ofStored (hdecisions : decisions.length = costs.length)
    (hwidth : ∀ c ∈ stored, c.coefficients.length = costs.length) :
    (ofStored decisions sense costs stored).dictionary.Canonical := by
  have hbasis := basis_dictionary (ofStored decisions sense costs stored)
  have hcolumns : (ofStored decisions sense costs stored).dictionary.columns =
      costs.length + stored.length := columnCount_ofStored decisions sense costs stored
  refine ⟨⟨?width, ?nodup, ?own, ?other⟩, ?priced⟩
  case width =>
    refine forall_mem_dictionary_rows.mpr fun r hr => ?_
    obtain ⟨i, c, hc, rfl⟩ := mem_ofStored_rows.mp hr
    rw [hcolumns, ← hwidth c (List.mem_of_getElem? hc)]
    simp [Row.unlabelled, unitEntries]
  case nodup =>
    rw [hbasis, basis_ofStored]
    exact List.nodup_range'
  case own =>
    refine forall_mem_dictionary_rows.mpr fun r hr => ?_
    obtain ⟨i, c, hc, rfl⟩ := mem_ofStored_rows.mp hr
    have hi := (List.getElem?_eq_some_iff.mp hc).1
    have hentry := coefficient_slack (k := i)
      ((hwidth c (List.mem_of_getElem? hc)).trans hdecisions.symm) hi (decisions.length + i) c.label
    rwa [if_pos rfl] at hentry
  case other =>
    refine forall_mem_dictionary_rows.mpr fun r hr =>
      forall_mem_dictionary_rows.mpr fun s hs hne => ?_
    obtain ⟨i, c, hc, rfl⟩ := mem_ofStored_rows.mp hr
    obtain ⟨k, d, hd, rfl⟩ := mem_ofStored_rows.mp hs
    have hi := (List.getElem?_eq_some_iff.mp hc).1
    have hentry := coefficient_slack (k := k)
      ((hwidth c (List.mem_of_getElem? hc)).trans hdecisions.symm) hi (decisions.length + i) c.label
    have hki : k ≠ i := by
      rintro rfl
      exact hne rfl
    rwa [if_neg hki] at hentry
  case priced =>
    refine forall_mem_dictionary_rows.mpr fun r hr => ?_
    obtain ⟨i, c, hc, rfl⟩ := mem_ofStored_rows.mp hr
    have hi := (List.getElem?_eq_some_iff.mp hc).1
    have hlength : (costs.map (-·)).length = costs.length := List.length_map _
    change (⟨costs.map (-·) ++ List.replicate stored.length 0, 0⟩ : Equation ℚ).coefficient
      (decisions.length + i) = 0
    rw [Equation.coefficient_append, if_neg (by omega),
      List.getD_eq_getElem _ _ (by simp; omega), List.getElem_replicate]

/-- The initial tableau encodes its program. -/
theorem encodes_ofStored (hdecisions : decisions.length = costs.length)
    (hwidth : ∀ c ∈ stored, c.coefficients.length = costs.length) :
    (ofStored decisions sense costs stored).Encodes costs stored := by
  have hholds : ∀ i c, stored[i]? = some c → ∀ v : ℕ → ℚ,
      (⟨c.coefficients ++ unitEntries stored.length i, c.label.rhs⟩ : Equation ℚ).Holds v ↔
        c.HoldsWith (decisions.length + i) v := by
    intro i c hc v
    have hi := (List.getElem?_eq_some_iff.mp hc).1
    rw [Equation.Holds, Equation.eval_append,
      sum_unitEntries hi fun k => v (c.coefficients.length + k),
      hwidth c (List.mem_of_getElem? hc), hdecisions]
    rfl
  refine ⟨canonical_ofStored hdecisions hwidth, ?_, ?_, fun v => ?_, fun v _ => ?_⟩
  · rw [columnCount_ofStored, structuralCount, ← hdecisions]
    rfl
  · apply List.ext_getElem (by simp [ofStored])
    intro i _ _
    simp [ofStored]
  · constructor
    · intro hall i c hc
      exact (hholds i c hc v).mp (hall _ (mem_ofStored_rows.mpr ⟨i, c, hc, rfl⟩))
    · intro hall r hr
      obtain ⟨i, c, hc, rfl⟩ := mem_ofStored_rows.mp hr
      exact (hholds i c hc v).mpr (hall i c hc)
  · change (⟨costs.map (-·) ++ List.replicate stored.length 0, 0⟩ : Equation ℚ).gap v = _
    rw [Equation.gap, Equation.eval_append_zeros, Equation.eval, costAt, List.length_map,
      zero_sub, ← Finset.sum_neg_distrib]
    apply Finset.sum_congr rfl
    intro j hj
    have hj := Finset.mem_range.mp hj
    rw [Equation.coefficient, List.getD_eq_getElem _ _ (by simpa using hj), List.getElem_map,
      List.getD_eq_getElem _ _ hj]
    ring

end OfStored

/-! ## One more constraint -/

variable {t : Tableau ℚ} {c : StoredConstraint ℚ}

/-- A new constraint is as wide as the tableau with its slack. -/
theorem length_newEquation {α : Type} [Scalar α] {t : Tableau α} {coefficients : List α}
    (hc : coefficients.length ≤ t.columnCount) (rhs : α) :
    (t.newEquation coefficients rhs).coefficients.length = t.columnCount + 1 := by
  simp only [newEquation, List.length_append, List.length_replicate, List.length_singleton]
  omega

/-- A new constraint has its own coefficients, and one for its slack. -/
theorem coefficient_newEquation {coefficients : List ℚ} (hc : coefficients.length ≤ t.columnCount)
    (rhs : ℚ) (j : ℕ) : (t.newEquation coefficients rhs).coefficient j =
      if j = t.columnCount then 1 else coefficients.getD j 0 := by
  have hlength : (coefficients ++ List.replicate (t.columnCount - coefficients.length) (0 : ℚ)).length =
      t.columnCount := by simp only [List.length_append, List.length_replicate]; omega
  change ((⟨_, rhs⟩ : Equation ℚ).addColumn 1).coefficient j = _
  rw [Equation.coefficient_addColumn, hlength, Equation.coefficient_append]
  split
  · rfl
  · split
    · rfl
    · rename_i hpast
      rw [List.getD_eq_default _ _ (not_lt.mp hpast), List.getD_eq_getElem?_getD,
        List.getElem?_getD_replicate_default_eq]

/-- A new constraint has coefficient one for its slack. -/
theorem coefficient_newEquation_slack {coefficients : List ℚ}
    (hc : coefficients.length ≤ t.columnCount) (rhs : ℚ) :
    (t.newEquation coefficients rhs).coefficient t.columnCount = 1 := by
  rw [coefficient_newEquation hc, if_pos rfl]

/-- A new constraint holds as an equation with its slack in the new column. -/
theorem eval_newEquation (hc : c.coefficients.length ≤ t.columnCount) (v : ℕ → ℚ) :
    (t.newEquation c.coefficients c.label.rhs).eval v =
      c.equation.eval v + v t.columnCount := by
  have hlength : (c.coefficients ++
      List.replicate (t.columnCount - c.coefficients.length) (0 : ℚ)).length = t.columnCount := by
    simp only [List.length_append, List.length_replicate]
    omega
  change (⟨_ ++ [1], c.label.rhs⟩ : Equation ℚ).eval v = _
  rw [Equation.eval_append, Equation.eval_append_zeros, hlength]
  simp [StoredConstraint.equation]

/-- The rows after a constraint was added: the old ones with the new column, and the new one. -/
theorem dictionary_rows_appendStored (ht : SolvedRows t.columnCount t.dictionary.rows)
    (hc : c.coefficients.length ≤ t.columnCount) :
    (t.appendStored c).dictionary.rows = widenRows t.dictionary.rows ++
      [⟨clearBasis (t.newEquation c.coefficients c.label.rhs) (widenRows t.dictionary.rows),
        t.columnCount⟩] := by
  have hrows : (t.addZeroColumn.rows).map Row.unlabelled = widenRows t.dictionary.rows := by
    simp only [addZeroColumn, widenRows, dictionary, List.map_map]
    rfl
  have hwide := ht.widen
  rw [← hrows] at hwide
  have hreduce : (t.newEquation c.coefficients c.label.rhs).reduce t.addZeroColumn.rows =
      clearBasis (t.newEquation c.coefficients c.label.rhs) (widenRows t.dictionary.rows) := by
    rw [← hrows]
    exact Equation.reduce_eq_clearBasis (length_newEquation hc _)
      (List.forall_mem_map.mp hwide.width) (List.forall_mem_map.mp hwide.own)
  simp only [dictionary, appendStored, List.map_append, List.map_singleton]
  rw [hrows, hreduce]
  rfl

/-- A new constraint keeps the tableau canonical. -/
theorem canonical_appendStored (ht : t.dictionary.Canonical)
    (hc : c.coefficients.length ≤ t.columnCount) : (t.appendStored c).dictionary.Canonical := by
  have hwide := ht.solved.widen
  have hlength := length_newEquation hc c.label.rhs
  have hcolumns : (t.appendStored c).dictionary.columns = t.columnCount + 1 :=
    columnCount_appendStored t c
  have hunmentioned : ∀ r ∈ widenRows t.dictionary.rows, r.coefficient t.columnCount = 0 := by
    refine List.forall_mem_map.mpr fun r hr => ?_
    have hr : r.coefficients.length = t.columnCount := ht.solved.width r hr
    rw [Equation.coefficient_addColumn, if_pos hr.symm]
  have hrows := dictionary_rows_appendStored ht.solved hc
  constructor
  · rw [hcolumns, hrows]
    refine hwide.concat (length_clearBasis hlength hwide.width) ?_ hunmentioned
      fun r hr => coefficient_clearBasis hlength hwide hr
    rw [coefficient_clearBasis_of_unmentioned hlength hwide.width hunmentioned,
      coefficient_newEquation_slack hc]
  · intro r hr
    change (t.objective.addColumn 0).coefficient r.basic = 0
    rw [hrows] at hr
    rcases List.mem_append.mp hr with hr | hr
    · obtain ⟨s, hs, rfl⟩ := List.mem_map.mp hr
      rw [Equation.coefficient_addColumn]
      exact (if_neg (ht.solved.inside hs).ne).trans (ht.priced s hs)
    · rw [List.mem_singleton.mp hr, Equation.coefficient_addColumn]
      exact if_pos rfl

/-- A tableau with one more constraint encodes the program with one more constraint. -/
theorem Encodes.appendStored {costs : List ℚ} {given : List (StoredConstraint ℚ)}
    (ht : t.Encodes costs given) (hc : c.coefficients.length ≤ t.columnCount) :
    (t.appendStored c).Encodes costs (given ++ [c]) := by
  have hsolved := ht.canonical.solved
  have hrows := dictionary_rows_appendStored hsolved hc
  have hwide : ∀ v, (∀ r ∈ widenRows t.dictionary.rows, r.Holds v) ↔ t.Holds v := by
    intro v
    rw [← holds_dictionary]
    refine List.forall_mem_map.trans (forall₂_congr fun r _ => ?_)
    rw [Equation.Holds, Equation.Holds, Equation.eval_addColumn, zero_mul, add_zero]
    rfl
  have hholds : ∀ v, (t.appendStored c).Holds v ↔
      t.Holds v ∧ c.HoldsWith t.columnCount v := by
    intro v
    rw [← holds_dictionary, Dictionary.Holds, hrows, List.forall_mem_append, hwide,
      List.forall_mem_singleton]
    refine and_congr_right fun hv => ?_
    rw [Equation.holds_iff_gap_eq_zero, gap_clearBasis (length_newEquation hc _)
      hsolved.widen.width ((hwide v).mpr hv), ← Equation.holds_iff_gap_eq_zero, Equation.Holds,
      eval_newEquation hc]
    rfl
  have hstructural : (t.appendStored c).structuralCount = t.structuralCount := rfl
  refine ⟨canonical_appendStored ht.canonical hc, ?_, ?_, fun v => ?_, fun v hv => ?_⟩
  · rw [columnCount_appendStored, hstructural, ht.columns, List.length_append,
      List.length_singleton, Nat.add_assoc]
  · rw [List.map_append, ← ht.labels]
    simp [Tableau.appendStored, addZeroColumn]
  · rw [hholds, hstructural, slackForm_concat, ht.holds_iff, ht.columns]
  · have hobjective : (t.appendStored c).objective = t.objective.addColumn 0 := rfl
    rw [hobjective, Equation.gap, Equation.eval_addColumn, zero_mul, add_zero]
    exact ht.gap v ((hholds v).mp hv).1

end Tableau

end WarmSimplex
