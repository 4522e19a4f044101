import WarmSimplex.Proofs.Cancellation
import WarmSimplex.Proofs.TwoPhase.Course

/-!
# Artificial columns in the basis

How many rows can have an artificial basic column when the first phase ends depends on what elimination
leaves in the columns that it clears. In exact arithmetic this is zero. With rounding it is enough that
it is zero or undefined: then a basic column cannot enter and be basic in two rows, but for a phase that
finds the same column again and again and so never gets to its optimum. Without that a column can be
basic in several rows, and all that is left is that there are no more such rows than rows.

Binary64 arithmetic is of this kind with any tolerance, and exact arithmetic with one that is not
negative, so there the artificial columns bound the pivots between the phases. In an arithmetic that
leaves a remainder where it should cancel there can be one for each constraint.
-/

namespace WarmSimplex

namespace TwoPhase

open Scalar

variable {α : Type} [Scalar α] {tolerance : α}

section Clearing

variable {target r : Equation α} {column j : ℕ}

/-- Clearing leaves a coefficient blank if it is blank on both sides. -/
theorem blank_clearWith_of_blank (hc : Cancels tolerance)
    (hwidth : r.coefficients.length = target.coefficients.length) (hj : j < target.coefficients.length)
    (htarget : Blank (target.coefficient j)) (hr : Blank (r.coefficient j)) :
    Blank ((clearWith target r column).coefficient j) := by
  simp only [clearWith]
  split
  · exact htarget
  · rw [Equation.coefficient_subtractMultiple_of_lt _ hwidth hj]
    exact hc.sub _ _ htarget (hc.mul _ _ hr)

/-- Clearing leaves the coefficient blank that it clears. -/
theorem blank_clearWith_self (hc : Cancels tolerance)
    (hwidth : r.coefficients.length = target.coefficients.length)
    (hcolumn : column < target.coefficients.length) (hentry : tolerance < r.coefficient column) :
    Blank ((clearWith target (r.divide (r.coefficient column)) column).coefficient column) := by
  simp only [clearWith]
  split
  · rename_i hzero
    exact .inl hzero
  · rw [Equation.coefficient_subtractMultiple_of_lt _ (by rw [Equation.length_divide, hwidth]) hcolumn,
      Equation.coefficient_divide_of_lt _ (hwidth.symm ▸ hcolumn)]
    exact hc.cancel _ _ hentry

end Clearing

namespace Workspace

variable {w : Workspace α} {row column : ℕ} {r : BasicRow α}

/-! ## Cleared columns -/

/-- The basic columns are different ones, and blank in the other rows and in the objective. -/
structure Cleared (w : Workspace α) : Prop where
  nodup : (w.rows.map (·.basic)).Nodup
  other : ∀ {i k : ℕ} {r s : BasicRow α}, w.rows[i]? = some r → w.rows[k]? = some s → i ≠ k →
    Blank (r.coefficient s.basic)
  objective : ∀ r ∈ w.rows, Blank (w.objective.coefficient r.basic)

/-- Different basic columns are no more than there are, so no more rows than artificial columns have an
artificial one. -/
theorem Cleared.artificialBasics_le (h : w.Cleared) (hw : w.Regular) :
    w.artificialBasics ≤ w.columnCount - w.artificialStart := by
  have hsubset : (w.rows.map (·.basic)).filter (fun column => decide (w.artificialStart ≤ column)) ⊆
      List.range' w.artificialStart (w.columnCount - w.artificialStart) := by
    intro column hcolumn
    obtain ⟨hmem, hhigh⟩ := List.mem_filter.mp hcolumn
    obtain ⟨r, hr, rfl⟩ := List.mem_map.mp hmem
    have hlow := hw.basic_lt r hr
    have hhigh := of_decide_eq_true hhigh
    exact List.mem_range'_1.mpr ⟨hhigh, by omega⟩
  rw [artificialBasics_eq, List.countP_eq_length_filter]
  exact (List.subperm_of_subset (h.nodup.filter _) hsubset).length_le.trans_eq List.length_range'

/-- The row that is solved for another column stays blank in the basic columns of the other rows. -/
theorem Cleared.blank_divide (h : w.Cleared) (hw : w.Regular) (hc : Cancels tolerance)
    (hr : w.rows[row]? = some r) (divisor : α) {k : ℕ} {s : BasicRow α} (hs : w.rows[k]? = some s)
    (hk : k ≠ row) : Blank ((r.divide divisor).coefficient s.basic) := by
  have hin : s.basic < r.coefficients.length := by
    rw [hw.width r (List.mem_of_getElem? hr)]
    exact hw.basic_lt s (List.mem_of_getElem? hs)
  rw [Equation.coefficient_divide_of_lt _ hin]
  exact hc.div _ _ (h.other hr hs hk.symm)

/-- What is blank in the basic columns, but for that of the leaving row, is blank in the new ones once the
entering column is cleared. -/
theorem Cleared.blank_clearWith (h : w.Cleared) (hw : w.Regular) (hc : Cancels tolerance)
    (hr : w.rows[row]? = some r) (hentry : tolerance < r.coefficient column)
    (hcolumn : column < w.columnCount) {target : Equation α}
    (htarget : target.coefficients.length = w.columnCount) {k : ℕ}
    (hblank : ∀ s, w.rows[k]? = some s → k ≠ row → Blank (target.coefficient s.basic))
    {s : BasicRow α} (hs : (w.pivot row column).rows[k]? = some s) :
    Blank ((clearWith target (r.divide (r.coefficient column)) column).coefficient s.basic) := by
  have hwidth := (hw.width r (List.mem_of_getElem? hr)).trans htarget.symm
  rw [getElem?_rows_pivot hr, Option.map_eq_some_iff] at hs
  obtain ⟨old, hold, rfl⟩ := hs
  by_cases hk : k = row
  · rw [if_pos hk]
    exact blank_clearWith_self hc hwidth (htarget.symm ▸ hcolumn) hentry
  · rw [if_neg hk]
    exact blank_clearWith_of_blank hc (by rw [Equation.length_divide, hwidth])
      (htarget.symm ▸ hw.basic_lt old (List.mem_of_getElem? hold)) (hblank old hold hk)
      (h.blank_divide (s := old) hw hc hr _ hold hk)

/-- A pivot in a column that is not basic keeps the basic columns cleared. -/
theorem Cleared.pivot (h : w.Cleared) (hw : w.Regular) (hc : Cancels tolerance)
    (hr : w.rows[row]? = some r) (hentry : tolerance < r.coefficient column)
    (hcolumn : column < w.columnCount) (hnew : column ∉ w.rows.map (·.basic)) :
    (w.pivot row column).Cleared := by
  refine ⟨?nodup, fun {i k s t} hs ht hne => ?other, fun s hs => ?objective⟩
  case nodup =>
    rw [basis_pivot]
    exact h.nodup.set hnew
  case other =>
    rw [getElem?_rows_pivot hr, Option.map_eq_some_iff] at hs
    obtain ⟨old, hold, rfl⟩ := hs
    by_cases hi : i = row
    · rw [getElem?_rows_pivot hr, Option.map_eq_some_iff] at ht
      obtain ⟨other, hother, rfl⟩ := ht
      rw [if_pos hi, if_neg (hi ▸ hne.symm)]
      exact h.blank_divide (s := other) hw hc hr _ hother (hi ▸ hne.symm)
    · rw [if_neg hi]
      exact h.blank_clearWith hw hc hr hentry hcolumn (hw.width old (List.mem_of_getElem? hold))
        (fun u hu _ => h.other hold hu hne) ht
  case objective =>
    obtain ⟨k, hk⟩ := List.mem_iff_getElem?.mp hs
    rw [objective_pivot hr]
    exact h.blank_clearWith hw hc hr hentry hcolumn rfl
      (fun u hu _ => h.objective u (List.mem_of_getElem? hu)) hk

/-! ## Phases that do not get on -/

/-- The entering column has a reduced cost of zero. -/
def Stuck (w : Workspace α) (tolerance : α) : Prop :=
  ∃ column, w.enteringColumn? tolerance w.columnCount = some column ∧
    (w.objective.coefficient column == 0) = true

/-- A pivot then leaves the objective as it is. -/
theorem Stuck.pivot (h : w.Stuck tolerance)
    (hcolumn : w.enteringColumn? tolerance w.columnCount = some column) (row : ℕ) :
    (w.pivot row column).Stuck tolerance := by
  obtain ⟨found, hfound, hzero⟩ := h
  rw [hcolumn, Option.some.injEq] at hfound
  rw [← hfound] at hzero
  have hobjective : (w.pivot row column).objective = w.objective := by
    cases hr : w.rows[row]? with
    | none => simp only [Workspace.pivot, hr]
    | some r => rw [objective_pivot hr, clearWith]; exact if_pos hzero
  exact ⟨column, by rw [enteringColumn?, columnCount, hobjective]; exact hcolumn,
    by rw [hobjective]; exact hzero⟩

/-- The first phase keeps its basic columns cleared or does not get on. So once no column enters there
are no more rows with an artificial basic column than artificial columns. -/
theorem bounding_of_cancels (hc : Cancels tolerance) (first : Workspace α) :
    Bounding tolerance (first.columnCount - first.artificialStart) fun w =>
      first.Within w ∧ (w.Cleared ∨ w.Stuck tolerance) := by
  constructor
  case pivot =>
    rintro w column row ⟨hwithin, hstate⟩ hw hcolumn hrow
    have hin := (enteringColumn?_lt hcolumn).2
    obtain ⟨r, hr, hentry⟩ := exists_of_leavingRow? hrow
    refine ⟨hwithin.pivot hin row, ?_⟩
    rcases hstate with hcleared | hstuck
    · by_cases hbasic : column ∈ w.rows.map (·.basic)
      · obtain ⟨s, hs, rfl⟩ := List.mem_map.mp hbasic
        rcases hcleared.objective s hs with hzero | hundefined
        · exact .inr (Stuck.pivot ⟨s.basic, hcolumn, hzero⟩ hcolumn row)
        · exact absurd (enteringColumn?_cost hcolumn) (hc.not_lt _ _ hundefined)
      · exact .inl (hcleared.pivot hw hc hr hentry hin hbasic)
    · exact .inr (hstuck.pivot hcolumn row)
  case room =>
    rintro w ⟨hwithin, hstate⟩ hw hnone
    rcases hstate with hcleared | ⟨column, hcolumn, -⟩
    · rw [← hwithin.columnCount, ← hwithin.artificialStart]
      exact hcleared.artificialBasics_le hw
    · rw [hnone] at hcolumn
      cases hcolumn

/-! ## The first basis -/

/-- An entry of a list without repeated keys stands between entries with other keys. -/
theorem exists_append_of_key {β : Type} {key : β → ℕ} {entries : List β} {entry : β}
    (hnodup : (entries.map key).Nodup) (hentry : entry ∈ entries) : ∃ before after,
      entries = before ++ entry :: after ∧
        ∀ other ∈ before ++ after, other ∈ entries ∧ key other ≠ key entry := by
  obtain ⟨before, after, rfl⟩ := List.append_of_mem hentry
  rw [List.map_append, List.map_cons, List.nodup_middle, ← List.map_append, List.nodup_cons] at hnodup
  refine ⟨before, after, rfl, fun other hother => ⟨?_, fun hsame => ?_⟩⟩
  · rcases List.mem_append.mp hother with hbefore | hafter
    · exact List.mem_append_left _ hbefore
    · exact List.mem_append_right _ (List.mem_cons_of_mem _ hafter)
  · exact hnodup.1 (hsame ▸ List.mem_map_of_mem hother)

/-- Subtracting rows that do not mention a column keeps what holds of its coefficient. -/
theorem foldl_subtract_keeps {Q : α → Prop} (hQ : ∀ a, Q a → Q (a - 1 * 0)) (start : ℕ) {columns j : ℕ}
    {rows : List (BasicRow α)} (hwidth : ∀ r ∈ rows, r.coefficients.length = columns)
    (hzero : ∀ r ∈ rows, r.coefficient j = 0) (hj : j < columns) {e : Equation α}
    (he : e.coefficients.length = columns ∧ Q (e.coefficient j)) :
    (rows.foldl (fun e r => if r.basic < start then e else e.subtractMultiple 1 r.toEquation)
        e).coefficients.length = columns ∧
      Q ((rows.foldl (fun e r => if r.basic < start then e else e.subtractMultiple 1 r.toEquation)
        e).coefficient j) := by
  refine List.foldlRecOn (motive := fun e : Equation α => e.coefficients.length = columns ∧
    Q (e.coefficient j)) rows _ he fun e he r hr => ?_
  split
  · exact he
  · have hsame : r.coefficients.length = e.coefficients.length := by rw [hwidth r hr, he.1]
    refine ⟨by rw [Equation.length_subtractMultiple, hsame, min_self, he.1], ?_⟩
    rw [Equation.coefficient_subtractMultiple_of_lt _ hsame (he.1.symm ▸ hj), hzero r hr]
    exact hQ _ he.2

/-- The first phase starts with an objective in which the basic columns are blank. -/
theorem blank_artificialObjective (hc : Cancels tolerance) (hw : w.Regular)
    (hown : ∀ r ∈ w.rows, r.coefficient r.basic = 1)
    (hother : ∀ r ∈ w.rows, ∀ s ∈ w.rows, s.basic ≠ r.basic → r.coefficient s.basic = 0)
    (hnodup : (w.rows.map (·.basic)).Nodup) {s : BasicRow α} (hs : s ∈ w.rows) :
    Blank (w.artificialObjective.coefficient s.basic) := by
  obtain ⟨before, after, hsplit, hrest⟩ := exists_append_of_key hnodup hs
  have hj := hw.basic_lt s hs
  have hwidth : ∀ r ∈ before ++ after, r.coefficients.length = w.columnCount :=
    fun r hr => hw.width r (hrest r hr).1
  have hzero : ∀ r ∈ before ++ after, r.coefficient s.basic = 0 :=
    fun r hr => hother r (hrest r hr).1 s hs (hrest r hr).2.symm
  rw [List.forall_mem_append] at hzero hwidth
  have hblank : ∀ a : α, Blank a → Blank (a - 1 * 0) := fun a ha => hc.sub _ _ ha (hc.mul _ _ hc.zero)
  have hlength := length_artificialCosts hw.artificialStart_le
  have hcost := coefficient_artificialCosts hj
  rw [artificialObjective_eq_foldl, hsplit, List.foldl_append, List.foldl_cons]
  -- The rows before keep the coefficient, the row itself clears it, and those after keep it clear.
  refine (foldl_subtract_keeps hblank _ hwidth.2 hzero.2 hj ?_).2
  by_cases hlow : s.basic < w.artificialStart
  · rw [if_pos hlow] at hcost ⊢
    exact foldl_subtract_keeps hblank _ hwidth.1 hzero.1 hj ⟨hlength, hcost.symm ▸ hc.zero⟩
  · rw [if_neg hlow] at hcost ⊢
    obtain ⟨hbefore, hone⟩ := foldl_subtract_keeps (Q := (· = 1))
      (by rintro a rfl; exact hc.one_sub_zero) w.artificialStart hwidth.1 hzero.1 hj ⟨hlength, hcost⟩
    have hsame := (hw.width s hs).trans hbefore.symm
    refine ⟨by rw [Equation.length_subtractMultiple, hsame, min_self, hbefore], ?_⟩
    rw [Equation.coefficient_subtractMultiple_of_lt _ hsame (hbefore.symm ▸ hj), hone, hown s hs]
    exact hc.one_sub_one

/-- The first phase starts with its basic columns cleared. -/
theorem cleared_ofProgram (hc : Cancels tolerance) (p : LinearProgram α) :
    ({ ofProgram p with objective := (ofProgram p).artificialObjective } : Workspace α).Cleared := by
  have hfits := fits_ofProgram p
  have hnodup : ((ofProgram p).rows.map (·.basic)).Nodup := nodup_initialRows hfits
  refine ⟨hnodup, fun {i k r s} hr hs hne => ?other, fun s hs => ?objective⟩
  case other =>
    have hdifferent : s.basic ≠ r.basic := by
      intro hsame
      have hi : i < ((ofProgram p).rows.map (·.basic)).length := by
        rw [List.length_map]
        exact (List.getElem?_eq_some_iff.mp hr).1
      refine hne ((List.getElem?_inj hi hnodup).mp ?_)
      rw [List.getElem?_map, List.getElem?_map, hr, hs, Option.map_some, Option.map_some, hsame]
    have hzero := coefficient_initialRows_other hfits (List.mem_of_getElem? hr)
      (List.mem_of_getElem? hs) hdifferent
    exact hzero ▸ hc.zero
  case objective =>
    exact blank_artificialObjective hc (regular_ofProgram p)
      (fun r hr => coefficient_initialRows_own hfits hr)
      (fun r hr t ht hne => coefficient_initialRows_other hfits hr ht hne) hnodup hs

/-- Whatever the arithmetic, no more rows have an artificial basic column than there are rows. -/
theorem bounding_length (tolerance : α) (room : ℕ) :
    Bounding tolerance room fun w => w.rows.length ≤ room := by
  constructor
  case pivot =>
    intro w column row hlength _ _ _
    rwa [length_rows_pivot]
  case room => exact fun hlength _ _ => List.countP_le_length.trans hlength

/-- Without artificial columns no row has one as its basic column. -/
theorem bounding_of_none (tolerance : α) {first : Workspace α}
    (h : first.columnCount ≤ first.artificialStart) : Bounding tolerance 0 first.Within := by
  constructor
  case pivot => exact fun hwithin _ hcolumn _ => hwithin.pivot (enteringColumn?_lt hcolumn).2 _
  case room =>
    intro w hwithin hw _
    have hlow : ∀ r ∈ w.rows, ¬decide (w.artificialStart ≤ r.basic) = true := by
      intro r hr
      have hbasic := hw.basic_lt r hr
      rw [hwithin.columnCount] at hbasic
      rw [hwithin.artificialStart, decide_eq_true_eq]
      omega
    exact (List.countP_eq_zero.mpr hlow).le

end Workspace

/-! ## Every step is in range -/

/-- The outcome on plain rows is that of the resolve. -/
theorem Workspace.Regular.outcome_dense {w : Workspace α} (h : w.Regular) {options : Options α}
    {p : LinearProgram α} {status : Status} (hrun : (ofProgram p).run options = (w, status)) :
    w.dense.outcome p status = some (p.resolve options) := by
  rw [LinearProgram.resolve, hrun]
  cases status with
  | optimal => rw [Dense.outcome, h.values_dense]; rfl
  | infeasible | unbounded | iterationLimit | timeLimit => rfl

/-- Whatever the arithmetic, a resolve stays on course with room for a pivot for each constraint. -/
theorem exists_onCourse_length (options : Options α) (p : LinearProgram α) (n : ℕ) :
    ∃ stage w, Machine.after options p n = some ⟨stage, w.dense⟩ ∧
      OnCourse options p p.constraints.length (fun w => w.rows.length ≤ p.constraints.length) n
        stage w :=
  exists_onCourse (Workspace.bounding_length options.tolerance p.constraints.length)
    (Workspace.length_initialRows _ _ _ _ _).le n

/-- The first phase starts with the columns of the program. -/
theorem Workspace.within_firstPhase (p : LinearProgram α) :
    (ofProgram p).Within { ofProgram p with objective := (ofProgram p).artificialObjective } := by
  have hregular := regular_ofProgram p
  exact hregular.within.withObjective hregular.priceOut_dense.2

/-- The artificial columns of a workspace are those that the constraints need. -/
theorem Workspace.artificialColumns_ofProgram (p : LinearProgram α) :
    (ofProgram p).columnCount - (ofProgram p).artificialStart = artificialCount p.constraints := by
  rw [columnCount_ofProgram, show (ofProgram p).artificialStart =
    p.variableCount + slackCount p.constraints from rfl, Nat.add_sub_cancel_left]

namespace Machine

variable {options : Options α} {p : LinearProgram α} {n : ℕ} {s : Machine α}

/-- A bound on the rows with an artificial basic column bounds the pivots of a resolve. -/
theorem iterations_le {room : ℕ} {I : Workspace α → Prop}
    (hI : Workspace.Bounding options.tolerance room I)
    (hstart : I { Workspace.ofProgram p with
      objective := (Workspace.ofProgram p).artificialObjective })
    (hs : after options p n = some s) : s.tableau.iterations ≤ 2 * options.maxIterations + room := by
  obtain ⟨stage, w, hafter, hw⟩ := exists_onCourse hI hstart n
  rw [hs, Option.some.injEq] at hafter
  rw [hafter]
  exact hw.accounts.iterations_le

/-- Without artificial columns there are no pivots between the phases. -/
theorem iterations_le_of_none (hnone : artificialCount p.constraints = 0)
    (hs : after options p n = some s) : s.tableau.iterations ≤ 2 * options.maxIterations := by
  have hcolumns := Workspace.artificialColumns_ofProgram p
  rw [hnone] at hcolumns
  exact iterations_le (Workspace.bounding_of_none _ (Nat.sub_eq_zero_iff_le.mp hcolumns))
    (Workspace.within_firstPhase p) hs

/-- If the arithmetic cancels, the pivots between the phases are no more than the artificial columns. -/
theorem iterations_le_of_cancels (hc : Cancels options.tolerance) (hs : after options p n = some s) :
    s.tableau.iterations ≤ 2 * options.maxIterations + artificialCount p.constraints := by
  rw [← Workspace.artificialColumns_ofProgram]
  exact iterations_le (Workspace.bounding_of_cancels hc (Workspace.ofProgram p))
    ⟨Workspace.within_firstPhase p, .inl (Workspace.cleared_ofProgram hc p)⟩ hs

/-- A resolve gets done, with the outcome of `LinearProgram.resolve`. -/
theorem exists_done (options : Options α) (p : LinearProgram α) : ∃ s status,
    after options p (2 * options.maxIterations + p.constraints.length + 3) = some s ∧
      s.stage = .done status ∧ s.tableau.outcome p status = some (p.resolve options) := by
  obtain ⟨stage, w, hafter, hw⟩ :=
    exists_onCourse_length options p (2 * options.maxIterations + p.constraints.length + 3)
  have hover : stage.stepsLeft options w = 0 := by
    have hpace := hw.pace
    omega
  obtain ⟨status, rfl⟩ := Stage.eq_done_of_stepsLeft hover
  exact ⟨_, status, hafter, rfl, hw.within.regular.outcome_dense hw.rest.symm⟩

end Machine

/-- The outcome counts the pivots that led to the rows that it is read from. -/
theorem Dense.iterations_of_outcome {d : Dense α} {p : LinearProgram α} {status : Status}
    {outcome : Outcome α} (h : d.outcome p status = some outcome) :
    outcome.iterations = d.iterations := by
  cases status with
  | optimal =>
    obtain ⟨values, -, rfl⟩ := Option.map_eq_some_iff.mp h
    rfl
  | infeasible | unbounded | iterationLimit | timeLimit =>
    cases h
    rfl

end TwoPhase

namespace LinearProgram

open TwoPhase

/-! ## The pivots of a resolve -/

/-- If the arithmetic cancels, a resolve makes at most one pivot for each artificial column besides those
of its phases. -/
theorem iterations_resolve_le_of_cancels {α : Type} [Scalar α] {options : Options α}
    (hc : Scalar.Cancels options.tolerance) (p : LinearProgram α) :
    (p.resolve options).iterations ≤ 2 * options.maxIterations + artificialCount p.constraints := by
  obtain ⟨s, status, hs, -, houtcome⟩ := Machine.exists_done options p
  rw [Dense.iterations_of_outcome houtcome]
  exact Machine.iterations_le_of_cancels hc hs

/-- So it does in binary64 arithmetic, whatever the tolerance is. -/
theorem iterations_resolve_le_float (options : Options Float) (p : LinearProgram Float) :
    (p.resolve options).iterations ≤ 2 * options.maxIterations + artificialCount p.constraints :=
  iterations_resolve_le_of_cancels (Scalar.cancels_float options.tolerance) p

/-- Two equations that say the same of one variable, with no pivot allowed in a phase: the first row is
solved for the variable between the phases, and the second one is dropped. -/
example :
    let p : LinearProgram Float :=
      ⟨["x"], ⟨[1], .maximize⟩, [⟨"first", [-1], .eq, 0⟩, ⟨"again", [-2], .eq, 0⟩]⟩
    ((Machine.after ⟨0, 0⟩ p 5).map fun s => (s.tableau.data, s.tableau.basics, s.tableau.iterations)) =
      some ([[1, -1, -0, -0], [0, -1, 0, 0]], [0], 1) := by
  decide +kernel

end LinearProgram

/-! ## An arithmetic that does not cancel -/

/-- Integers with quotients that are one too large. A number less itself is minus one. -/
structure Inexact where
  toInt : ℤ
deriving DecidableEq

/-- The other operations and the order are those of the integers. -/
instance : Scalar Inexact where
  zero := ⟨0⟩
  one := ⟨1⟩
  neg a := ⟨-a.toInt⟩
  add a b := ⟨a.toInt + b.toInt⟩
  sub a b := if a = b then ⟨-1⟩ else ⟨a.toInt - b.toInt⟩
  mul a b := ⟨a.toInt * b.toInt⟩
  div a b := ⟨a.toInt / b.toInt + 1⟩
  lt a b := a.toInt < b.toInt
  le a b := a.toInt ≤ b.toInt
  beq a b := a == b
  decideLT a b := inferInstanceAs (Decidable (a.toInt < b.toInt))
  decideLE a b := inferInstanceAs (Decidable (a.toInt ≤ b.toInt))
  abs a := ⟨|a.toInt|⟩
  isNaN _ := false
  isFinite _ := true
  totalLE a b := decide (a.toInt ≤ b.toInt)
  defaultTolerance := ⟨0⟩

namespace LinearProgram

open TwoPhase

end LinearProgram

end WarmSimplex
