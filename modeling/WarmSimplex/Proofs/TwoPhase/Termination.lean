import Mathlib.Data.Nat.Choose.Bounds
import WarmSimplex.Proofs.Dictionary.Bland
import WarmSimplex.Proofs.TwoPhase.FirstPhase

/-!
# Resolves come to an end

Both phases take the lowest column of negative reduced cost and, among the rows that bound it equally,
the one with the lowest basic column. Without a tolerance they therefore never come back to a set of
basic columns, and a resolve that is allowed as many pivots as there are such sets does not run out of
them.

The bound is the one that the argument gives. How many pivots a resolve makes is not looked at here.
-/

namespace WarmSimplex

namespace TwoPhase.Workspace

/-! ## The workspaces of a phase -/

section Visited

variable {α : Type} [Scalar α] {tolerance : α} {before budget : ℕ}

/-- The workspace after the next pivot of a phase, if there is one to make. -/
def next? (tolerance : α) (before : ℕ) (w : Workspace α) : Option (Workspace α) :=
  (w.enteringColumn? tolerance before).bind fun column =>
    (w.leavingRow? tolerance column).map fun row => w.pivot row column

/-- The workspaces that a phase goes through, from its first to its last one. -/
def visited (tolerance : α) (before budget : ℕ) (w : Workspace α) : List (Workspace α) :=
  trail (next? tolerance before) budget w

/-- The workspace that the second phase of a resolve starts with, if the first phase does not end the
resolve. -/
def secondStart? (options : Options α) (w : Workspace α) : Option (Workspace α) :=
  if w.artificialStart < w.columnCount then
    match w.firstPhase options with
    | (_, some _) => none
    | (reached, none) => some reached
  else some w

/-- A phase goes on from the workspace after its next pivot. -/
theorem runPhase_of_step {w next : Workspace α} (h : w.next? tolerance before = some next)
    (budget : ℕ) :
    w.runPhase tolerance before (budget + 1) = next.runPhase tolerance before budget := by
  rw [next?, Option.bind_eq_some_iff] at h
  obtain ⟨column, hcolumn, h⟩ := h
  obtain ⟨row, hrow, rfl⟩ := Option.map_eq_some_iff.mp h
  simp only [runPhase, hcolumn, hrow]

/-- A phase with pivots left stays at a workspace that has no next one, and not for lack of pivots. -/
theorem runPhase_of_stop {w : Workspace α} (h : w.next? tolerance before = none) (budget : ℕ) :
    (w.runPhase tolerance before (budget + 1)).1 = w ∧
      (w.runPhase tolerance before (budget + 1)).2 ≠ .iterationLimit := by
  cases hcolumn : w.enteringColumn? tolerance before with
  | none => simp [runPhase, hcolumn]
  | some column =>
    cases hrow : w.leavingRow? tolerance column with
    | none => simp [runPhase, hcolumn, hrow]
    | some row => simp [next?, hcolumn, hrow] at h

/-- The last workspace that a phase goes through is the one that it ends with. -/
theorem getLast?_visited (w : Workspace α) :
    (w.visited tolerance before budget).getLast? =
      some (w.runPhase tolerance before budget).1 := by
  induction budget generalizing w with
  | zero =>
    cases hcolumn : w.enteringColumn? tolerance before <;>
      simp [visited, trail, runPhase, hcolumn]
  | succ budget ih =>
    cases hnext : w.next? tolerance before with
    | none =>
      rw [visited, trail_of_stop hnext, (runPhase_of_stop hnext _).1]
      rfl
    | some next => rw [visited, getLast?_trail_of_step hnext, runPhase_of_step hnext, ← ih, visited]

/-- A phase that runs out of pivots has made as many as it was allowed. -/
theorem length_visited_of_iterationLimit {w : Workspace α}
    (h : (w.runPhase tolerance before budget).2 = .iterationLimit) :
    (w.visited tolerance before budget).length = budget + 1 := by
  induction budget generalizing w with
  | zero => rfl
  | succ budget ih =>
    cases hnext : w.next? tolerance before with
    | none => exact absurd h (runPhase_of_stop hnext budget).2
    | some next =>
      rw [runPhase_of_step hnext] at h
      rw [visited, trail_of_step hnext, List.length_cons, ← visited, ih h]

/-- A resolve that runs out of pivots does so in one of its phases. -/
theorem iterationLimit_of_run {options : Options α} {w : Workspace α}
    (h : (w.run options).2 = .iterationLimit) :
    (({ w with objective := w.artificialObjective } : Workspace α).runPhase options.tolerance
        w.columnCount options.maxIterations).2 = .iterationLimit ∨
      ∃ start, w.secondStart? options = some start ∧
        (start.runPhase options.tolerance start.artificialStart options.maxIterations).2 =
          .iterationLimit := by
  have hsecond : ∀ start : Workspace α, (start.secondPhase options).2 = .iterationLimit →
      (start.runPhase options.tolerance start.artificialStart options.maxIterations).2 =
        .iterationLimit := by
    intro start hlimit
    unfold secondPhase at hlimit
    split at hlimit <;> simp_all
  unfold run at h
  split at h
  · rename_i hartificial
    split at h
    · rename_i reached status hend
      left
      obtain rfl : status = .iterationLimit := h
      unfold firstPhase at hend
      split at hend
      · cases hend
      · rename_i hphase
        exact congrArg Prod.snd hphase
      · split at hend <;> cases hend
    · rename_i reached hend
      have hstart : w.secondStart? options = some reached := by
        simp only [secondStart?, if_pos hartificial, hend]
      exact .inr ⟨reached, hstart, hsecond reached h⟩
  · rename_i hartificial
    exact .inr ⟨w, if_neg hartificial, hsecond w h⟩

end Visited

variable {w : Workspace ℚ} {p : LinearProgram ℚ} {row column before budget : ℕ}

/-! ## Phases without a tolerance -/

/-- The pivots of a phase go by the lowest index, and keep the basis feasible. -/
theorem blandStep {next : Workspace ℚ} (hw : w.dictionary.Rewrites w.dictionary)
    (hnext : w.next? 0 before = some next) :
    next.dictionary.Rewrites next.dictionary ∧ w.dictionary.BlandStep next.dictionary := by
  rw [next?, Option.bind_eq_some_iff] at hnext
  obtain ⟨column, hcolumn, hnext⟩ := hnext
  obtain ⟨row, hrow, rfl⟩ := Option.map_eq_some_iff.mp hnext
  obtain ⟨r, hr, hrises, hlowest⟩ := leavingRow?_lowest hw.nonneg hrow
  have hpivot : w.dictionary.BlandPivot row column r := by
    refine ⟨hr, (enteringColumn?_eq_some hcolumn).2, enteringColumn?_first hcolumn, hrises,
      fun s hs hrise => ?_, fun hzero s hs hrise hidle => ?_⟩
    · exact (Prod.Lex.toLex_le_toLex.mp (hlowest s hs hrise)).elim LT.lt.le fun hsame => hsame.1.le
    · have hfirst := Prod.Lex.toLex_le_toLex.mp (hlowest s hs hrise)
      simpa [hzero, hidle] using hfirst
  have hsame := dictionary_pivot hw.canonical.solved row column
  have hrewrites := hw.blandPivot hpivot
  rw [← hsame] at hrewrites
  exact ⟨.refl hrewrites.canonical hrewrites.nonneg, row, column, r, hpivot, hsame⟩

/-- A phase from a feasible basis does not come back to a set of basic columns, and does not run out
of pivots if it is allowed as many as there are sets of columns. -/
theorem phase_terminates (hw : w.dictionary.Rewrites w.dictionary) (before budget : ℕ) :
    ((w.visited 0 before budget).map (·.dictionary.basicColumns)).Nodup ∧
      (2 ^ w.columnCount ≤ budget → (w.runPhase 0 before budget).2 ≠ .iterationLimit) := by
  obtain ⟨hnodup, hlength⟩ : ((w.visited 0 before budget).map (·.dictionary.basicColumns)).Nodup ∧
      (w.visited 0 before budget).length ≤ w.columnCount.choose w.dictionary.rows.length :=
    Dictionary.visits_bases_once (f := dictionary) (I := fun u => u.dictionary.Rewrites u.dictionary)
      (Q := fun _ => True) (fun _ _ hu _ hnext => blandStep hu hnext) hw hw fun _ _ => trivial
  refine ⟨hnodup, fun henough hlimit => ?_⟩
  have hchoose := Nat.choose_le_two_pow w.columnCount w.dictionary.rows.length
  rw [length_visited_of_iterationLimit hlimit] at hlength
  omega

/-! ## Where the phases start -/

/-- The first phase starts with a feasible basis. -/
theorem Raw.rewrites_forFirstPhase (hw : w.Raw p) :
    w.forFirstPhase.dictionary.Rewrites w.forFirstPhase.dictionary :=
  .refl (canonical_forFirstPhase hw.solved hw.artificial).1 hw.nonneg

/-- The second phase starts with a feasible basis over the same columns. -/
theorem rewrites_secondStart {maxIterations : ℕ} {start : Workspace ℚ}
    (h : (ofProgram p).secondStart? ⟨maxIterations, 0⟩ = some start) :
    start.dictionary.Rewrites start.dictionary ∧
      start.columnCount = (ofProgram p).columnCount := by
  unfold secondStart? at h
  split at h
  · have hraw := raw_ofProgram p
    split at h
    · cases h
    · rename_i reached hend
      cases h
      obtain ⟨cleared, hcleared, hbasic, hlast⟩ :=
        hraw.firstPhase_eq_none (congrArg Prod.snd hend)
      obtain rfl : start = cleared.reprice (ofProgram p).objective :=
        (congrArg Prod.fst hend).symm.trans hlast
      have hready := hraw.ready_reprice hcleared hbasic
      exact ⟨.refl hready.canonical hready.nonneg, (Raw.columnCount_reprice hcleared).2⟩
  · rename_i hno
    cases h
    have hready := ready_ofProgram (not_lt.mp hno)
    exact ⟨.refl hready.canonical hready.nonneg, rfl⟩

/-- There are no more columns than variables and two for each constraint. -/
theorem columnCount_ofProgram_le (p : LinearProgram ℚ) :
    (ofProgram p).columnCount ≤ p.variableCount + 2 * p.constraints.length := by
  have hslacks : slackCount p.constraints ≤ p.constraints.length := List.countP_le_length
  have hartificials : artificialCount p.constraints ≤ p.constraints.length := List.countP_le_length
  rw [columnCount_ofProgram]
  omega

end TwoPhase.Workspace

namespace LinearProgram

open TwoPhase (Workspace)

/-- Without a tolerance no phase of a resolve comes back to a set of basic columns, and a resolve that
is allowed as many pivots in each phase as there are sets of columns does not run out of them. -/
theorem resolve_visits_bases_once (p : LinearProgram ℚ) (maxIterations : ℕ) :
    let options : TwoPhase.Options ℚ := ⟨maxIterations, 0⟩
    let first := Workspace.ofProgram p
    ((first.forFirstPhase.visited 0 first.columnCount maxIterations).map
        (·.dictionary.basicColumns)).Nodup ∧
      (∀ start, first.secondStart? options = some start →
        ((start.visited 0 start.artificialStart maxIterations).map
          (·.dictionary.basicColumns)).Nodup) ∧
      (2 ^ (p.variableCount + 2 * p.constraints.length) ≤ maxIterations →
        (p.resolve options).status ≠ .iterationLimit) := by
  intro options first
  have hraw := Workspace.raw_ofProgram p
  have hcolumns := Workspace.columnCount_ofProgram_le p
  have hfirst := Workspace.phase_terminates hraw.rewrites_forFirstPhase first.columnCount maxIterations
  refine ⟨hfirst.1, fun start hstart => ?_, fun henough hstatus => ?_⟩
  · exact (Workspace.phase_terminates (Workspace.rewrites_secondStart hstart).1 _ _).1
  · have hpower : 2 ^ first.columnCount ≤ maxIterations :=
      (Nat.pow_le_pow_right (by norm_num) hcolumns).trans henough
    have hrun : (first.run options).2 = .iterationLimit := by
      unfold resolve at hstatus
      split at hstatus
      · cases hstatus
      · rename_i w status _ hend
        rw [hend]
        exact hstatus
    rcases Workspace.iterationLimit_of_run hrun with hlimit | ⟨start, hstart, hlimit⟩
    · have hwidth := (Workspace.canonical_forFirstPhase hraw.solved hraw.artificial).2.1
      exact hfirst.2 (hwidth ▸ hpower) hlimit
    · obtain ⟨hrewrites, hwidth⟩ := Workspace.rewrites_secondStart hstart
      exact (Workspace.phase_terminates hrewrites _ _).2 (hwidth ▸ hpower) hlimit

/-- Both phases of a program whose first basis is all artificial, with an equation whose right-hand
side is zero. -/
theorem resolve_ends_from_artificial_basis :
    let p : LinearProgram ℚ :=
      ⟨["x", "y"], ⟨[1, 2], .minimize⟩, [⟨"demand", [1, 1], .ge, 2⟩, ⟨"balance", [1, -1], .eq, 0⟩]⟩
    let options : TwoPhase.Options ℚ := ⟨64, 0⟩
    let first := Workspace.ofProgram p
    2 ^ (p.variableCount + 2 * p.constraints.length) ≤ 64 ∧
      ((first.forFirstPhase.visited 0 first.columnCount 64).map
        (·.dictionary.basicColumns)).Nodup ∧
      (∃ start, first.secondStart? options = some start ∧
        ((start.visited 0 start.artificialStart 64).map (·.dictionary.basicColumns)).Nodup) ∧
      (p.resolve options).status ≠ .iterationLimit := by
  intro p options first
  have henough : 2 ^ (p.variableCount + 2 * p.constraints.length) ≤ 64 := by decide
  obtain ⟨start, hstart⟩ : ∃ start, first.secondStart? options = some start :=
    Option.isSome_iff_exists.mp (by decide +kernel)
  obtain ⟨honce, hagain, hends⟩ := resolve_visits_bases_once p 64
  exact ⟨henough, honce, ⟨start, hstart, hagain start hstart⟩, hends henough⟩

end LinearProgram

end WarmSimplex
