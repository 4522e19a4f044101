import Mathlib.Data.Option.Basic
import WarmSimplex.Proofs.StoredForms
import WarmSimplex.Proofs.Tableau.Building

/-!
# Where a tableau starts

A tableau is built from a matrix or from a program. Both ways lead to the slack basis of a program
that has a coefficient for every variable everywhere and no equation, and the tableau encodes this
program.

A matrix is taken as the program that maximizes over `≤` constraints with the default names. That
its right-hand sides are not negative is not needed for what the tableau encodes.
-/

namespace WarmSimplex

namespace LinearProgram

/-- There is a coefficient for every variable everywhere, and no constraint is an equation. -/
structure Shaped (p : LinearProgram ℚ) : Prop where
  objective : p.objective.coefficients.length = p.variableCount
  width : ∀ c ∈ p.constraints, c.coefficients.length = p.variableCount
  inequality : ∀ c ∈ p.constraints, c.relation ≠ .eq

/-- The tableau of a program with the slacks as its basis. -/
def slackTableau (p : LinearProgram ℚ) : Tableau ℚ :=
  .ofStored p.decisions p.objective.sense p.costs (storedForms p.constraints)

/-- The program "maximize `c · x` subject to `a x ≤ b`", with the default names. -/
def ofMatrix (a : List (List ℚ)) (b c : List ℚ) : LinearProgram ℚ where
  variableNames := (List.range c.length).map Tableau.defaultVariableName
  objective := ⟨c, .maximize⟩
  constraints := (a.zip b).zipIdx.map fun ((row, rhs), i) =>
    ⟨Tableau.defaultConstraintName i, row, .le, rhs⟩

/-- The slack tableau of a program has its variables as structural columns. -/
theorem structuralCount_slackTableau {p : LinearProgram ℚ} (hp : p.Shaped) :
    p.slackTableau.structuralCount = p.variableCount := by
  have hnames : p.variableNames.length = p.objective.coefficients.length := hp.objective.symm
  change p.decisions.length = p.variableNames.length
  rw [decisions, List.length_zipWith, hnames, min_self]

/-- The slack tableau encodes its program. -/
theorem encodes_slackTableau {p : LinearProgram ℚ} (hp : p.Shaped) :
    p.slackTableau.Encodes p.costs (storedForms p.constraints) := by
  have hcosts : p.costs.length = p.variableCount := by
    rw [costs, List.length_map, hp.objective]
  have hdecisions : p.decisions.length = p.costs.length :=
    (structuralCount_slackTableau hp).trans hcosts.symm
  apply Tableau.encodes_ofStored hdecisions
  apply length_of_mem_storedForms
  intro c hc
  rw [hp.width c hc, hcosts]

end LinearProgram

/-! ## Programs -/

/-- A constraint that can be stored has the right width and a `≤` form. -/
theorem Constraint.store_eq_ok {α : Type} [Scalar α] {c : Constraint α} {s : StoredConstraint α}
    {width : ℕ} (h : c.store width = .ok s) : c.coefficients.length = width ∧ c.stored? = some s := by
  rw [store] at h
  split at h
  · cases h
  · rename_i hwidth
    split at h
    · rename_i stored hstored
      cases h
      exact ⟨not_not.mp hwidth, hstored⟩
    · cases h

/-- Constraints that can be stored give their forms, and are inequalities of the right width. -/
theorem storeAll_eq_ok {width : ℕ} {constraints : List (Constraint ℚ)}
    {stored : List (StoredConstraint ℚ)} (h : storeAll width constraints = .ok stored) :
    stored = storedForms constraints ∧
      ∀ c ∈ constraints, c.coefficients.length = width ∧ c.relation ≠ .eq := by
  induction constraints generalizing stored with
  | nil =>
    cases h
    exact ⟨rfl, by simp⟩
  | cons c rest ih =>
    rw [storeAll] at h
    split at h
    · cases h
    · rename_i s hs
      split at h
      · cases h
      · rename_i others hothers
        cases h
        obtain ⟨hwidth, hform⟩ := Constraint.store_eq_ok hs
        obtain ⟨rfl, hrest⟩ := ih hothers
        have hrelation : c.relation ≠ .eq := by
          rw [Ne, ← Constraint.stored?_eq_none_iff, hform]
          simp
        refine ⟨?_, List.forall_mem_cons.mpr ⟨⟨hwidth, hrelation⟩, hrest⟩⟩
        rw [storedForms_cons hform]

/-- A program that is accepted starts with its slack tableau. -/
theorem LinearProgram.toTableau_eq_ok {p : LinearProgram ℚ} {t : Tableau ℚ}
    (h : p.toTableau = .ok t) : p.Shaped ∧ t = p.slackTableau := by
  rw [toTableau] at h
  split at h
  · cases h
  · rename_i hobjective
    split at h
    · cases h
    · rename_i stored hstored
      split at h
      · cases h
      · cases h
        obtain ⟨rfl, hconstraints⟩ := storeAll_eq_ok hstored
        exact ⟨⟨not_not.mp hobjective, fun c hc => (hconstraints c hc).1,
          fun c hc => (hconstraints c hc).2⟩, rfl⟩

/-! ## Matrices -/

/-- Inequalities made from entries one by one have their forms made one by one. -/
theorem storedForms_map {β : Type} {f : β → Constraint ℚ} {g : β → StoredConstraint ℚ}
    (hform : ∀ entry, (f entry).stored? = some (g entry)) (entries : List β) :
    storedForms (entries.map f) = entries.map g := by
  induction entries with
  | nil => rfl
  | cons entry rest ih =>
    rw [List.map_cons, List.map_cons, storedForms_cons (hform entry), ih]

/-- A matrix without a fault has rows as wide as the costs. -/
theorem width_of_shapeFault? {α : Type} [Scalar α] {a : List (List α)} {b c : List α}
    (h : shapeFault? a b c = none) :
    ∀ row ∈ a, row.length = c.length := by
  intro row hrow
  rw [shapeFault?] at h
  split at h
  · cases h
  · split at h
    · cases h
    · obtain ⟨hrows, _⟩ := (Option.orElse_eq_none _ _).mp h
      obtain ⟨i, hi⟩ := List.mem_iff_getElem?.mp hrow
      have hfault := List.findSome?_eq_none_iff.mp hrows (row, i) (List.mem_zipIdx_iff_getElem?.mpr hi)
      by_contra hwidth
      simp [rowFault?, hwidth] at hfault

/-- A matrix without a fault has as many rows as right-hand sides. -/
theorem length_of_shapeFault? {α : Type} [Scalar α] {a : List (List α)} {b c : List α}
    (h : shapeFault? a b c = none) : a.length = b.length := by
  rw [shapeFault?] at h
  split at h
  · cases h
  · split at h
    · cases h
    · rename_i hlength
      exact not_not.mp hlength

/-- A matrix that is accepted starts with the slack tableau of its program. -/
theorem Tableau.ofMatrix_eq_ok {a : List (List ℚ)} {b c : List ℚ} {t : Tableau ℚ}
    (h : Tableau.ofMatrix a b c = .ok t) :
    (LinearProgram.ofMatrix a b c).Shaped ∧ t = (LinearProgram.ofMatrix a b c).slackTableau := by
  rw [ofMatrix] at h
  split at h
  · cases h
  · rename_i hfault
    cases h
    obtain ⟨_, hshape⟩ := (Option.orElse_eq_none _ _).mp hfault
    have hcount : (LinearProgram.ofMatrix a b c).variableCount = c.length := by
      simp [LinearProgram.variableCount, LinearProgram.ofMatrix]
    refine ⟨⟨hcount.symm, ?_, ?_⟩, ?_⟩
    · intro d hd
      obtain ⟨⟨⟨row, rhs⟩, i⟩, hmem, rfl⟩ := List.mem_map.mp hd
      have hrow : row ∈ a := (List.of_mem_zip (List.fst_mem_of_mem_zipIdx hmem)).1
      rw [hcount, width_of_shapeFault? hshape row hrow]
    · intro d hd
      obtain ⟨_, _, rfl⟩ := List.mem_map.mp hd
      simp
    · have hdecisions : (LinearProgram.ofMatrix a b c).decisions =
          c.zipIdx.map fun (cost, j) => ⟨defaultVariableName j, cost⟩ := by
        apply List.ext_getElem (by simp [LinearProgram.decisions, LinearProgram.ofMatrix])
        intro i _ _
        simp [LinearProgram.decisions, LinearProgram.ofMatrix]
      have hcosts : (LinearProgram.ofMatrix a b c).costs = c := by
        simp [LinearProgram.costs, LinearProgram.ofMatrix, Sense.sign]
      have hforms : storedForms (LinearProgram.ofMatrix a b c).constraints =
          (a.zip b).zipIdx.map fun ((row, rhs), i) => ⟨row, ⟨defaultConstraintName i, .le, rhs⟩⟩ := by
        apply storedForms_map
        rintro ⟨⟨row, rhs⟩, i⟩
        simp [Constraint.stored?, Relation.sign?]
      rw [LinearProgram.slackTableau, hdecisions, hcosts, hforms]
      rfl

/-! ## Origins -/

/-- Where a session starts: at a matrix with right-hand sides and costs, or at a program. -/
inductive Origin where
  | matrix (a : List (List ℚ)) (b c : List ℚ)
  | program (p : LinearProgram ℚ)

namespace Origin

/-- The tableau that a session starts with, if its input is accepted. -/
def tableau : Origin → Except (TableauError ℚ) (Tableau ℚ)
  | .matrix a b c => Tableau.ofMatrix a b c
  | .program p => p.toTableau

/-- The program that a session starts with. -/
def start : Origin → LinearProgram ℚ
  | .matrix a b c => .ofMatrix a b c
  | .program p => p

/-- A session starts with the slack tableau of its program. -/
theorem tableau_eq_ok {o : Origin} {t : Tableau ℚ} (h : o.tableau = .ok t) :
    o.start.Shaped ∧ t = o.start.slackTableau := by
  cases o with
  | matrix a b c => exact Tableau.ofMatrix_eq_ok h
  | program p => exact LinearProgram.toTableau_eq_ok h

end Origin

end WarmSimplex
