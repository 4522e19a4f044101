import WarmSimplex.Proofs.Origin
import WarmSimplex.Proofs.Run
import WarmSimplex.Edit

/-!
# What a tableau encodes after a history

A history adds the constraints of its accepted edits to the program that the tableau started with.
Whatever else it does, the tableau goes on encoding the costs it started with and all constraints so
far: rows and objective row are only ever rewritten in terms of another basis.

Every pivot has to be kept away from zero. A solve does so by itself as soon as the tolerance is not
negative, and a pivot of the caller if the pivot tolerance is positive or the caller takes care.
-/

namespace WarmSimplex

section Recording

variable {α : Type} [Scalar α]

/-- The constraints that an edit asks for, an equation as one. -/
def Edit.constraints (t : Tableau α) : Edit α → List (Constraint α)
  | .appendRow coefficients rhs => [⟨t.nextConstraintName, coefficients, .le, rhs⟩]
  | .addConstraint name coefficients relation rhs =>
    [⟨name.getD t.nextConstraintName, coefficients, relation, rhs⟩]
  | .addEquality name coefficients rhs =>
    [⟨name.getD t.nextConstraintName, coefficients, .eq, rhs⟩]
  | _ => []

/-- The constraints that an edit adds, none if it is refused. -/
def Tableau.accepted (t : Tableau α) (e : Edit α) : List (Constraint α) :=
  match t.perform e with
  | .ok _ => e.constraints t
  | .error _ => []

/-- The constraints that a history adds, in their order. -/
def Tableau.added (t : Tableau α) : List (Edit α) → List (Constraint α)
  | [] => []
  | e :: rest => t.accepted e ++ (t.afterEdit e).added rest

/-- The settings after an edit. -/
def Tableau.Settings.after (s : Tableau.Settings α) : Edit α → Tableau.Settings α
  | .setTolerances tolerance pivotTolerance =>
    { s with
      tolerance := tolerance.getD s.tolerance
      pivotTolerance := pivotTolerance.getD s.pivotTolerance }
  | _ => s

/-- An edit keeps a property of the settings if it does so in case it sets tolerances. -/
theorem Tableau.Settings.after_of_setTolerances {β : Type} {P : Tableau.Settings β → Prop}
    {s : Tableau.Settings β} (hs : P s) {e : Edit β}
    (hset : ∀ tolerance pivotTolerance, e = .setTolerances tolerance pivotTolerance → P (s.after e)) :
    P (s.after e) := by
  cases e with
  | setTolerances tolerance pivotTolerance => exact hset tolerance pivotTolerance rfl
  | appendRow coefficients rhs => exact hs
  | addConstraint name coefficients relation rhs => exact hs
  | addEquality name coefficients rhs => exact hs
  | pivot row column => exact hs
  | solve options => exact hs

/-- What is there has a property if both the replacement and what was there have it. -/
theorem getD_of_forall {β : Type} {P : β → Prop} {replacement : Option β} {current : β}
    (hreplacement : ∀ b ∈ replacement, P b) (hcurrent : P current) :
    P (replacement.getD current) := by
  cases replacement with
  | none => exact hcurrent
  | some b => exact hreplacement b rfl

/-- A computation that succeeds after a conversion of its result succeeded before. -/
theorem map_eq_ok {ε β γ : Type} {x : Except ε β} {f : β → γ} {c : γ}
    (h : x.map f = .ok c) : ∃ b, x = .ok b ∧ f b = c := by
  cases x with
  | error _ => cases h
  | ok b =>
    cases h
    exact ⟨b, rfl, rfl⟩

namespace Tableau

/-- Adding a constraint keeps the settings. -/
theorem settings_append {t next : Tableau α} {c : StoredConstraint α} (h : t.append c = .ok next) :
    next.settings = t.settings := by
  obtain ⟨_, rfl⟩ := append_eq_ok_iff.mp h
  rfl

/-- An inequality is added in its `≤` form. -/
theorem append_of_addConstraint {t next : Tableau α} {c : Constraint α}
    (h : t.addConstraint c = .ok next) : ∃ s, c.stored? = some s ∧ t.append s = .ok next := by
  rw [addConstraint] at h
  split at h
  · cases h
  · rename_i s hs
    exact ⟨s, hs, h⟩

/-- An equation is added as a maximum, then a minimum. -/
theorem addConstraint_of_addEquality {t next : Tableau α} {name : String} {coefficients : List α}
    {rhs : α} (h : t.addEquality name coefficients rhs = .ok next) :
    ∃ upper, t.addConstraint ⟨name ++ "_le", coefficients, .le, rhs⟩ = .ok upper ∧
      upper.addConstraint ⟨name ++ "_ge", coefficients, .ge, rhs⟩ = .ok next := by
  rw [addEquality] at h
  split at h
  · cases h
  · split at h
    · cases h
    · rename_i upper hupper
      exact ⟨upper, hupper, h⟩

/-- Only an edit that sets tolerances changes the settings. -/
theorem settings_perform {t next : Tableau α} {e : Edit α} {reply : Reply α}
    (h : t.perform e = .ok (next, reply)) : next.settings = t.settings.after e := by
  cases e with
  | setTolerances tolerance pivotTolerance =>
    cases h
    rfl
  | appendRow coefficients rhs =>
    obtain ⟨made, hmade, heq⟩ := map_eq_ok h
    cases heq
    exact settings_append hmade
  | addConstraint name coefficients relation rhs =>
    obtain ⟨made, hmade, heq⟩ := map_eq_ok h
    cases heq
    obtain ⟨_, _, happend⟩ := append_of_addConstraint hmade
    exact settings_append happend
  | addEquality name coefficients rhs =>
    obtain ⟨made, hmade, heq⟩ := map_eq_ok h
    cases heq
    obtain ⟨upper, hupper, hlower⟩ := addConstraint_of_addEquality hmade
    obtain ⟨_, _, hfirst⟩ := append_of_addConstraint hupper
    obtain ⟨_, _, hsecond⟩ := append_of_addConstraint hlower
    exact (settings_append hsecond).trans (settings_append hfirst)
  | pivot row column =>
    obtain ⟨made, hmade, heq⟩ := map_eq_ok h
    cases heq
    obtain ⟨_, _, _, rfl⟩ := pivot_eq_ok_iff.mp hmade
    exact settings_pivotAt t row column
  | solve options =>
    cases h
    exact t.settings_run options

/-- The settings after an edit, refused or not, given that refused edits set nothing. -/
theorem settings_afterEdit (t : Tableau α) (e : Edit α) :
    (t.afterEdit e).settings = t.settings.after e := by
  rw [afterEdit]
  split
  · rename_i next reply hperform
    exact settings_perform hperform
  · rename_i hrefused
    cases e with
    | setTolerances tolerance pivotTolerance => cases hrefused
    | appendRow coefficients rhs => rfl
    | addConstraint name coefficients relation rhs => rfl
    | addEquality name coefficients rhs => rfl
    | pivot row column => rfl
    | solve options => cases hrefused

/-- What every edit of a history keeps of the settings, the history keeps. -/
theorem settings_afterEdits {P : Settings α → Prop} {history : List (Edit α)}
    (hafter : ∀ s, ∀ e ∈ history, P s → P (s.after e)) {t : Tableau α} (ht : P t.settings) :
    P (t.afterEdits history).settings := by
  induction history generalizing t with
  | nil => exact ht
  | cons e rest ih =>
    have hfirst : P (t.afterEdit e).settings := by
      rw [settings_afterEdit]
      exact hafter _ e List.mem_cons_self ht
    exact ih (fun s d hd => hafter s d (List.mem_cons_of_mem _ hd)) hfirst

/-- No edit changes the decision variables or the sense. -/
theorem decisions_and_sense_afterEdits (t : Tableau α) (history : List (Edit α)) :
    (t.afterEdits history).decisions = t.decisions ∧ (t.afterEdits history).sense = t.sense := by
  have hkeep : ∀ (s : Settings α) (e : Edit α),
      (s.after e).decisions = s.decisions ∧ (s.after e).sense = s.sense := by
    intro s e
    cases e <;> exact ⟨rfl, rfl⟩
  refine settings_afterEdits (P := fun s => s.decisions = t.decisions ∧ s.sense = t.sense)
    (fun s e _ hs => ?_) ⟨rfl, rfl⟩
  obtain ⟨hdecisions, hsense⟩ := hkeep s e
  exact ⟨hdecisions.trans hs.1, hsense.trans hs.2⟩

end Tableau

end Recording

namespace Tableau

variable {t next : Tableau ℚ} {costs : List ℚ} {given : List (StoredConstraint ℚ)}

/-- An accepted constraint is over the columns there are. -/
theorem length_le_of_append {c : StoredConstraint ℚ} (h : t.append c = .ok next) :
    c.coefficients.length ≤ t.columnCount := by
  obtain ⟨hfault, _⟩ := append_eq_ok_iff.mp h
  by_contra hwide
  rw [appendFault?, if_pos (not_le.mp hwide)] at hfault
  cases hfault

/-- An accepted constraint is encoded after those before it. -/
theorem Encodes.append (ht : t.Encodes costs given) {c : StoredConstraint ℚ}
    (h : t.append c = .ok next) : next.Encodes costs (given ++ [c]) := by
  obtain ⟨_, rfl⟩ := append_eq_ok_iff.mp h
  exact ht.appendStored (length_le_of_append h)

/-- An accepted inequality is encoded in its `≤` form. -/
theorem Encodes.addConstraint (ht : t.Encodes costs given) {c : Constraint ℚ}
    (h : t.addConstraint c = .ok next) : next.Encodes costs (given ++ storedForms [c]) := by
  obtain ⟨s, hs, happend⟩ := append_of_addConstraint h
  rw [storedForms_cons hs]
  exact ht.append happend

/-- An accepted equation is encoded as two inequalities. -/
theorem Encodes.addEquality (ht : t.Encodes costs given) {name : String} {coefficients : List ℚ}
    {rhs : ℚ} (h : t.addEquality name coefficients rhs = .ok next) :
    next.Encodes costs (given ++ storedForms [⟨name, coefficients, .eq, rhs⟩]) := by
  obtain ⟨upper, hupper, hlower⟩ := addConstraint_of_addEquality h
  have hboth := (ht.addConstraint hupper).addConstraint hlower
  rwa [List.append_assoc, ← storedForms_append] at hboth

/-- The edit does not pivot on a zero: it is no pivot, or it is refused, or its entry is another one. -/
def PivotOffZero (t : Tableau ℚ) : Edit ℚ → Prop
  | .pivot row column => ∀ next, t.pivot row column = .ok next → t.coefficient row column ≠ 0
  | _ => True

/-- No edit of the history pivots on a zero of the tableau that it comes to. -/
def PivotsOffZero (t : Tableau ℚ) : List (Edit ℚ) → Prop
  | [] => True
  | e :: rest => t.PivotOffZero e ∧ (t.afterEdit e).PivotsOffZero rest

/-- A positive pivot tolerance refuses pivots on a zero. -/
theorem coefficient_ne_zero_of_pivot (hpositive : 0 < t.pivotTolerance) {row column : ℕ}
    (h : t.pivot row column = .ok next) : t.coefficient row column ≠ 0 := by
  intro hentry
  obtain ⟨_, _, husable, _⟩ := pivot_eq_ok_iff.mp h
  simp [isDegenerate, hentry, Scalar.abs_rat, Scalar.isNaN] at husable
  exact absurd hpositive (not_lt.mpr husable)

/-- A pivot that is not refused keeps the encoding if it is not on a zero. -/
theorem Encodes.pivot (ht : t.Encodes costs given) {row column : ℕ}
    (hentry : t.coefficient row column ≠ 0) (h : t.pivot row column = .ok next) :
    next.Encodes costs given := by
  obtain ⟨hrow, _, _, rfl⟩ := pivot_eq_ok_iff.mp h
  have hr : t.rows[row]? = some t.rows[row] := List.getElem?_eq_getElem hrow
  refine ht.pivotAt hr fun hzero => hentry ?_
  rw [coefficient, hr]
  exact hzero

/-- An edit that is not refused adds its constraints to what the tableau encodes. -/
theorem Encodes.perform (ht : t.Encodes costs given) (htolerance : 0 ≤ t.tolerance) {e : Edit ℚ}
    (hpivot : t.PivotOffZero e) {reply : Reply ℚ} (h : t.perform e = .ok (next, reply)) :
    next.Encodes costs (given ++ storedForms (e.constraints t)) := by
  have hnothing : given ++ storedForms [] = given := List.append_nil given
  cases e with
  | setTolerances tolerance pivotTolerance =>
    cases h
    change Encodes _ costs (given ++ storedForms [])
    rw [hnothing]
    exact ht.withTolerances tolerance pivotTolerance
  | appendRow coefficients rhs =>
    obtain ⟨made, hmade, heq⟩ := map_eq_ok h
    cases heq
    have hform : (⟨t.nextConstraintName, coefficients, .le, rhs⟩ : Constraint ℚ).stored? =
        some ⟨coefficients, ⟨t.nextConstraintName, .le, rhs⟩⟩ := by
      simp [Constraint.stored?, Relation.sign?]
    rw [Edit.constraints, storedForms_cons hform]
    exact ht.append hmade
  | addConstraint name coefficients relation rhs =>
    obtain ⟨made, hmade, heq⟩ := map_eq_ok h
    cases heq
    exact ht.addConstraint hmade
  | addEquality name coefficients rhs =>
    obtain ⟨made, hmade, heq⟩ := map_eq_ok h
    cases heq
    exact ht.addEquality hmade
  | pivot row column =>
    obtain ⟨made, hmade, heq⟩ := map_eq_ok h
    cases heq
    change Encodes _ costs (given ++ storedForms [])
    rw [hnothing]
    exact ht.pivot (hpivot next hmade) hmade
  | solve options =>
    cases h
    change Encodes _ costs (given ++ storedForms [])
    rw [hnothing]
    exact ht.run htolerance options

/-- An edit adds the constraints that it is accepted with to what the tableau encodes. -/
theorem Encodes.afterEdit (ht : t.Encodes costs given) (htolerance : 0 ≤ t.tolerance) {e : Edit ℚ}
    (hpivot : t.PivotOffZero e) :
    (t.afterEdit e).Encodes costs (given ++ storedForms (t.accepted e)) := by
  rw [Tableau.afterEdit, accepted]
  cases hperform : t.perform e with
  | ok result => exact ht.perform htolerance hpivot hperform
  | error _ => simpa [storedForms] using ht

/-- A history adds its constraints to what the tableau encodes, as long as no pivot is on a zero. -/
theorem Encodes.afterEdits (ht : t.Encodes costs given) {P : Settings ℚ → Prop}
    {history : List (Edit ℚ)} (hafter : ∀ s, ∀ e ∈ history, P s → P (s.after e))
    (htolerance : ∀ s, P s → 0 ≤ s.tolerance) (hpivots : t.PivotsOffZero history)
    (hsettings : P t.settings) :
    (t.afterEdits history).Encodes costs (given ++ storedForms (t.added history)) := by
  induction history generalizing t given with
  | nil => simpa [added, storedForms, Tableau.afterEdits] using ht
  | cons e rest ih =>
    have hfirst := ht.afterEdit (htolerance _ hsettings) hpivots.1
    have hnext : P (t.afterEdit e).settings := by
      rw [settings_afterEdit]
      exact hafter _ e List.mem_cons_self hsettings
    have hrest := ih hfirst (fun s d hd => hafter s d (List.mem_cons_of_mem _ hd)) hpivots.2 hnext
    rwa [List.append_assoc, ← storedForms_append] at hrest

/-- Settings that keep the pivot tolerance positive keep the pivots of a history off zero. -/
theorem pivotsOffZero_of_settings {P : Settings ℚ → Prop} {history : List (Edit ℚ)}
    (hafter : ∀ s, ∀ e ∈ history, P s → P (s.after e))
    (hpivot : ∀ s row column, P s → .pivot row column ∈ history → 0 < s.pivotTolerance)
    (hsettings : P t.settings) : t.PivotsOffZero history := by
  induction history generalizing t with
  | nil => trivial
  | cons e rest ih =>
    refine ⟨?_, ih (fun s d hd => hafter s d (List.mem_cons_of_mem _ hd))
      (fun s row column hs hmem => hpivot s row column hs (List.mem_cons_of_mem _ hmem)) ?_⟩
    · cases e with
      | pivot row column =>
        exact fun next hmade =>
          coefficient_ne_zero_of_pivot (hpivot _ row column hsettings List.mem_cons_self) hmade
      | setTolerances tolerance pivotTolerance => trivial
      | appendRow coefficients rhs => trivial
      | addConstraint name coefficients relation rhs => trivial
      | addEquality name coefficients rhs => trivial
      | solve options => trivial
    · rw [settings_afterEdit]
      exact hafter _ e List.mem_cons_self hsettings

/-- Pivots are kept away from zero, those of a solve and those of the caller. -/
structure Settings.Usable (s : Settings ℚ) : Prop where
  tolerance : 0 ≤ s.tolerance
  pivotTolerance : 0 < s.pivotTolerance

end Tableau

/-- The tolerances that a tableau starts with are usable. -/
theorem LinearProgram.usable_slackTableau (p : LinearProgram ℚ) : p.slackTableau.settings.Usable := by
  have hdefault : (0 : ℚ) < Scalar.defaultTolerance := by decide +kernel
  exact ⟨hdefault.le, hdefault⟩

/-- The decision variables of a session are those of its program. -/
theorem LinearProgram.structuralCount_afterEdits {p : LinearProgram ℚ} (hp : p.Shaped)
    (history : List (Edit ℚ)) :
    (p.slackTableau.afterEdits history).structuralCount = p.variableCount := by
  rw [← structuralCount_slackTableau hp, Tableau.structuralCount,
    (p.slackTableau.decisions_and_sense_afterEdits history).1]
  rfl

/-- A session encodes the costs of its program, and its constraints with those that were added. -/
theorem LinearProgram.encodes_afterEdits {p : LinearProgram ℚ} (hp : p.Shaped)
    {P : Tableau.Settings ℚ → Prop} {history : List (Edit ℚ)}
    (hafter : ∀ s, ∀ e ∈ history, P s → P (s.after e)) (htolerance : ∀ s, P s → 0 ≤ s.tolerance)
    (hpivot : ∀ s row column, P s → .pivot row column ∈ history → 0 < s.pivotTolerance)
    (hsettings : P p.slackTableau.settings) :
    (p.slackTableau.afterEdits history).Encodes p.costs
      (storedForms (p.constraints ++ p.slackTableau.added history)) := by
  rw [storedForms_append]
  exact (encodes_slackTableau hp).afterEdits hafter htolerance
    (Tableau.pivotsOffZero_of_settings hafter hpivot hsettings) hsettings

/-- A tolerance that the edit sets is not negative. -/
def Edit.SetsNonneg : Edit ℚ → Prop
  | .setTolerances tolerance _ => ∀ value ∈ tolerance, 0 ≤ value
  | _ => True

/-- The tolerance stays as it was or becomes one that is not negative. -/
theorem Tableau.Settings.nonneg_after {s : Tableau.Settings ℚ} (hs : 0 ≤ s.tolerance) {e : Edit ℚ}
    (he : e.SetsNonneg) : 0 ≤ (s.after e).tolerance := by
  refine after_of_setTolerances (P := fun s => 0 ≤ s.tolerance) hs ?_
  rintro tolerance pivotTolerance rfl
  exact getD_of_forall he hs

/-- No solve of the history has a negative tolerance, and no pivot of it is on a zero. -/
structure Tableau.Careful (t : Tableau ℚ) (history : List (Edit ℚ)) : Prop where
  tolerance : ∀ e ∈ history, e.SetsNonneg
  offZero : t.PivotsOffZero history

/-- What a session encodes that sets any pivot tolerances and takes care not to pivot on a zero. -/
theorem Origin.encodes_of_pivotsOffZero {o : Origin} {t : Tableau ℚ} (ht : o.tableau = .ok t)
    {history : List (Edit ℚ)} (hhistory : ∀ e ∈ history, e.SetsNonneg)
    (hpivots : t.PivotsOffZero history) :
    (t.afterEdits history).Encodes o.start.costs
        (storedForms (o.start.constraints ++ t.added history)) ∧
      0 ≤ (t.afterEdits history).tolerance := by
  obtain ⟨hshaped, rfl⟩ := Origin.tableau_eq_ok ht
  have hafter : ∀ (s : Tableau.Settings ℚ), ∀ e ∈ history, 0 ≤ s.tolerance →
      0 ≤ (s.after e).tolerance := fun s e he hs => Tableau.Settings.nonneg_after hs (hhistory e he)
  have hstart := o.start.usable_slackTableau.tolerance
  rw [storedForms_append]
  exact ⟨(LinearProgram.encodes_slackTableau hshaped).afterEdits hafter (fun _ hs => hs) hpivots hstart,
    Tableau.settings_afterEdits (P := fun s => 0 ≤ s.tolerance) hafter hstart⟩

end WarmSimplex
