import WarmSimplex.Proofs.InPlace
import WarmSimplex.Proofs.Plain.Building
import WarmSimplex.Proofs.Plain.Solution
import WarmSimplex.Plain.Edit

/-!
# Histories on plain lists

Edits of the layout of a tableau that fits together do what the edits of the tableau in place do, refused
or not, and nothing on the way reaches outside of a list. Of an equation that is refused at its second
constraint both keep the first one.

So lists that were built fit together after any history, and they are the layout of a tableau. If the signs
of the relations keep numbers finite it is the one that the edits make, each of them made or refused as a
whole.
-/

namespace WarmSimplex

variable {α : Type}

/-- A reply, with the tableau that its report may hold on plain lists. -/
def Reply.plain : Reply α → Plain.Reply α
  | .done => .done
  | .added constraint => .added constraint
  | .addedPair upper lower => .addedPair upper lower
  | .solved report => .solved report.plain

/-- The outcome of a change in place, on plain lists. -/
def layOut {β γ : Type} (f : β → γ) :
    EStateM.Result (TableauError α) (Tableau α) β → EStateM.Result (Plain.Stop α) (Plain α) γ
  | .ok result next => .ok (f result) next.plain
  | .error fault left => .error (.refused fault) left.plain

/-! ## Histories in place -/

namespace Tableau

variable [Scalar α] {t : Tableau α} {n m : ℕ}

/-- An edit in place leaves the tableau that the edit makes, or the one with the first constraint of an
equation. -/
theorem afterEditInPlace_cases (t : Tableau α) (e : Edit α) : t.afterEditInPlace e = t.afterEdit e ∨
    ∃ c, t.addConstraint c = .ok (t.afterEditInPlace e) := by
  rcases InPlace.run_edit_cases t e with hrun | ⟨_, _, _, _, upper, _, hupper, _, hrun⟩
  · left
    rw [afterEditInPlace, hrun, afterEdit]
    cases t.perform e <;> rfl
  · right
    rw [afterEditInPlace, hrun]
    exact ⟨_, hupper⟩

/-- Where the signs keep numbers finite, histories in place are histories. -/
theorem afterEditsInPlace_eq (hsigns : SignsKeepFinite α) (t : Tableau α) (history : List (Edit α)) :
    t.afterEditsInPlace history = t.afterEdits history := by
  have hstep : ∀ (u : Tableau α) (e : Edit α), u.afterEditInPlace e = u.afterEdit e := by
    intro u e
    rw [afterEditInPlace, InPlace.run_edit hsigns, afterEdit]
    cases u.perform e <;> rfl
  rw [afterEditsInPlace, afterEdits, funext fun u => funext (hstep u)]

namespace HasShape

/-- An edit in place keeps a tableau together. -/
theorem afterEditInPlace (ht : t.HasShape n m) (e : Edit α) : t.Extends (t.afterEditInPlace e) n := by
  rcases t.afterEditInPlace_cases e with hedit | ⟨c, hadded⟩
  · rw [hedit]
    exact ht.afterEdits [e]
  · exact ht.addConstraint hadded

/-- A history in place keeps a tableau together. -/
theorem afterEditsInPlace (ht : t.HasShape n m) (history : List (Edit α)) :
    t.Extends (t.afterEditsInPlace history) n := by
  induction history generalizing t m with
  | nil => exact ⟨⟨m, ht⟩, .refl t⟩
  | cons e rest ih =>
    have hfirst := ht.afterEditInPlace e
    obtain ⟨k, hshape⟩ := hfirst.shape
    have hrest := ih hshape
    exact ⟨hrest.shape, hfirst.indices.trans hrest.indices⟩

end HasShape

end Tableau

/-! ## Edits on plain lists -/

namespace OnLists

variable {t : Tableau α} {n m : ℕ}

/-- Reading what is there changes nothing. -/
theorem run_read {β : Type} {f : Plain α → Option β} {p : Plain α} {result : β} (h : f p = some result) :
    (read f).run p = .ok result p := by
  rw [read, EStateM.run_bind, EStateM.run_get]
  dsimp only
  rw [h]
  rfl

/-- A change on plain lists that makes the layout of another tableau. -/
theorem run_change {f : Plain α → Option (Except (TableauError α) (Plain α))}
    {made : Except (TableauError α) (Tableau α)} (h : f t.plain = some (made.map (·.plain))) :
    (change f).run t.plain = layOut id (t.allOrNothing (made.map (·, ()))) := by
  rw [change, EStateM.run_bind, run_read h]
  cases made <;> rfl

variable [Scalar α]

/-- A pivot on plain lists is the pivot in place. -/
theorem run_pivot (ht : t.HasShape n m) (row column : ℕ) :
    (change fun p => p.pivot row column).run t.plain = layOut id ((InPlace.pivot row column).run t) := by
  rw [InPlace.run_pivot]
  exact run_change (ht.pivot_plain row column)

/-- A constraint is added on plain lists as it is in place. -/
theorem run_append (ht : t.HasShape n m) (c : StoredConstraint α) :
    (append c).run t.plain = layOut id ((InPlace.append c).run t) := by
  rw [append, EStateM.run_bind, run_change (ht.append_plain c), InPlace.run_append]
  cases happend : t.append c with
  | error fault => rfl
  | ok next =>
    have hlast : predecessor next.plain.rows.length = some t.rowCount := by
      rw [Tableau.length_rows_plain, (ht.gainsConstraint happend).rowCount, predecessor_succ]
    exact run_read hlast

/-- So is an inequality, under the same default name. -/
theorem run_addConstraint (ht : t.HasShape n m) (name : Option String) (coefficients : List α)
    (relation : Relation) (rhs : α) : (addConstraint name coefficients relation rhs).run t.plain =
      layOut id ((InPlace.addConstraint name coefficients relation rhs).run t) := by
  rw [addConstraint, EStateM.run_bind, EStateM.run_get, InPlace.addConstraint, EStateM.run_bind,
    EStateM.run_get]
  dsimp only
  rw [Tableau.length_rows_plain, Tableau.nextConstraintName]
  cases (⟨name.getD (Tableau.defaultConstraintName t.rowCount), coefficients, relation, rhs⟩ :
      Constraint α).stored? with
  | none => rfl
  | some s => exact run_append ht s

/-- So is an equation. If it is refused at its second constraint, the first one stays on the lists. -/
theorem run_addEquality (ht : t.HasShape n m) (name : Option String) (coefficients : List α) (rhs : α) :
    (addEquality name coefficients rhs).run t.plain =
      layOut id ((InPlace.addEquality name coefficients rhs).run t) := by
  rw [addEquality, EStateM.run_bind, run_read t.columnCount_plain, InPlace.addEquality, EStateM.run_bind,
    EStateM.run_get]
  dsimp only
  split
  · rfl
  · rw [EStateM.run_bind, EStateM.run_get]
    dsimp only
    rw [EStateM.run_bind, EStateM.run_bind, Tableau.length_rows_plain, Tableau.nextConstraintName,
      run_addConstraint ht, InPlace.run_addConstraint_some]
    cases hupper : t.addConstraint ⟨name.getD (Tableau.defaultConstraintName t.rowCount) ++ "_le",
        coefficients, .le, rhs⟩ with
    | error fault => rfl
    | ok upper =>
      obtain ⟨k, hshape⟩ := (ht.addConstraint hupper).shape
      dsimp only [Except.map, Tableau.allOrNothing, layOut]
      rw [EStateM.run_bind, EStateM.run_bind, run_addConstraint hshape]
      cases (InPlace.addConstraint (some (name.getD (Tableau.defaultConstraintName t.rowCount) ++ "_ge"))
        coefficients .ge rhs).run upper <;> rfl

/-- An edit on plain lists is the edit in place. -/
theorem run_edit (ht : t.HasShape n m) (e : Edit α) :
    (edit e).run t.plain = layOut Reply.plain ((InPlace.edit e).run t) := by
  cases e with
  | setTolerances tolerance pivotTolerance => rfl
  | appendRow coefficients rhs =>
    rw [edit, EStateM.run_bind, EStateM.run_get, InPlace.edit, EStateM.run_bind, EStateM.run_get]
    dsimp only
    rw [EStateM.run_bind, EStateM.run_bind, Tableau.length_rows_plain, run_append ht,
      Tableau.nextConstraintName]
    cases (InPlace.append ⟨coefficients, ⟨Tableau.defaultConstraintName t.rowCount, .le, rhs⟩⟩).run t <;>
      rfl
  | addConstraint name coefficients relation rhs =>
    rw [edit, EStateM.run_bind, run_addConstraint ht, InPlace.edit, EStateM.run_bind]
    cases (InPlace.addConstraint name coefficients relation rhs).run t <;> rfl
  | addEquality name coefficients rhs =>
    rw [edit, EStateM.run_bind, run_addEquality ht, InPlace.edit, EStateM.run_bind]
    cases (InPlace.addEquality name coefficients rhs).run t <;> rfl
  | pivot row column =>
    rw [edit, EStateM.run_bind, run_pivot ht, InPlace.edit, EStateM.run_bind]
    cases (InPlace.pivot row column).run t <;> rfl
  | solve options =>
    rw [edit, EStateM.run_bind, run_read (ht.self.solve_plain options)]
    rfl

end OnLists

/-! ## Lists that fit together -/

namespace Plain

/-- The lists are as long as they must be to fit together, and hold columns and relations only that there
can be. -/
structure Fits (p : Plain α) : Prop where
  rows : ∀ row ∈ p.rows, row.length = p.structuralCount + p.rows.length + 1
  objective : p.objective.length = p.structuralCount + p.rows.length + 1
  basis : p.basis.length = p.rows.length ∧ ∀ column ∈ p.basis, column < p.structuralCount + p.rows.length
  labels : p.labels.length = p.rows.length ∧ ∀ label ∈ p.labels, label.relation ≠ .eq
  names : p.variableNames.length = p.structuralCount
  costs : p.costs.length = p.structuralCount

/-- Labels, names and costs that are there stay where they are. -/
structure KeepsIndices (p q : Plain α) : Prop where
  labels : p.labels <+: q.labels
  names : q.variableNames = p.variableNames
  costs : q.costs = p.costs

end Plain

namespace Tableau

variable {t u : Tableau α} {n m : ℕ}

/-- The layout of a tableau that fits together does so too. -/
theorem HasShape.fits_plain (ht : t.HasShape n m) : t.plain.Fits := by
  have hcount : t.plain.structuralCount + t.plain.rows.length = n + m := by
    rw [length_rows_plain, ht.rowCount]
    exact congrArg (· + m) ht.structural
  refine ⟨?rows, ?objective, ⟨?basis, ?columns⟩, ⟨?labels, ?relations⟩, List.length_map _,
    List.length_map _⟩
  case rows =>
    refine List.forall_mem_map.mpr fun r hr => ?_
    rw [hcount, Equation.length_entries, ht.width r hr]
  case objective =>
    rw [hcount]
    exact t.objective.length_entries.trans (congrArg (· + 1) ht.columns)
  case basis => rw [length_basis_plain, length_rows_plain]
  case columns =>
    rw [hcount]
    exact List.forall_mem_map.mpr ht.basic_lt
  case labels =>
    rw [length_rows_plain]
    exact List.length_map _
  case relations => exact List.forall_mem_map.mpr ht.relation

/-- What stays where it is in a tableau does so on lists. -/
theorem KeepsIndices.plain (h : t.KeepsIndices u) : t.plain.KeepsIndices u.plain :=
  ⟨h.labels, congrArg (List.map Decision.name) h.decisions, congrArg (List.map Decision.cost) h.decisions⟩

end Tableau

/-! ## Histories on plain lists -/

section Histories

variable [Scalar α] {t : Tableau α} {n m : ℕ}

/-- What an edit leaves on plain lists is what it leaves in place. -/
theorem Tableau.HasShape.afterEdit_plain (ht : t.HasShape n m) (e : Edit α) :
    t.plain.afterEdit e = some (t.afterEditInPlace e).plain := by
  rw [Plain.afterEdit, OnLists.run_edit ht, Tableau.afterEditInPlace]
  cases (InPlace.edit e).run t <;> rfl

/-- What a history leaves on plain lists is what it leaves in place. -/
theorem Tableau.HasShape.afterEdits_plain (ht : t.HasShape n m) (history : List (Edit α)) :
    t.plain.afterEdits history = some (t.afterEditsInPlace history).plain := by
  induction history generalizing t m with
  | nil => rfl
  | cons e rest ih =>
    obtain ⟨k, hshape⟩ := (ht.afterEditInPlace e).shape
    rw [Plain.afterEdits, List.foldlM_cons, ht.afterEdit_plain, Option.bind_eq_bind, Option.bind_some]
    exact ih hshape

/-- The layout of the tableau fits together, and what is computed from it is what the tableau gives. -/
structure Tableau.WorksOnLists (t : Tableau α) : Prop where
  fits : t.plain.Fits
  pivot : ∀ row column, t.plain.pivot row column = some ((t.pivot row column).map (·.plain))
  append : ∀ c, t.plain.append c = some ((t.append c).map (·.plain))
  solve : ∀ options, t.plain.solve options = some ((t.solve options).1.plain, (t.solve options).2.plain)
  extract : ∀ report, t.plain.extract report.plain = some (t.extract report)
  solution : t.plain.solution = some t.solution

/-- A tableau that fits together works on lists. -/
theorem Tableau.HasShape.worksOnLists (ht : t.HasShape n m) : t.WorksOnLists :=
  ⟨ht.fits_plain, ht.pivot_plain, ht.append_plain, ht.self.solve_plain, ht.extract_plain,
    ht.solution_plain⟩

/-- The lists were built from a matrix or from a program. -/
def Plain.IsInitial (p : Plain α) : Prop :=
  (∃ a b c, ofMatrix a b c = some (.ok p)) ∨ ∃ program, ofProgram program = some (.ok p)

/-- Lists that were built are the layout of a tableau that was built. -/
theorem Plain.IsInitial.exists_tableau {p : Plain α} (hp : p.IsInitial) :
    ∃ t : Tableau α, t.IsInitial ∧ p = t.plain := by
  rcases hp with ⟨a, b, c, hmade⟩ | ⟨program, hmade⟩
  · rw [ofMatrix_plain, Option.some.injEq] at hmade
    obtain ⟨t, ht, rfl⟩ := map_eq_ok hmade
    exact ⟨t, .inl ⟨a, b, c, ht⟩, rfl⟩
  · rw [ofProgram_plain, Option.some.injEq] at hmade
    obtain ⟨t, ht, rfl⟩ := map_eq_ok hmade
    exact ⟨t, .inr ⟨program, ht⟩, rfl⟩

/-- Whatever the arithmetic does and whatever is refused on the way, a history on lists that were built has
a result. It is the layout of the tableau that the history leaves in place: the lists fit together, what is
computed from them is there, and further edits keep the indices. If the signs of the relations keep numbers
finite, edits in place are made or refused as a whole. -/
theorem Plain.IsInitial.afterEdits_eq {p : Plain α} (hp : p.IsInitial) :
    ∃ t : Tableau α, t.IsInitial ∧ p = t.plain ∧ ∀ history,
      let reached := t.afterEditsInPlace history
      p.afterEdits history = some reached.plain ∧ reached.WorksOnLists ∧
        (∀ further, ∃ later, reached.plain.afterEdits further = some later ∧
          reached.plain.KeepsIndices later) ∧
        (SignsKeepFinite α → reached = t.afterEdits history) := by
  obtain ⟨t, ht, rfl⟩ := hp.exists_tableau
  obtain ⟨n, k, hstart⟩ := ht.hasShape
  refine ⟨t, ht, rfl, fun history => ?_⟩
  obtain ⟨m, hshape⟩ := (hstart.afterEditsInPlace history).shape
  exact ⟨hstart.afterEdits_plain history, hshape.worksOnLists,
    fun further => ⟨_, hshape.afterEdits_plain further, (hshape.afterEditsInPlace further).indices.plain⟩,
    fun hsigns => t.afterEditsInPlace_eq hsigns history⟩

/-- An optimum is cut off by an equation, after a pivot outside of the lists was refused. -/
example : (do
    let built ← Plain.ofMatrix [[1, 1]] [4] [2, (1 : ℚ)]
    let p ← built.toOption
    let q ← p.afterEdits [.solve {}, .pivot 7 0, .addEquality none [1] 1, .solve {}]
    let s ← q.solution
    some (q.basis, q.labels.map Label.name, s.toOption.map Solution.values)) =
      some ([0, 1, 4], ["c1", "c2_le", "c2_ge"], some [1, 3]) := by
  decide +kernel

end Histories

end WarmSimplex
