import WarmSimplex.Proofs.BasicSolutions

/-!
# Constraints over earlier slacks

A constraint that is added may mention every column that is there, the slacks of older constraints
included, but not its own slack or a later one. The slacks can therefore be worked out one after the
other, whatever the left-hand sides are to be, and a linear function of the slacks can be worked back into
one of the left-hand sides, from the last constraint to the first.

Nothing here depends on a basis.
-/

namespace WarmSimplex

/-- Each constraint is over the first columns and the slacks of the constraints before it. -/
def Staged (width : ℕ) (constraints : List (Constraint ℚ)) : Prop :=
  ∀ (k : ℕ) c, constraints[k]? = some c → c.coefficients.length ≤ width + k

/-- Further constraints may be over the slacks of all that are there. -/
theorem Staged.append {width : ℕ} {first second : List (Constraint ℚ)} (hfirst : Staged width first)
    (hsecond : ∀ c ∈ second, c.coefficients.length ≤ width + first.length) :
    Staged width (first ++ second) := by
  intro k c hc
  rcases lt_or_ge k first.length with hk | hk
  · exact hfirst k c (by rwa [List.getElem?_append_left hk] at hc)
  · rw [List.getElem?_append_right hk] at hc
    have hlength := hsecond c (List.mem_of_getElem? hc)
    omega

/-! ## Histories -/

namespace Tableau

variable {t next : Tableau ℚ}

/-- An inequality that is added is over the columns there are. -/
theorem length_le_of_addConstraint {c : Constraint ℚ} (h : t.addConstraint c = .ok next) :
    c.coefficients.length ≤ t.columnCount := by
  obtain ⟨s, hs, happend⟩ := append_of_addConstraint h
  obtain ⟨sign, hsign⟩ := StoredConstraint.coefficients_of_stored? hs
  have hlength := length_le_of_append happend
  rwa [hsign, List.length_map] at hlength

/-- The constraints that an edit is accepted with are over the columns there are. -/
theorem length_le_of_accepted (t : Tableau ℚ) (e : Edit ℚ) :
    ∀ c ∈ t.accepted e, c.coefficients.length ≤ t.columnCount := by
  rw [accepted]
  cases hperform : t.perform e with
  | error _ => simp
  | ok result =>
    cases e with
    | setTolerances tolerance pivotTolerance => simp [Edit.constraints]
    | appendRow coefficients rhs =>
      obtain ⟨made, hmade, _⟩ := map_eq_ok hperform
      exact List.forall_mem_singleton.mpr (length_le_of_append hmade)
    | addConstraint name coefficients relation rhs =>
      obtain ⟨made, hmade, _⟩ := map_eq_ok hperform
      exact List.forall_mem_singleton.mpr (length_le_of_addConstraint hmade)
    | addEquality name coefficients rhs =>
      obtain ⟨made, hmade, _⟩ := map_eq_ok hperform
      obtain ⟨upper, hupper, _⟩ := addConstraint_of_addEquality hmade
      have hlength : coefficients.length ≤ t.columnCount := length_le_of_addConstraint hupper
      exact List.forall_mem_singleton.mpr hlength
    | pivot row column => simp [Edit.constraints]
    | solve options => simp [Edit.constraints]

/-- What an edit adds keeps the constraints staged. -/
theorem Encodes.staged_accepted {costs : List ℚ} {constraints : List (Constraint ℚ)}
    (ht : t.Encodes costs (storedForms constraints))
    (hstaged : Staged t.structuralCount (constraints.flatMap Constraint.inequalities)) (e : Edit ℚ) :
    Staged t.structuralCount ((constraints ++ t.accepted e).flatMap Constraint.inequalities) := by
  rw [List.flatMap_append]
  apply hstaged.append
  intro c hc
  obtain ⟨given, hgiven, hinequality⟩ := List.mem_flatMap.mp hc
  rw [(Constraint.of_mem_inequalities hinequality).1, (forall₂_storedForms constraints).length_eq,
    ← ht.columns]
  exact t.length_le_of_accepted e given hgiven

/-- A history keeps the constraints staged, as long as no pivot is on a zero. -/
theorem Encodes.staged_added {costs : List ℚ} {constraints : List (Constraint ℚ)}
    (ht : t.Encodes costs (storedForms constraints)) (htolerance : 0 ≤ t.tolerance)
    (hstaged : Staged t.structuralCount (constraints.flatMap Constraint.inequalities))
    {history : List (Edit ℚ)} (hcareful : t.Careful history) :
    Staged t.structuralCount ((constraints ++ t.added history).flatMap Constraint.inequalities) := by
  induction history generalizing t constraints with
  | nil => simpa [added] using hstaged
  | cons e rest ih =>
    have hfirst := ht.afterEdit htolerance hcareful.offZero.1
    rw [← storedForms_append] at hfirst
    have hcount : (t.afterEdit e).structuralCount = t.structuralCount :=
      congrArg List.length (t.decisions_and_sense_afterEdits [e]).1
    have hnext : 0 ≤ (t.afterEdit e).settings.tolerance := by
      rw [settings_afterEdit]
      exact Settings.nonneg_after htolerance (hcareful.tolerance e List.mem_cons_self)
    have hrest : (t.afterEdit e).Careful rest :=
      ⟨fun d hd => hcareful.tolerance d (List.mem_cons_of_mem _ hd), hcareful.offZero.2⟩
    have hall := ih hfirst hnext (hcount ▸ ht.staged_accepted hstaged e) hrest
    rwa [hcount, List.append_assoc] at hall

end Tableau

/-- The program of a session is staged. -/
theorem Origin.staged_extend {o : Origin} {t : Tableau ℚ} (ht : o.tableau = .ok t)
    {history : List (Edit ℚ)} (hcareful : t.Careful history) :
    Staged o.start.variableCount (o.start.extend (t.added history)).inequalities := by
  obtain ⟨hshaped, rfl⟩ := Origin.tableau_eq_ok ht
  rw [← LinearProgram.structuralCount_slackTableau hshaped]
  refine (LinearProgram.encodes_slackTableau hshaped).staged_added
    o.start.usable_slackTableau.tolerance ?_ hcareful
  intro k c hc
  obtain ⟨given, hgiven, hinequality⟩ := List.mem_flatMap.mp (List.mem_of_getElem? hc)
  rw [(Constraint.of_mem_inequalities hinequality).1, hshaped.width given hgiven,
    LinearProgram.structuralCount_slackTableau hshaped]
  exact Nat.le_add_right _ _

/-! ## Working out the slacks -/

section Substitution

variable {width : ℕ} {constraints : List (Constraint ℚ)}

/-- Some displacement of the slacks changes the left-hand sides as prescribed. -/
theorem Staged.exists_displacement (hstaged : Staged width constraints)
    (hrelation : ∀ c ∈ constraints, c.relation ≠ .eq) (change : ℕ → ℚ) (count : ℕ) :
    ∃ e : ℕ → ℚ, (∀ j < width, e j = 0) ∧
      ∀ k < count, ∀ c, constraints[k]? = some c → c.lhs (width + k) e = change k := by
  induction count with
  | zero => exact ⟨0, fun _ _ => rfl, by simp⟩
  | succ count ih =>
    obtain ⟨e, hzero, hlhs⟩ := ih
    cases hlast : constraints[count]? with
    | none =>
      refine ⟨e, hzero, fun k hk c hc => hlhs k ?_ c hc⟩
      apply lt_of_le_of_ne (Nat.lt_succ_iff.mp hk)
      rintro rfl
      cases hlast.symm.trans hc
    | some last =>
      have hsign := Constraint.slackSign_mul_slackSign (hrelation last (List.mem_of_getElem? hlast))
      -- only the last constraint so far mentions the last slack
      have hmentioned : ∀ k ≤ count, ∀ c, constraints[k]? = some c →
          c.coefficients.getD (width + count) 0 = 0 := by
        intro k hk c hc
        have hlength := hstaged k c hc
        exact List.getD_eq_default _ _ (by omega)
      refine ⟨e - Pi.single (width + count)
        (last.relation.slackSign * (last.lhs (width + count) e - change count)), ?_, ?_⟩
      · intro j hj
        rw [Pi.sub_apply, hzero j hj, Pi.single_eq_of_ne (by omega), sub_zero]
      · intro k hk c hc
        rw [Constraint.lhs_sub, Constraint.lhs_single, hmentioned k (by omega) c hc, zero_add]
        rcases Nat.lt_succ_iff_lt_or_eq.mp hk with hk | rfl
        · rw [if_neg (by omega), zero_mul, sub_zero, hlhs k hk c hc]
        · cases hlast.symm.trans hc
          rw [if_pos rfl, ← mul_assoc, hsign, one_mul, sub_sub_cancel]

/-- A linear function of the slacks is one of the left-hand sides. -/
theorem Staged.exists_multipliers (hstaged : Staged width constraints)
    (hrelation : ∀ c ∈ constraints, c.relation ≠ .eq) (weight : ℕ → ℚ) {count : ℕ}
    (hcount : count ≤ constraints.length) :
    ∃ multiplier : ℕ → ℚ, ∀ e change : ℕ → ℚ, (∀ j < width, e j = 0) →
      (∀ k < count, ∀ c, constraints[k]? = some c → c.lhs (width + k) e = change k) →
        ∑ k ∈ Finset.range count, weight k * e (width + k) =
          ∑ k ∈ Finset.range count, multiplier k * change k := by
  induction count generalizing weight with
  | zero => exact ⟨0, by simp⟩
  | succ count ih =>
    have hlast : constraints[count]? = some constraints[count] := List.getElem?_eq_getElem hcount
    obtain ⟨last, hlast⟩ : ∃ last, constraints[count]? = some last := ⟨_, hlast⟩
    have hsign := Constraint.slackSign_mul_slackSign (hrelation last (List.mem_of_getElem? hlast))
    -- the last constraint takes care of its slack, and changes the weights of the ones before
    obtain ⟨multiplier, hmultiplier⟩ := ih
      (fun k => weight k - last.relation.slackSign * weight count * last.coefficients.getD (width + k) 0)
      (Nat.le_of_succ_le hcount)
    refine ⟨Function.update multiplier count (last.relation.slackSign * weight count),
      fun e change hzero hlhs => ?_⟩
    have hbefore := hmultiplier e change hzero fun k hk => hlhs k (Nat.lt_succ_of_lt hk)
    have hsum : ∑ k ∈ Finset.range count,
        Function.update multiplier count (last.relation.slackSign * weight count) k * change k =
          ∑ k ∈ Finset.range count, multiplier k * change k := by
      apply Finset.sum_congr rfl
      intro k hk
      rw [Function.update_of_ne (Finset.mem_range.mp hk).ne]
    have heval : (⟨last.coefficients, last.rhs⟩ : Equation ℚ).eval e =
        ∑ k ∈ Finset.range count, last.coefficients.getD (width + k) 0 * e (width + k) :=
      Equation.eval_of_zero_below (hstaged count last hlast) hzero
    have hchange := hlhs count (Nat.lt_succ_self count) last hlast
    rw [Constraint.lhs, heval] at hchange
    have hsplit : ∑ k ∈ Finset.range count, (weight k -
        last.relation.slackSign * weight count * last.coefficients.getD (width + k) 0) * e (width + k) =
          ∑ k ∈ Finset.range count, weight k * e (width + k) - last.relation.slackSign * weight count *
            ∑ k ∈ Finset.range count, last.coefficients.getD (width + k) 0 * e (width + k) := by
      rw [Finset.mul_sum, ← Finset.sum_sub_distrib]
      exact Finset.sum_congr rfl fun k _ => by ring
    rw [Finset.sum_range_succ, Finset.sum_range_succ, Function.update_self, hsum, ← hbefore, hsplit,
      ← hchange]
    linear_combination -weight count * e (width + count) * hsign

end Substitution

end WarmSimplex
