import Mathlib.Data.List.Chain

/-!
# Trails

A loop with a budget goes from state to state until there is no further step or the budget is used up.
Its trail lists these states, so that a property of the whole run is one of a list.

Only the states count here. What a loop reports at its end is not part of a trail.
-/

namespace WarmSimplex

variable {σ : Type} {step : σ → Option σ} {budget : ℕ} {s : σ}

/-- The states that steps lead through, from the first to the last one. -/
def trail (step : σ → Option σ) : ℕ → σ → List σ
  | 0, s => [s]
  | budget + 1, s =>
    match step s with
    | none => [s]
    | some next => s :: trail step budget next

/-- A trail stops where there is no step. -/
theorem trail_of_stop (h : step s = none) (budget : ℕ) : trail step budget s = [s] := by
  cases budget with
  | zero => rfl
  | succ budget => rw [trail, h]

/-- A trail goes on from the next state. -/
theorem trail_of_step {next : σ} (h : step s = some next) (budget : ℕ) :
    trail step (budget + 1) s = s :: trail step budget next := by
  rw [trail, h]

/-- A trail begins with its first state. -/
theorem trail_eq_cons (step : σ → Option σ) (budget : ℕ) (s : σ) :
    ∃ rest, trail step budget s = s :: rest := by
  cases budget with
  | zero => exact ⟨[], rfl⟩
  | succ budget =>
    cases hnext : step s with
    | none => exact ⟨[], trail_of_stop hnext _⟩
    | some next => exact ⟨_, trail_of_step hnext budget⟩

/-- A trail goes through its first state. -/
theorem mem_trail (step : σ → Option σ) (budget : ℕ) (s : σ) : s ∈ trail step budget s := by
  obtain ⟨rest, hrest⟩ := trail_eq_cons step budget s
  rw [hrest]
  exact List.mem_cons_self

/-- The last state of a longer trail is that of the trail from the next state. -/
theorem getLast?_trail_of_step {next : σ} (h : step s = some next) (budget : ℕ) :
    (trail step (budget + 1) s).getLast? = (trail step budget next).getLast? := by
  obtain ⟨rest, hrest⟩ := trail_eq_cons step budget next
  rw [trail_of_step h, hrest, List.getLast?_cons_cons]

/-- If a step keeps an invariant and relates each state that is good enough to the next one, the states
of a trail of such states are related in turn. -/
theorem isChain_trail {I Q : σ → Prop} {R : σ → σ → Prop}
    (hstep : ∀ s next, I s → Q s → step s = some next → I next ∧ R s next) (hs : I s)
    (hall : ∀ u ∈ trail step budget s, Q u) : (trail step budget s).IsChain R := by
  induction budget generalizing s with
  | zero => exact .singleton _
  | succ budget ih =>
    cases hnext : step s with
    | none =>
      rw [trail_of_stop hnext]
      exact .singleton _
    | some next =>
      rw [trail_of_step hnext] at hall ⊢
      obtain ⟨hkeeps, hrelated⟩ := hstep s next hs (hall s List.mem_cons_self) hnext
      have hrest := ih hkeeps fun u hu => hall u (List.mem_cons_of_mem _ hu)
      obtain ⟨rest, heq⟩ := trail_eq_cons step budget next
      rw [heq] at hrest ⊢
      exact .cons_cons hrelated hrest

end WarmSimplex
