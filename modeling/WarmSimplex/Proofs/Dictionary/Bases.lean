import Mathlib.Data.Finset.Card
import WarmSimplex.Proofs.Dictionary.Pivot

/-!
# Bases of a dictionary

The basic columns decide the basic point: it is the only point that meets the rows and is zero outside
the basis. A pivot exchanges one basic column for another, and moves the basic point only if the
right-hand side of its row is not zero.

A dictionary rewrites another one if it is that one in terms of a feasible basis. Which pivots lead
from one to the other is not looked at here.
-/

namespace WarmSimplex

open TwoPhase (BasicRow)

namespace Dictionary

/-- The columns that the rows are solved for. -/
def basicColumns (d : Dictionary) : Finset ℕ := (d.rows.map (·.basic)).toFinset

/-- The second dictionary is the first one in terms of a feasible basis. -/
structure Rewrites (d later : Dictionary) : Prop where
  canonical : later.Canonical
  nonneg : ∀ r ∈ later.rows, 0 ≤ r.rhs
  size : later.rows.length = d.rows.length
  columns : later.columns = d.columns
  holds_iff : ∀ v, later.Holds v ↔ d.Holds v
  gap : ∀ v, d.Holds v → later.objective.gap v = d.objective.gap v

variable {d later : Dictionary} {row column : ℕ} {r : BasicRow ℚ}

/-! ## Basic columns and basic points -/

/-- A column is basic if a row is solved for it. -/
theorem mem_basicColumns {j : ℕ} : j ∈ d.basicColumns ↔ ∃ s ∈ d.rows, s.basic = j := by
  simp [basicColumns]

/-- There are as many basic columns as rows. -/
theorem card_basicColumns (hd : d.Canonical) : d.basicColumns.card = d.rows.length := by
  rw [basicColumns, List.toFinset_card_of_nodup hd.solved.nodup, List.length_map]

/-- Basic columns are columns. -/
theorem basicColumns_subset_range (hd : d.Canonical) :
    d.basicColumns ⊆ Finset.range d.columns := by
  intro j hj
  obtain ⟨s, hs, rfl⟩ := mem_basicColumns.mp hj
  exact Finset.mem_range.mpr (hd.solved.inside hs)

/-- A pivot takes its column into the basis and the column of its row out of it. -/
theorem mem_basicColumns_pivot (hd : d.Canonical) (hr : d.rows[row]? = some r) {j : ℕ} :
    j ∈ (d.pivot row column).basicColumns ↔
      j = column ∨ j ∈ d.basicColumns ∧ j ≠ r.basic := by
  simp only [mem_basicColumns]
  constructor
  · rintro ⟨after, hafter, rfl⟩
    rcases (mem_pivot_rows hr).mp hafter with rfl | ⟨i, s, hi, hs, rfl⟩
    · exact .inl rfl
    · exact .inr ⟨⟨s, List.mem_of_getElem? hs, rfl⟩, hd.solved.basic_ne (s := s) hr hs hi.symm⟩
  · rintro (rfl | ⟨⟨s, hs, rfl⟩, hne⟩)
    · exact ⟨_, (mem_pivot_rows hr).mpr (.inl rfl), rfl⟩
    · obtain ⟨i, hi⟩ := List.mem_iff_getElem?.mp hs
      have hrow : i ≠ row := by
        rintro rfl
        exact hne (congrArg (·.basic) (Option.some.inj (hi.symm.trans hr)))
      exact ⟨_, (mem_pivot_rows hr).mpr (.inr ⟨i, s, hrow, hi, rfl⟩), rfl⟩

/-- A column with a reduced cost is not basic. -/
theorem notMem_basicColumns_of_cost (hd : d.Canonical)
    (hcost : d.objective.coefficient column ≠ 0) : column ∉ d.basicColumns := by
  intro hmem
  obtain ⟨s, hs, rfl⟩ := mem_basicColumns.mp hmem
  exact hcost (hd.priced s hs)

/-- A column outside the basis is zero at the basic point. -/
theorem basicPoint_eq_zero {j : ℕ} (hj : j ∉ d.basicColumns) : d.basicPoint j = 0 :=
  basicPoint_nonbasic fun s hs hbasic => hj (mem_basicColumns.mpr ⟨s, hs, hbasic⟩)

/-- The basic point is the only point that meets the rows and is zero outside the basis. -/
theorem eq_basicPoint (hd : d.Canonical) {v : ℕ → ℚ} (hv : d.Holds v)
    (hzero : ∀ j, j ∉ d.basicColumns → v j = 0) : v = d.basicPoint := by
  funext j
  by_cases hj : j ∈ d.basicColumns
  · obtain ⟨s, hs, rfl⟩ := mem_basicColumns.mp hj
    have hrest : ∑ k ∈ nonbasic d.columns d.rows, s.coefficient k * v k = 0 := by
      apply Finset.sum_eq_zero
      intro k hk
      rw [hzero k, mul_zero]
      intro hbasic
      obtain ⟨q, hq, hqk⟩ := mem_basicColumns.mp hbasic
      exact (Finset.mem_filter.mp hk).2 q hq hqk
    have hrow : s.eval v = s.rhs := hv s hs
    rw [hd.solved.eval_row hs, hrest, add_zero] at hrow
    rw [hrow, basicPoint_basic hd hs]
  · rw [hzero j hj, basicPoint_eq_zero hj]

/-- A pivot on a row with right-hand side zero keeps the basic point. -/
theorem basicPoint_pivot_of_zero (hd : d.Canonical) (hr : d.rows[row]? = some r)
    (hpivot : r.coefficient column ≠ 0) (hzero : r.rhs = 0) :
    (d.pivot row column).basicPoint = d.basicPoint := by
  symm
  apply eq_basicPoint (canonical_pivot hd hr hpivot)
  · exact (holds_pivot hd.solved hr hpivot _).mpr (holds_basicPoint hd)
  · intro j hj
    rw [mem_basicColumns_pivot hd hr, not_or, not_and, not_not] at hj
    by_cases hbasic : j ∈ d.basicColumns
    · rw [hj.2 hbasic, basicPoint_basic hd (List.mem_of_getElem? hr), hzero]
    · exact basicPoint_eq_zero hbasic

/-! ## Rewriting -/

/-- A feasible canonical dictionary is itself in terms of its basis. -/
theorem Rewrites.refl (hd : d.Canonical) (hnonneg : ∀ r ∈ d.rows, 0 ≤ r.rhs) : d.Rewrites d :=
  ⟨hd, hnonneg, rfl, rfl, fun _ => Iff.rfl, fun _ _ => rfl⟩

/-- A pivot on a row that bounds its column most tightly goes to another feasible basis. -/
theorem Rewrites.pivot (h : d.Rewrites later) (hr : later.rows[row]? = some r)
    (hpositive : 0 < r.coefficient column)
    (hratio : ∀ s ∈ later.rows, 0 < s.coefficient column →
      r.rhs / r.coefficient column ≤ s.rhs / s.coefficient column) :
    d.Rewrites (later.pivot row column) where
  canonical := canonical_pivot h.canonical hr hpositive.ne'
  nonneg := rhs_nonneg_pivot hr hpositive hratio h.nonneg
  size := by
    have hbasis := congrArg List.length (basis_pivot later row column)
    rw [List.length_map, List.length_set, List.length_map] at hbasis
    rw [hbasis, h.size]
  columns := (columns_pivot h.canonical.solved row column).trans h.columns
  holds_iff v := (holds_pivot h.canonical.solved hr hpositive.ne' v).trans (h.holds_iff v)
  gap v hv := by
    rw [gap_pivot h.canonical.solved row column ((h.holds_iff v).mpr hv), h.gap v hv]

end Dictionary

end WarmSimplex
