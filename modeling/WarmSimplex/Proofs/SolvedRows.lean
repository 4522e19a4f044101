import Mathlib.Data.List.Nodup
import WarmSimplex.Proofs.Equation
import WarmSimplex.TwoPhase.Workspace

/-!
# Solved rows

Rows are solved if each has a basic column of its own and the basic columns form an identity
matrix. An equation can then be written over the other columns alone, by subtracting from it the
multiple of each row that clears the basic column of that row. One row after the other is enough:
none brings back a column that an earlier one cleared.

Both solvers keep their rows in this form. Which column a row is solved for is not looked at here.
-/

namespace WarmSimplex

open TwoPhase (BasicRow)

/-- Rows over a number of columns whose basic columns form an identity matrix. -/
structure SolvedRows (columns : ℕ) (rows : List (BasicRow ℚ)) : Prop where
  width : ∀ r ∈ rows, r.coefficients.length = columns
  nodup : (rows.map (·.basic)).Nodup
  own : ∀ r ∈ rows, r.coefficient r.basic = 1
  other : ∀ r ∈ rows, ∀ s ∈ rows, s.basic ≠ r.basic → r.coefficient s.basic = 0

/-- The only entry with a given key is the first one. -/
theorem find?_key {β : Type} {key : β → ℕ} {entries : List β} {entry : β}
    (hnodup : (entries.map key).Nodup) (hentry : entry ∈ entries) :
    entries.find? (key · == key entry) = some entry := by
  cases hfind : entries.find? (key · == key entry) with
  | none => exact absurd (List.find?_eq_none.mp hfind entry hentry) (by simp)
  | some found =>
    have hkey : key found = key entry := by simpa using List.find?_some hfind
    rw [List.inj_on_of_nodup_map hnodup (List.mem_of_find?_eq_some hfind) hentry hkey]

/-- Looking an entry up by its key from the other end finds the same one. -/
theorem find?_reverse_key {β : Type} {key : β → ℕ} {entries : List β}
    (hnodup : (entries.map key).Nodup) (k : ℕ) :
    entries.reverse.find? (key · == k) = entries.find? (key · == k) := by
  cases hfind : entries.find? (key · == k) with
  | none => simpa using hfind
  | some found =>
    have hkey : key found = k := by simpa using List.find?_some hfind
    have hreverse : (entries.reverse.map key).Nodup := by
      rw [List.map_reverse]
      exact List.nodup_reverse.mpr hnodup
    rw [← hkey]
    exact find?_key hreverse (List.mem_reverse.mpr (List.mem_of_find?_eq_some hfind))

namespace SolvedRows

variable {columns : ℕ} {rows : List (BasicRow ℚ)} {r s : BasicRow ℚ}

/-- Basic columns are columns. -/
theorem inside (hrows : SolvedRows columns rows) (hr : r ∈ rows) : r.basic < columns := by
  by_contra hout
  have hzero : r.coefficient r.basic = 0 :=
    Equation.coefficient_eq_zero_of_le (by rw [hrows.width r hr]; exact not_lt.mp hout)
  rw [hrows.own r hr] at hzero
  exact one_ne_zero hzero

/-- Two rows are solved for different columns. -/
theorem basic_ne (hrows : SolvedRows columns rows) {i j : ℕ} (hr : rows[i]? = some r)
    (hs : rows[j]? = some s) (hij : i ≠ j) : s.basic ≠ r.basic := by
  have hnodup := List.nodup_iff_getElem?_ne_getElem?.mp hrows.nodup
  have hi : (rows.map (·.basic))[i]? = some r.basic := by rw [List.getElem?_map, hr]; rfl
  have hj : (rows.map (·.basic))[j]? = some s.basic := by rw [List.getElem?_map, hs]; rfl
  have hilt : i < (rows.map (·.basic)).length := (List.getElem?_eq_some_iff.mp hi).1
  have hjlt : j < (rows.map (·.basic)).length := (List.getElem?_eq_some_iff.mp hj).1
  intro heq
  rcases lt_or_gt_of_ne hij with hlt | hgt
  · exact hnodup i j hlt hjlt (by rw [hi, hj, heq])
  · exact hnodup j i hgt hilt (by rw [hi, hj, heq])

/-- Fewer rows are still solved. -/
theorem sublist {fewer : List (BasicRow ℚ)} (hrows : SolvedRows columns rows)
    (hsub : fewer.Sublist rows) : SolvedRows columns fewer where
  width r hr := hrows.width r (hsub.subset hr)
  nodup := hrows.nodup.sublist (hsub.map _)
  own r hr := hrows.own r (hsub.subset hr)
  other r hr s hs := hrows.other r (hsub.subset hr) s (hsub.subset hs)

/-- A row that is solved for a column of its own, and does not mention the basis, can be added. -/
theorem concat (hrows : SolvedRows columns rows) (hwidth : s.coefficients.length = columns)
    (hown : s.coefficient s.basic = 1) (hold : ∀ r ∈ rows, r.coefficient s.basic = 0)
    (hnew : ∀ r ∈ rows, s.coefficient r.basic = 0) : SolvedRows columns (rows ++ [s]) := by
  have hmem : ∀ r ∈ rows ++ [s], r ∈ rows ∨ r = s := fun r hr => by simpa using hr
  refine ⟨?width, ?nodup, ?own, ?other⟩
  case width =>
    intro r hr
    rcases hmem r hr with hr | rfl
    · exact hrows.width r hr
    · exact hwidth
  case nodup =>
    rw [List.map_append, List.map_singleton, List.nodup_append]
    refine ⟨hrows.nodup, List.nodup_singleton _, fun column hcolumn other hother heq => ?_⟩
    obtain ⟨r, hr, rfl⟩ := List.mem_map.mp hcolumn
    rw [List.mem_singleton.mp hother] at heq
    have hone := hrows.own r hr
    rw [heq, hold r hr] at hone
    exact zero_ne_one hone
  case own =>
    intro r hr
    rcases hmem r hr with hr | rfl
    · exact hrows.own r hr
    · exact hown
  case other =>
    intro r hr q hq hne
    rcases hmem r hr with hr' | rfl <;> rcases hmem q hq with hq' | rfl
    · exact hrows.other r hr' q hq' hne
    · exact hold r hr'
    · exact hnew q hq'
    · exact absurd rfl hne

end SolvedRows

/-- The rows with one more column, which none of them mentions. -/
def widenRows (rows : List (BasicRow ℚ)) : List (BasicRow ℚ) :=
  rows.map fun r => { r with toEquation := r.addColumn 0 }

/-- Rows stay solved if a column is added that none of them mentions. -/
theorem SolvedRows.widen {columns : ℕ} {rows : List (BasicRow ℚ)}
    (hrows : SolvedRows columns rows) : SolvedRows (columns + 1) (widenRows rows) := by
  have hentry : ∀ r ∈ rows, ∀ s ∈ rows,
      (r.addColumn 0).coefficient s.basic = r.coefficient s.basic := by
    intro r hr s hs
    rw [Equation.coefficient_addColumn, if_neg]
    rw [hrows.width r hr]
    exact (hrows.inside hs).ne
  refine ⟨?width, ?nodup, ?own, ?other⟩
  case width =>
    refine List.forall_mem_map.mpr fun r hr => ?_
    rw [Equation.length_addColumn, hrows.width r hr]
  case nodup =>
    rw [widenRows, List.map_map]
    exact hrows.nodup
  case own =>
    refine List.forall_mem_map.mpr fun r hr => ?_
    rw [hentry r hr r hr, hrows.own r hr]
  case other =>
    refine List.forall_mem_map.mpr fun r hr => List.forall_mem_map.mpr fun s hs hne => ?_
    rw [hentry r hr s hs, hrows.other r hr s hs hne]

/-! ## The columns outside the basis -/

/-- The columns that no row is solved for. -/
def nonbasic (columns : ℕ) (rows : List (BasicRow ℚ)) : Finset ℕ :=
  (Finset.range columns).filter fun j => ∀ r ∈ rows, r.basic ≠ j

variable {columns : ℕ} {rows : List (BasicRow ℚ)} {e : Equation ℚ}

/-- An equation without basic columns is a sum over the other ones. -/
theorem Equation.eval_of_cleared (hwidth : e.coefficients.length = columns)
    (hclear : ∀ r ∈ rows, e.coefficient r.basic = 0) (v : ℕ → ℚ) :
    e.eval v = ∑ j ∈ nonbasic columns rows, e.coefficient j * v j := by
  rw [Equation.eval, hwidth]
  symm
  apply Finset.sum_subset (Finset.filter_subset _ _)
  intro j hj hbasic
  simp only [Finset.mem_filter, hj, true_and, not_forall, not_not] at hbasic
  obtain ⟨r, hr, rfl⟩ := hbasic
  rw [hclear r hr, zero_mul]

/-- A row is its basic column and a sum over the columns outside the basis. -/
theorem SolvedRows.eval_row (hrows : SolvedRows columns rows) {r : BasicRow ℚ} (hr : r ∈ rows)
    (v : ℕ → ℚ) : r.eval v = v r.basic + ∑ j ∈ nonbasic columns rows, r.coefficient j * v j := by
  have hinside : r.basic < r.coefficients.length := by
    rw [hrows.width r hr]
    exact hrows.inside hr
  have hwidth : (r.setCoefficient r.basic 0).coefficients.length = columns := by
    rw [Equation.length_setCoefficient, hrows.width r hr]
  have hclear : ∀ s ∈ rows, (r.setCoefficient r.basic 0).coefficient s.basic = 0 := by
    intro s hs
    by_cases heq : r.basic = s.basic
    · rw [← heq, Equation.coefficient_setCoefficient_self 0 hinside]
    · rw [Equation.coefficient_setCoefficient_of_ne _ _ heq,
        hrows.other r hr s hs (Ne.symm heq)]
  have hsum : ∑ j ∈ nonbasic columns rows, (r.setCoefficient r.basic 0).coefficient j * v j =
      ∑ j ∈ nonbasic columns rows, r.coefficient j * v j := by
    apply Finset.sum_congr rfl
    intro j hj
    rw [Equation.coefficient_setCoefficient_of_ne _ _ ((Finset.mem_filter.mp hj).2 r hr)]
  have hcleared := Equation.eval_of_cleared hwidth hclear v
  rw [Equation.eval_setCoefficient hinside, hrows.own r hr, hsum] at hcleared
  linarith

/-! ## Clearing the basic columns of an equation -/

/-- Subtract from an equation the multiple of each row that clears its basic column. -/
def clearBasis (e : Equation ℚ) (rows : List (BasicRow ℚ)) : Equation ℚ :=
  rows.foldl (fun target r => target.subtractMultiple (target.coefficient r.basic) r.toEquation) e

/-- Clearing keeps the width. -/
theorem length_clearBasis (he : e.coefficients.length = columns)
    (hwidth : ∀ r ∈ rows, r.coefficients.length = columns) :
    (clearBasis e rows).coefficients.length = columns := by
  induction rows generalizing e with
  | nil => exact he
  | cons r rest ih =>
    have hr : r.coefficients.length = columns := hwidth r List.mem_cons_self
    exact ih (by simp [he, hr]) fun s hs => hwidth s (List.mem_cons_of_mem _ hs)

/-- A column that no row mentions keeps its coefficient. -/
theorem coefficient_clearBasis_of_unmentioned (he : e.coefficients.length = columns)
    (hwidth : ∀ r ∈ rows, r.coefficients.length = columns) {column : ℕ}
    (hzero : ∀ r ∈ rows, r.coefficient column = 0) :
    (clearBasis e rows).coefficient column = e.coefficient column := by
  induction rows generalizing e with
  | nil => rfl
  | cons r rest ih =>
    have hr : r.coefficients.length = e.coefficients.length := by
      rw [hwidth r List.mem_cons_self, he]
    rw [clearBasis, List.foldl_cons, ← clearBasis,
      ih (by simp [he, hr]) (fun s hs => hwidth s (List.mem_cons_of_mem _ hs))
        (fun s hs => hzero s (List.mem_cons_of_mem _ hs)),
      Equation.coefficient_subtractMultiple _ hr, hzero r List.mem_cons_self, mul_zero, sub_zero]

/-- Rows solved for columns of their own clear all of these columns, since no row brings back the
column of an earlier one. -/
theorem coefficient_clearBasis (he : e.coefficients.length = columns)
    (hrows : SolvedRows columns rows) {s : BasicRow ℚ} (hs : s ∈ rows) :
    (clearBasis e rows).coefficient s.basic = 0 := by
  induction rows generalizing e with
  | nil => cases hs
  | cons r rest ih =>
    have hr : r.coefficients.length = e.coefficients.length := by
      rw [hrows.width r List.mem_cons_self, he]
    have hrest : SolvedRows columns rest := hrows.sublist (List.sublist_cons_self r rest)
    have hnext : (e.subtractMultiple (e.coefficient r.basic) r.toEquation).coefficients.length =
        columns := by simp [he, hr]
    rw [clearBasis, List.foldl_cons, ← clearBasis]
    rcases List.mem_cons.mp hs with rfl | hs
    · have hne : ∀ t ∈ rest, s.basic ≠ t.basic := by
        intro t ht heq
        have hnodup := hrows.nodup
        rw [List.map_cons, List.nodup_cons] at hnodup
        exact hnodup.1 (heq ▸ List.mem_map_of_mem ht)
      rw [coefficient_clearBasis_of_unmentioned hnext hrest.width fun t ht =>
          hrows.other t (List.mem_cons_of_mem _ ht) s List.mem_cons_self (hne t ht),
        Equation.coefficient_subtractMultiple _ hr, hrows.own s List.mem_cons_self]
      ring
    · exact ih hnext hrest hs

/-- Where the rows hold, clearing keeps the distance of the sides. -/
theorem gap_clearBasis (he : e.coefficients.length = columns)
    (hwidth : ∀ r ∈ rows, r.coefficients.length = columns) {v : ℕ → ℚ}
    (hv : ∀ r ∈ rows, r.Holds v) : (clearBasis e rows).gap v = e.gap v := by
  induction rows generalizing e with
  | nil => rfl
  | cons r rest ih =>
    have hr : r.coefficients.length = e.coefficients.length := by
      rw [hwidth r List.mem_cons_self, he]
    rw [clearBasis, List.foldl_cons, ← clearBasis,
      ih (by simp [he, hr]) (fun s hs => hwidth s (List.mem_cons_of_mem _ hs))
        (fun s hs => hv s (List.mem_cons_of_mem _ hs)),
      Equation.gap_subtractMultiple _ hr,
      Equation.holds_iff_gap_eq_zero.mp (hv r List.mem_cons_self), mul_zero, sub_zero]

end WarmSimplex
