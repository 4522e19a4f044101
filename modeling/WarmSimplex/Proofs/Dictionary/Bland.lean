import Mathlib.Data.Finset.Max
import Mathlib.Data.Finset.Powerset
import WarmSimplex.Proofs.Dictionary.Bases
import WarmSimplex.Proofs.Trail

/-!
# Pivots by the lowest index

A pivot goes by the lowest index if the first column of negative reduced cost enters, and if among the
rows that keep it at zero the one with the lowest basic column leaves. From a feasible basis such
pivots never come back to a set of basic columns, so their number is bounded.

Only ties at zero matter: a row that lets the entering column grow makes the objective grow too, and
the objective never comes back. The choice between such rows is left open.
-/

namespace WarmSimplex

open TwoPhase (BasicRow)

namespace Dictionary

/-- A pivot by the lowest index, on a row that is given with its place. -/
structure BlandPivot (d : Dictionary) (row column : ℕ) (r : BasicRow ℚ) : Prop where
  row : d.rows[row]? = some r
  cost : d.objective.coefficient column < 0
  first : ∀ j < column, 0 ≤ d.objective.coefficient j
  rises : 0 < r.coefficient column
  tightest : ∀ s ∈ d.rows, 0 < s.coefficient column →
    r.rhs / r.coefficient column ≤ s.rhs / s.coefficient column
  lowest : r.rhs = 0 → ∀ s ∈ d.rows, 0 < s.coefficient column → s.rhs = 0 → r.basic ≤ s.basic

/-- The second dictionary comes from the first one by a pivot by the lowest index. -/
def BlandStep (d next : Dictionary) : Prop :=
  ∃ row column r, d.BlandPivot row column r ∧ next = d.pivot row column

variable {d later : Dictionary} {row column : ℕ} {r : BasicRow ℚ}

/-! ## One pivot -/

/-- A pivot by the lowest index goes to another feasible basis. -/
theorem Rewrites.blandPivot (h : d.Rewrites later) (hpivot : later.BlandPivot row column r) :
    d.Rewrites (later.pivot row column) :=
  h.pivot hpivot.row hpivot.rises hpivot.tightest

/-- A pivot by the lowest index does not lower the objective, and leaves it as it is only if the
right-hand side of its row is zero. -/
theorem BlandPivot.objective_le (hpivot : d.BlandPivot row column r)
    (hnonneg : ∀ s ∈ d.rows, 0 ≤ s.rhs) :
    d.objective.rhs ≤ (d.pivot row column).objective.rhs ∧
      ((d.pivot row column).objective.rhs = d.objective.rhs → r.rhs = 0) := by
  have hrhs : 0 ≤ r.rhs := hnonneg r (List.mem_of_getElem? hpivot.row)
  have hstep : 0 ≤ r.rhs / r.coefficient column := div_nonneg hrhs hpivot.rises.le
  rw [objective_rhs_pivot hpivot.row]
  constructor
  · have hgain := mul_nonpos_of_nonpos_of_nonneg hpivot.cost.le hstep
    linarith
  · intro hsame
    have hproduct : d.objective.coefficient column * (r.rhs / r.coefficient column) = 0 := by
      linarith
    rcases mul_eq_zero.mp hproduct with hcost | hratio
    · exact absurd hcost hpivot.cost.ne
    · rcases div_eq_zero_iff.mp hratio with hzero | hrises
      · exact hzero
      · exact absurd hrises hpivot.rises.ne'

/-- Two objective rows that agree where the rows of the first dictionary hold differ in the sign of a
reduced cost only if some row of it makes up for the difference. -/
theorem exists_row_of_cost (hd : d.Canonical) (hcolumns : later.columns = d.columns)
    (hgap : ∀ v, d.Holds v → later.objective.gap v = d.objective.gap v)
    (hcost : d.objective.coefficient column < 0)
    (hlater : 0 ≤ later.objective.coefficient column) :
    ∃ s ∈ d.rows, 0 < later.objective.coefficient s.basic * s.coefficient column := by
  have hin : column < d.columns := by
    by_contra hout
    exact hcost.ne (Equation.coefficient_eq_zero_of_le (not_lt.mp hout))
  have hnonbasic : ∀ s ∈ d.rows, s.basic ≠ column := fun s hs hbasic =>
    notMem_basicColumns_of_cost hd hcost.ne (mem_basicColumns.mpr ⟨s, hs, hbasic⟩)
  -- one step along the column changes both objectives by the same amount
  have hchange : ∑ j ∈ Finset.range d.columns, later.objective.coefficient j *
      (d.along column 1 j - d.along column 0 j) = d.objective.coefficient column := by
    have hone := hgap _ (holds_along hd hin hnonbasic 1)
    have hzero := hgap _ (holds_along hd hin hnonbasic 0)
    rw [gap_along hd hin hnonbasic, Equation.gap, Equation.eval, ← columns, hcolumns] at hone hzero
    simp only [mul_sub, Finset.sum_sub_distrib]
    linarith
  by_contra hnone
  push Not at hnone
  refine absurd hchange (ne_of_gt (hcost.trans_le (Finset.sum_nonneg fun j _ => ?_)))
  by_cases hj : j = column
  · subst hj
    simpa [along] using hlater
  · by_cases hbasic : j ∈ d.basicColumns
    · obtain ⟨s, hs, rfl⟩ := mem_basicColumns.mp hbasic
      rw [along_basic hd hnonbasic 1 hs, along_basic hd hnonbasic 0 hs]
      linarith [hnone s hs]
    · have hrows : ∀ s ∈ d.rows, s.basic ≠ j := fun s hs heq =>
        hbasic (mem_basicColumns.mpr ⟨s, hs, heq⟩)
      simp [along_nonbasic hrows, hj]

/-- A column cannot enter after it has left for a lower one, as long as the basic point stays and no
higher column has changed sides: a row with a lower basic column would have had to leave in its
place. -/
theorem not_blandPivot_of_leaving {row' : ℕ} {r' : BasicRow ℚ} (hd : d.Canonical)
    (hlater : later.Canonical) (hcolumns : later.columns = d.columns)
    (hgap : ∀ v, d.Holds v → later.objective.gap v = d.objective.gap v)
    (hpoint : later.basicPoint = d.basicPoint) (hleaves : d.BlandPivot row column r)
    (hlower : column < r.basic)
    (hhighest : ∀ j ∈ d.basicColumns, j ∉ later.basicColumns → j ≤ r.basic) :
    ¬later.BlandPivot row' r.basic r' := by
  intro henters
  have hr : r ∈ d.rows := List.mem_of_getElem? hleaves.row
  have houtside : r.basic ∉ later.basicColumns :=
    notMem_basicColumns_of_cost hlater henters.cost.ne
  -- a column that is basic in one of the dictionaries only has value zero in both
  have hidle : ∀ s ∈ d.rows, s.basic ∉ later.basicColumns → s.rhs = 0 := fun s hs hout => by
    rw [← basicPoint_basic hd hs, ← hpoint, basicPoint_eq_zero hout]
  obtain ⟨s, hs, hsigns⟩ := exists_row_of_cost hd hcolumns hgap hleaves.cost
    (henters.first column hlower)
  have hout : s.basic ∉ later.basicColumns :=
    notMem_basicColumns_of_cost hlater fun hzero => by simp [hzero] at hsigns
  have hle : s.basic ≤ r.basic := hhighest _ (mem_basicColumns.mpr ⟨s, hs, rfl⟩) hout
  rcases hle.lt_or_eq with hlt | heq
  · have hcost : 0 ≤ later.objective.coefficient s.basic := henters.first _ hlt
    have hrises : 0 < s.coefficient column := pos_of_mul_pos_right hsigns hcost
    have hlowest := hleaves.lowest (hidle r hr houtside) s hs hrises (hidle s hs hout)
    exact absurd hlowest (not_le.mpr hlt)
  · have hsame : s = r := List.inj_on_of_nodup_map hd.solved.nodup hs hr heq
    rw [hsame] at hsigns
    exact absurd hsigns (not_lt.mpr (mul_nonpos_of_nonpos_of_nonneg henters.cost.le hleaves.rises.le))

/-! ## Cycles -/

/-- A condition that holds at one place of a cycle and fails at another one begins to hold
somewhere. -/
theorem exists_rise {P : ℕ → Prop} {n a b : ℕ} (ha : a ≤ n) (hb : b ≤ n) (hends : P 0 → P n)
    (hholds : P a) (hfails : ¬P b) : ∃ i < n, ¬P i ∧ P (i + 1) := by
  by_contra hnone
  have hstay : ∀ i j, i ≤ j → j ≤ n → ¬P i → ¬P j := by
    intro i j hij
    induction j, hij using Nat.le_induction with
    | base => exact fun _ hi => hi
    | succ j _ ih => exact fun hj hi hnext => hnone ⟨j, hj, ih (Nat.le_of_lt hj) hi, hnext⟩
  have hfirst : P 0 := not_not.mp fun hzero => hstay 0 a (Nat.zero_le a) ha hzero hholds
  exact hstay b n hb le_rfl hfails (hends hfirst)

/-- Pivots by the lowest index that come back to the basis they start from. -/
structure Cycle (d : ℕ → Dictionary) (n : ℕ) : Prop where
  rewrites : ∀ i ≤ n, (d 0).Rewrites (d i)
  step : ∀ i < n, (d i).BlandStep (d (i + 1))
  ends : (d n).basicColumns = (d 0).basicColumns

/-- The columns that enter the basis in the first so many pivots. -/
def entered (d : ℕ → Dictionary) (n : ℕ) : Finset ℕ :=
  (Finset.range n).biUnion fun i => (d (i + 1)).basicColumns \ (d i).basicColumns

namespace Cycle

variable {d : ℕ → Dictionary} {n : ℕ}

/-- The basic point at the end of a cycle is that of its start. -/
theorem basicPoint_last (h : Cycle d n) : (d n).basicPoint = (d 0).basicPoint := by
  have hlast := h.rewrites n le_rfl
  apply eq_basicPoint (h.rewrites 0 (Nat.zero_le n)).canonical
  · exact (hlast.holds_iff _).mp (holds_basicPoint hlast.canonical)
  · intro j hj
    rw [← h.ends] at hj
    exact basicPoint_eq_zero hj

/-- The objective does not change in a cycle: it is never lowered, and it is back at the end. -/
theorem objective_rhs_eq (h : Cycle d n) {i : ℕ} (hi : i < n) :
    (d (i + 1)).objective.rhs = (d i).objective.rhs := by
  have hclimb : ∀ a b, a ≤ b → b ≤ n → (d a).objective.rhs ≤ (d b).objective.rhs := by
    intro a b hab
    induction b, hab using Nat.le_induction with
    | base => exact fun _ => le_rfl
    | succ b _ ih =>
      intro hb
      obtain ⟨row, column, r, hpivot, hnext⟩ := h.step b hb
      have hstep := (hpivot.objective_le (h.rewrites b (Nat.le_of_lt hb)).nonneg).1
      rw [← hnext] at hstep
      exact (ih (Nat.le_of_lt hb)).trans hstep
  have hends : (d n).objective.rhs = (d 0).objective.rhs := by
    have hfirst := h.rewrites 0 (Nat.zero_le n)
    have hlast := h.rewrites n le_rfl
    rw [← gap_basicPoint hlast.canonical, h.basicPoint_last,
      hlast.gap _ (holds_basicPoint hfirst.canonical), gap_basicPoint hfirst.canonical]
  have hbefore := hclimb 0 i (Nat.zero_le i) (Nat.le_of_lt hi)
  have hafter := hclimb (i + 1) n hi le_rfl
  exact le_antisymm (by linarith) (hclimb i (i + 1) (Nat.le_succ i) hi)

/-- The basic point does not change in a cycle. -/
theorem basicPoint_eq (h : Cycle d n) {i : ℕ} (hi : i ≤ n) :
    (d i).basicPoint = (d 0).basicPoint := by
  induction i with
  | zero => rfl
  | succ i ih =>
    obtain ⟨row, column, r, hpivot, hnext⟩ := h.step i hi
    have hrewrites := h.rewrites i (Nat.le_of_lt hi)
    have hsame := h.objective_rhs_eq hi
    rw [hnext] at hsame
    rw [hnext, basicPoint_pivot_of_zero hrewrites.canonical hpivot.row hpivot.rises.ne'
      ((hpivot.objective_le hrewrites.nonneg).2 hsame), ih (Nat.le_of_lt hi)]

/-- A column that is basic only after a pivot is the one that enters. -/
theorem blandPivot_of_entering (h : Cycle d n) {i j : ℕ} (hi : i < n)
    (hbefore : j ∉ (d i).basicColumns) (hafter : j ∈ (d (i + 1)).basicColumns) :
    ∃ row r, (d i).BlandPivot row j r := by
  obtain ⟨row, column, r, hpivot, hnext⟩ := h.step i hi
  have hcanonical := (h.rewrites i (Nat.le_of_lt hi)).canonical
  rw [hnext, mem_basicColumns_pivot hcanonical hpivot.row] at hafter
  rcases hafter with rfl | ⟨hbasic, _⟩
  · exact ⟨row, r, hpivot⟩
  · exact absurd hbasic hbefore

/-- A column that is basic only before a pivot is the one of its row. -/
theorem blandPivot_of_leaving (h : Cycle d n) {i j : ℕ} (hi : i < n)
    (hbefore : j ∈ (d i).basicColumns) (hafter : j ∉ (d (i + 1)).basicColumns) :
    ∃ row column r, (d i).BlandPivot row column r ∧ r.basic = j ∧
      column ∉ (d i).basicColumns ∧ column ∈ (d (i + 1)).basicColumns := by
  obtain ⟨row, column, r, hpivot, hnext⟩ := h.step i hi
  have hcanonical := (h.rewrites i (Nat.le_of_lt hi)).canonical
  rw [hnext, mem_basicColumns_pivot hcanonical hpivot.row, not_or, not_and, not_not] at hafter
  refine ⟨row, column, r, hpivot, (hafter.2 hbefore).symm,
    notMem_basicColumns_of_cost hcanonical hpivot.cost.ne, ?_⟩
  rw [hnext, mem_basicColumns_pivot hcanonical hpivot.row]
  exact .inl rfl

/-- A cycle has no pivots. -/
theorem length_eq_zero (h : Cycle d n) : n = 0 := by
  by_contra hn
  have hmem : ∀ j, j ∈ entered d n ↔
      ∃ i < n, j ∉ (d i).basicColumns ∧ j ∈ (d (i + 1)).basicColumns := by
    intro j
    simp [entered, and_comm]
  have hnonempty : (entered d n).Nonempty := by
    obtain ⟨row, column, r, hpivot, hnext⟩ := h.step 0 (Nat.pos_of_ne_zero hn)
    have hcanonical := (h.rewrites 0 (Nat.zero_le n)).canonical
    refine ⟨column, (hmem column).mpr ⟨0, Nat.pos_of_ne_zero hn,
      notMem_basicColumns_of_cost hcanonical hpivot.cost.ne, ?_⟩⟩
    rw [hnext, mem_basicColumns_pivot hcanonical hpivot.row]
    exact .inl rfl
  -- the highest column that enters somewhere also leaves somewhere
  obtain ⟨highest, henters, hmax⟩ := (entered d n).exists_max_image id hnonempty
  obtain ⟨i, hi, hbefore, hafter⟩ := (hmem highest).mp henters
  obtain ⟨k, hk, hin, hout⟩ := exists_rise (P := fun k => highest ∉ (d k).basicColumns)
    (Nat.le_of_lt hi) hi (fun hfirst => by rwa [h.ends]) hbefore (not_not.mpr hafter)
  obtain ⟨row', r', hentering⟩ := h.blandPivot_of_entering hi hbefore hafter
  obtain ⟨row, column, r, hleaving, rfl, hcolumn, hnext⟩ :=
    h.blandPivot_of_leaving hk (not_not.mp hin) hout
  have hi' := h.rewrites i (Nat.le_of_lt hi)
  have hk' := h.rewrites k (Nat.le_of_lt hk)
  have hle : column ≤ r.basic := hmax column ((hmem column).mpr ⟨k, hk, hcolumn, hnext⟩)
  have hne : column ≠ r.basic := fun heq => hcolumn (heq ▸ not_not.mp hin)
  refine not_blandPivot_of_leaving hk'.canonical hi'.canonical (hi'.columns.trans hk'.columns.symm)
    (fun v hv => ?_) ?_ hleaving (lt_of_le_of_ne hle hne) (fun j hj hj' => ?_) hentering
  · have hstart := (hk'.holds_iff v).mp hv
    rw [hi'.gap v hstart, hk'.gap v hstart]
  · rw [h.basicPoint_eq (Nat.le_of_lt hi), h.basicPoint_eq (Nat.le_of_lt hk)]
  · exact hmax j ((hmem j).mpr (exists_rise (P := fun k => j ∈ (d k).basicColumns)
      (Nat.le_of_lt hk) (Nat.le_of_lt hi) (fun hfirst => by rwa [h.ends]) hj hj'))

end Cycle

/-! ## Runs -/

/-- Later dictionaries of a run are an earlier one in terms of a feasible basis. -/
theorem rewrites_getElem {run : List Dictionary} (hchain : run.IsChain BlandStep) {i j : ℕ}
    (hij : i ≤ j) (hj : j < run.length) (hstart : run[i].Rewrites run[i]) :
    run[i].Rewrites run[j] := by
  induction j, hij using Nat.le_induction with
  | base => exact hstart
  | succ j hij ih =>
    obtain ⟨row, column, r, hpivot, hnext⟩ := List.isChain_iff_getElem.mp hchain j hj
    rw [hnext]
    exact (ih (Nat.lt_of_succ_lt hj) hstart).blandPivot hpivot

/-- Pivots by the lowest index from a feasible basis never come back to a set of basic columns. -/
theorem nodup_basicColumns {run : List Dictionary} (hchain : run.IsChain BlandStep)
    (hfirst : ∀ first ∈ run.head?, first.Rewrites first) : (run.map basicColumns).Nodup := by
  rw [List.Nodup, List.pairwise_map, List.pairwise_iff_getElem]
  intro i j hi hj hij hsame
  have hstart : run[i].Rewrites run[i] := by
    have hzero : 0 < run.length := Nat.zero_lt_of_lt hi
    have hhead : run[0] ∈ run.head? := by
      rw [List.head?_eq_getElem?, List.getElem?_eq_getElem hzero]
      rfl
    have hrewrites := rewrites_getElem hchain (Nat.zero_le i) hi (hfirst _ hhead)
    exact .refl hrewrites.canonical hrewrites.nonneg
  -- the part of the run from the first of the two places on
  let part : ℕ → Dictionary := fun k => run.getD (i + k) run[i]
  have hpart : ∀ k (hk : i + k < run.length), part k = run[i + k] :=
    fun k hk => List.getD_eq_getElem _ _ hk
  have hcycle : Cycle part (j - i) := by
    refine ⟨fun k hk => ?_, fun k hk => ?_, ?_⟩
    · rw [hpart 0 hi, hpart k (by omega)]
      exact rewrites_getElem hchain (Nat.le_add_right i k) (by omega) hstart
    · rw [hpart k (by omega), hpart (k + 1) (by omega)]
      exact List.isChain_iff_getElem.mp hchain (i + k) (by omega)
    · rw [hpart 0 hi, hpart (j - i) (by omega)]
      simp only [Nat.add_sub_cancel' hij.le]
      exact hsame.symm
  have hnothing := hcycle.length_eq_zero
  omega

/-- A run of pivots by the lowest index is no longer than there are sets of as many columns as rows. -/
theorem length_le_choose {run : List Dictionary} (hchain : (d :: run).IsChain BlandStep)
    (hd : d.Rewrites d) : (d :: run).length ≤ d.columns.choose d.rows.length := by
  have hnodup : ((d :: run).map basicColumns).Nodup := by
    apply nodup_basicColumns hchain
    rintro first ⟨⟩
    exact hd
  have hsubset : ((d :: run).map basicColumns).toFinset ⊆
      (Finset.range d.columns).powersetCard d.rows.length := by
    intro basis hbasis
    obtain ⟨e, he, rfl⟩ := List.mem_map.mp (List.mem_toFinset.mp hbasis)
    obtain ⟨i, hi, rfl⟩ := List.mem_iff_getElem.mp he
    have hrewrites : d.Rewrites (d :: run)[i] := rewrites_getElem hchain (Nat.zero_le i) hi hd
    rw [Finset.mem_powersetCard, card_basicColumns hrewrites.canonical, hrewrites.size,
      ← hrewrites.columns]
    exact ⟨basicColumns_subset_range hrewrites.canonical, rfl⟩
  have hcard := Finset.card_le_card hsubset
  rwa [List.toFinset_card_of_nodup hnodup, List.length_map, Finset.card_powersetCard,
    Finset.card_range] at hcard

/-- A loop that pivots by the lowest index from a feasible basis never comes back to a set of basic
columns, and goes through no more states than there are sets of as many columns as rows. -/
theorem visits_bases_once {σ : Type} {step : σ → Option σ} {f : σ → Dictionary} {I Q : σ → Prop}
    (hstep : ∀ s next, I s → Q s → step s = some next → I next ∧ (f s).BlandStep (f next))
    {s : σ} (hs : I s) (hfeasible : (f s).Rewrites (f s)) {budget : ℕ}
    (hall : ∀ u ∈ trail step budget s, Q u) :
    ((trail step budget s).map fun u => (f u).basicColumns).Nodup ∧
      (trail step budget s).length ≤ (f s).columns.choose (f s).rows.length := by
  have hchain : ((trail step budget s).map f).IsChain BlandStep :=
    (List.isChain_map f).mpr (isChain_trail hstep hs hall)
  obtain ⟨rest, hrest⟩ := trail_eq_cons step budget s
  rw [hrest, List.map_cons] at hchain
  constructor
  · have hnodup := nodup_basicColumns hchain (by rintro first ⟨⟩; exact hfeasible)
    rwa [← List.map_cons, ← hrest, List.map_map] at hnodup
  · have hlength := length_le_choose hchain hfeasible
    rwa [← List.map_cons, ← hrest, List.length_map] at hlength

end Dictionary

end WarmSimplex
