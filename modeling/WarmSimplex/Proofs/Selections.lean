import Mathlib.Data.Prod.Lex
import Mathlib.Order.Bounds.Basic
import WarmSimplex.Proofs.History
import WarmSimplex.Proofs.RatioTests

/-!
# Choices within the tolerance

Each pivot rule looks at the entries that meet a condition, and chooses by the value of an entry. The
choice is never above the best value by more than the tolerance, and without a tolerance it is the first
of the best entries. The candidates of a dual pivot are ranked in the same way.

Of the entries within the tolerance of the best value a rule does not always choose the first. Being within
the tolerance is not transitive: an entry that is worse than all of these can keep the first one out, and
lose to a later one.
-/

namespace WarmSimplex

/-! ## Choosing by value -/

section Choosing

variable {tolerance : ℚ} {eligible : ℕ → ℚ → Prop} {choice : Option ℕ}

/-- The value is above no eligible one by more than the tolerance. -/
def WithinLowest (tolerance : ℚ) (eligible : ℕ → ℚ → Prop) (value : ℚ) : Prop :=
  ∀ other lowest, eligible other lowest → value ≤ lowest + tolerance

/-- The value of the index is within the tolerance of the lowest one. -/
def TiedForLowest (tolerance : ℚ) (eligible : ℕ → ℚ → Prop) (index : ℕ) : Prop :=
  ∃ value, eligible index value ∧ WithinLowest tolerance eligible value

/-- No value that is not tied for the lowest is within the tolerance of a later one that is. -/
def TiesStandApart (tolerance : ℚ) (eligible : ℕ → ℚ → Prop) : Prop :=
  ∀ earlier higher later lower, earlier < later → eligible earlier higher → eligible later lower →
    WithinLowest tolerance eligible lower → higher ≤ lower + tolerance →
      WithinLowest tolerance eligible higher

/-- How a rule that scans the eligible values from the lowest index up chooses among them. What it
overlooks is tied for the lowest, but came after a value that is not, and that was not to be beaten by it. -/
structure ChoosesByScan (tolerance : ℚ) (eligible : ℕ → ℚ → Prop) (choice : Option ℕ) : Prop where
  none_iff : choice = none ↔ ∀ index value, ¬eligible index value
  tied : ∀ index, choice = some index → TiedForLowest tolerance eligible index
  overlooks : ∀ index, choice = some index → ∀ passed < index, ∀ lower, eligible passed lower →
    WithinLowest tolerance eligible lower → ∃ earlier < passed, ∃ higher, eligible earlier higher ∧
      higher ≤ lower + tolerance ∧ ¬WithinLowest tolerance eligible higher

namespace ChoosesByScan

/-- If the ties stand apart, the rule chooses the first of them. -/
theorem isLeast (h : ChoosesByScan tolerance eligible choice)
    (hapart : TiesStandApart tolerance eligible) {index : ℕ} (hchoice : choice = some index) :
    IsLeast {tied | TiedForLowest tolerance eligible tied} index := by
  refine ⟨h.tied index hchoice, fun passed ⟨lower, hlower, hwithin⟩ => ?_⟩
  by_contra hbefore
  obtain ⟨earlier, hearlier, higher, hhigher, hnear, hfar⟩ :=
    h.overlooks index hchoice passed (not_le.mp hbefore) lower hlower hwithin
  exact hfar (hapart earlier higher passed lower hearlier hhigher hlower hwithin hnear)

/-- If the ties stand apart, the choice is the first of them. -/
theorem eq_some_iff (h : ChoosesByScan tolerance eligible choice)
    (hapart : TiesStandApart tolerance eligible) {index : ℕ} :
    choice = some index ↔ IsLeast {tied | TiedForLowest tolerance eligible tied} index := by
  refine ⟨h.isLeast hapart, fun hleast => ?_⟩
  obtain ⟨value, hvalue, _⟩ := hleast.1
  cases hchoice : choice with
  | none => exact absurd hvalue (h.none_iff.mp hchoice index value)
  | some found => rw [(h.isLeast hapart hchoice).unique hleast]

end ChoosesByScan

/-- Without a tolerance, what is as low as a tied value is tied itself. -/
theorem tiesStandApart_zero (eligible : ℕ → ℚ → Prop) : TiesStandApart 0 eligible := by
  intro earlier higher later lower _ _ _ hwithin hnear other lowest hlowest
  rw [add_zero] at hnear
  exact hnear.trans (hwithin other lowest hlowest)

/-- A rule that scans the entries meeting its condition chooses so among them. -/
theorem choosesByScan_of_filterMap {β γ : Type} {p : β → Prop} [DecidablePred p] {f : β → ℕ → γ}
    {F : β × ℕ → Option γ} (hF : ∀ b i, F (b, i) = if p b then some (f b i) else none)
    {index : γ → ℕ} (hindex : ∀ b i, index (f b i) = i) (value : γ → ℚ) {lower : γ → γ → Bool}
    (hlower : ∀ next held, lower next held = decide (value next < value held - tolerance))
    (htolerance : 0 ≤ tolerance) {entries : List β}
    (heligible : ∀ i v, eligible i v ↔ ∃ b, entries[i]? = some b ∧ p b ∧ value (f b i) = v) :
    ChoosesByScan tolerance eligible ((scan lower (entries.zipIdx.filterMap F)).map index) := by
  have hmem : ∀ i v, eligible i v ↔ ∃ c ∈ entries.zipIdx.filterMap F, index c = i ∧ value c = v := by
    intro i v
    rw [heligible]
    constructor
    · rintro ⟨b, hb, hp, hv⟩
      exact ⟨f b i, (mem_filterMap_zipIdx hF).mpr ⟨i, b, hb, hp, rfl⟩, hindex b i, hv⟩
    · rintro ⟨c, hc, hi, hv⟩
      obtain ⟨k, b, hb, hp, rfl⟩ := (mem_filterMap_zipIdx hF).mp hc
      rw [hindex] at hi
      subst hi
      exact ⟨b, hb, hp, hv⟩
  have hwithin : ∀ c, (∀ d ∈ entries.zipIdx.filterMap F, value c ≤ value d + tolerance) ↔
      WithinLowest tolerance eligible (value c) := by
    refine fun c => ⟨fun h other lowest hother => ?_, fun h d hd => ?_⟩
    · obtain ⟨d, hd, _, rfl⟩ := (hmem other lowest).mp hother
      exact h d hd
    · exact h (index d) (value d) ((hmem _ _).mpr ⟨d, hd, rfl, rfl⟩)
  refine ⟨?none, fun i hi => ?tied, fun i hi passed hpassed low hlow hbest => ?overlooks⟩
  case none =>
    rw [Option.map_eq_none_iff, scan_eq_none_iff, List.eq_nil_iff_forall_not_mem]
    constructor
    · intro hnone i v hi
      obtain ⟨c, hc, _⟩ := (hmem i v).mp hi
      exact hnone c hc
    · intro hnone c hc
      exact hnone _ _ ((hmem _ _).mpr ⟨c, hc, rfl, rfl⟩)
  case tied =>
    obtain ⟨found, hscan, rfl⟩ := Option.map_eq_some_iff.mp hi
    exact ⟨value found, (hmem _ _).mpr ⟨found, mem_of_scan_eq_some hscan, rfl, rfl⟩,
      (hwithin found).mp (value_le_of_scan htolerance hlower hscan)⟩
  case overlooks =>
    obtain ⟨found, hscan, rfl⟩ := Option.map_eq_some_iff.mp hi
    obtain ⟨c, hc, rfl, rfl⟩ := (hmem _ _).mp hlow
    obtain ⟨a, ha, hbefore, hnear, d, hd, hfar⟩ := exists_earlier_of_scan htolerance hlower
      (pairwise_filterMap_zipIdx hF hindex entries) hscan hc hpassed ((hwithin c).mpr hbest)
    refine ⟨index a, hbefore, value a, (hmem _ _).mpr ⟨a, ha, rfl, rfl⟩, hnear, fun htied => ?_⟩
    exact absurd ((hwithin a).mpr htied d hd) (not_le.mpr hfar)

end Choosing

/-! ## The rules -/

/-- The rules that choose by value, each with what it chooses for. -/
inductive Selection where
  /-- The row for a dual pivot, by its right-hand side. -/
  | leavingRow
  /-- The column for a dual pivot on a row, by its ratio. -/
  | enteringColumn (row : ℕ)
  /-- The column for a primal pivot, by its reduced cost. -/
  | primalEntering
  /-- The row for a primal pivot on a column, by its ratio. -/
  | primalLeaving (column : ℕ)

namespace Tableau

variable {t : Tableau ℚ} {row column : ℕ}

/-- What a rule chooses. -/
def choice (t : Tableau ℚ) : Selection → Option ℕ
  | .leavingRow => t.leavingRow?
  | .enteringColumn row => t.enteringColumn? row
  | .primalEntering => t.primalEntering? .dantzig
  | .primalLeaving column => t.primalLeaving? column

/-- The entries that a rule may choose, with their values. -/
def Eligible (t : Tableau ℚ) : Selection → ℕ → ℚ → Prop
  | .leavingRow, i, value => ∃ r, t.rows[i]? = some r ∧ r.rhs < -t.tolerance ∧ r.rhs = value
  | .enteringColumn row, j, value => ∃ r, t.rows[row]? = some r ∧
      r.coefficient j < -t.tolerance ∧ |t.reducedCost j / r.coefficient j| = value
  | .primalEntering, j, value => t.reducedCost j < -t.tolerance ∧ t.reducedCost j = value
  | .primalLeaving column, i, value => ∃ r, t.rows[i]? = some r ∧
      max t.tolerance t.pivotTolerance < r.entry column ∧ max r.rhs 0 / r.entry column = value

/-- Every rule chooses by a scan of the entries it may choose. -/
theorem choosesByScan (htolerance : 0 ≤ t.tolerance) (s : Selection) :
    ChoosesByScan t.tolerance (t.Eligible s) (t.choice s) := by
  have hbound : -t.tolerance ≤ 0 := neg_nonpos.mpr htolerance
  cases s with
  | leavingRow =>
    exact choosesByScan_of_filterMap (fun _ _ => rfl) (fun _ _ => rfl) Ranked.value
      (fun _ _ => rfl) htolerance fun i v => Iff.rfl
  | enteringColumn row =>
    change ChoosesByScan t.tolerance _ ((scan _ (t.dualCandidates row)).map _)
    rw [dualCandidates]
    cases hr : t.rows[row]? with
    | none =>
      have hnone : ∀ j v, ¬t.Eligible (.enteringColumn row) j v := by
        rintro j v ⟨r, hsome, _⟩
        rw [hr] at hsome
        cases hsome
      refine ⟨iff_of_true rfl hnone, fun j hj => ?_, fun j hj => ?_⟩ <;> cases hj
    | some r =>
      refine choosesByScan_of_filterMap (fun _ _ => rfl) (fun _ _ => rfl) EnteringCandidate.ratio
        (fun _ _ => rfl) htolerance fun j v => ?_
      simp only [Eligible, hr, Option.some.injEq, exists_eq_left', Scalar.abs_rat]
      exact (Equation.exists_getElem?_lt_iff (P := fun a => |t.reducedCost j / a| = v) hbound).symm
  | primalEntering =>
    change ChoosesByScan t.tolerance _ ((scan _ t.improvingColumns).map _)
    refine choosesByScan_of_filterMap (fun _ _ => rfl) (fun _ _ => rfl) Ranked.value
      (fun next held => ?_) htolerance fun j v => ?_
    · rw [Ranked.notAbove, ← decide_not]
      exact decide_eq_decide.mpr not_le
    · exact (Equation.exists_getElem?_lt_iff (P := fun d => d = v) hbound).symm
  | primalLeaving column =>
    refine choosesByScan_of_filterMap (fun _ _ => rfl) (fun _ _ => rfl) Ranked.value
      (fun _ _ => rfl) htolerance fun i v => ?_
    simp only [Eligible, ratioThreshold, Scalar.larger_rat]

end Tableau

/-! ## Ranking the candidates of a dual pivot -/

section Ranking

variable {α : Type} {candidates : List (EnteringCandidate α)}

/-- Candidates that come by rising column have different columns. -/
theorem nodup_columns (hsorted : candidates.Pairwise fun c d => c.column < d.column) :
    (candidates.map (·.column)).Nodup :=
  (List.pairwise_map.mpr hsorted).imp fun h => h.ne

/-- Taking the candidate of a column out leaves the others. -/
theorem perm_eraseP_column (hsorted : candidates.Pairwise fun c d => c.column < d.column)
    {best : EnteringCandidate α} (hbest : best ∈ candidates) :
    candidates.Perm (best :: candidates.eraseP (·.column == best.column)) := by
  obtain ⟨found, before, after, _, hcolumn, hsplit, herased⟩ :=
    List.exists_of_eraseP (p := (·.column == best.column)) hbest (beq_self_eq_true _)
  have hfound : found ∈ candidates := hsplit ▸ by simp
  obtain rfl := List.inj_on_of_nodup_map (nodup_columns hsorted) hfound hbest (beq_iff_eq.mp hcolumn)
  rw [herased]
  exact hsplit ▸ List.perm_middle

/-- The candidates left have other columns. -/
theorem of_mem_eraseP_column (hsorted : candidates.Pairwise fun c d => c.column < d.column)
    {best c : EnteringCandidate α} (hbest : best ∈ candidates)
    (hc : c ∈ candidates.eraseP (·.column == best.column)) :
    c ∈ candidates ∧ c.column ≠ best.column := by
  have hperm := (perm_eraseP_column hsorted hbest).map (·.column)
  have hother := (List.nodup_cons.mp (hperm.nodup_iff.mp (nodup_columns hsorted))).1
  refine ⟨List.mem_of_mem_eraseP hc, fun heq => hother ?_⟩
  exact List.mem_map.mpr ⟨c, hc, heq⟩

variable [Scalar α] {tolerance : α}

/-- Ranking lists every candidate once. -/
theorem rankCandidates_perm (hsorted : candidates.Pairwise fun c d => c.column < d.column) :
    (rankCandidates tolerance candidates.length candidates).Perm candidates := by
  induction hcount : candidates.length generalizing candidates with
  | zero => rw [List.length_eq_zero_iff.mp hcount, rankCandidates]
  | succ count ih =>
    rw [rankCandidates]
    cases hscan : scan (EnteringCandidate.below tolerance) candidates with
    | none => rw [scan_eq_none_iff.mp hscan] at hcount; cases hcount
    | some best =>
      have hperm := perm_eraseP_column hsorted (mem_of_scan_eq_some hscan)
      have hlength : (candidates.eraseP (·.column == best.column)).length = count := by
        have h := hperm.length_eq
        rw [hcount, List.length_cons] at h
        exact (Nat.succ.inj h).symm
      exact ((ih (hsorted.sublist List.eraseP_sublist) hlength).cons best).trans hperm.symm

/-- Each candidate is ranked before the others by what a scan says about the one it ends with. -/
theorem pairwise_rankCandidates {R : EnteringCandidate α → EnteringCandidate α → Prop}
    (hscan : ∀ remaining best, (remaining.Pairwise fun c d => c.column < d.column) →
      scan (EnteringCandidate.below tolerance) remaining = some best →
        ∀ c ∈ remaining, c.column ≠ best.column → R best c)
    (hsorted : candidates.Pairwise fun c d => c.column < d.column) (count : ℕ) :
    (rankCandidates tolerance count candidates).Pairwise R := by
  induction count generalizing candidates with
  | zero => exact List.Pairwise.nil
  | succ count ih =>
    rw [rankCandidates]
    cases hbest : scan (EnteringCandidate.below tolerance) candidates with
    | none => exact List.Pairwise.nil
    | some best =>
      refine List.pairwise_cons.mpr ⟨fun c hc => ?_, ih (hsorted.sublist List.eraseP_sublist)⟩
      obtain ⟨hmem, hother⟩ := of_mem_eraseP_column hsorted (mem_of_scan_eq_some hbest)
        (mem_of_mem_rankCandidates hc)
      exact hscan candidates best hsorted hbest c hmem hother

end Ranking

namespace Tableau

variable {t : Tableau ℚ} {row column : ℕ} {r : Row ℚ}

/-- The candidates of a dual pivot come by rising column. -/
theorem pairwise_dualCandidates (t : Tableau ℚ) (row : ℕ) :
    (t.dualCandidates row).Pairwise fun c d => c.column < d.column := by
  rw [dualCandidates]
  split
  · exact List.Pairwise.nil
  · exact pairwise_filterMap_zipIdx (fun _ _ => rfl) (fun _ _ => rfl) _

/-- The ranking of a row: every column with a negative entry once, from the choice of the ratio test on,
and no ratio above a later one by more than the tolerance. -/
structure RanksCandidates (t : Tableau ℚ) (row : ℕ) (r : Row ℚ) : Prop where
  columns : ∀ column, column ∈ (t.enteringCandidates row).map (·.column) ↔
    r.coefficient column < -t.tolerance
  once : ((t.enteringCandidates row).map (·.column)).Nodup
  entries : ∀ c ∈ t.enteringCandidates row, c.coefficient = r.coefficient c.column ∧
    c.ratio = |t.reducedCost c.column / r.coefficient c.column|
  first : (t.enteringCandidates row).head?.map (·.column) = t.enteringColumn? row
  ranked : (t.enteringCandidates row).Pairwise fun c d => c.ratio ≤ d.ratio + t.tolerance

/-- The candidates of a row are ranked. -/
theorem ranksCandidates (htolerance : 0 ≤ t.tolerance) (hr : t.rows[row]? = some r) :
    t.RanksCandidates row r := by
  have hsorted := t.pairwise_dualCandidates row
  have hperm : (t.enteringCandidates row).Perm (t.dualCandidates row) := rankCandidates_perm hsorted
  have hmem : ∀ c, c ∈ t.enteringCandidates row ↔ r.coefficient c.column < -t.tolerance ∧
      c = ⟨c.column, |t.reducedCost c.column / r.coefficient c.column|, r.coefficient c.column⟩ :=
    fun c => hperm.mem_iff.trans (mem_dualCandidates_iff htolerance hr)
  refine ⟨fun column => ?columns, ?once, fun c hc => ?entries, ?first, ?ranked⟩
  case columns =>
    rw [List.mem_map]
    constructor
    · rintro ⟨c, hc, rfl⟩
      exact ((hmem c).mp hc).1
    · intro hneg
      exact ⟨⟨column, |t.reducedCost column / r.coefficient column|, r.coefficient column⟩,
        (hmem _).mpr ⟨hneg, rfl⟩, rfl⟩
  case once =>
    exact (hperm.map (·.column)).nodup_iff.mpr (nodup_columns hsorted)
  case entries =>
    rw [((hmem c).mp hc).2]
    exact ⟨rfl, rfl⟩
  case first =>
    rw [enteringColumn?]
    cases hcandidates : t.enteringCandidates row with
    | nil =>
      rw [hcandidates] at hperm
      rw [hperm.nil_eq.symm]
      rfl
    | cons best others => rw [scan_of_enteringCandidates hcandidates]; rfl
  case ranked =>
    refine pairwise_rankCandidates (fun remaining best _ hscan c hc _ => ?_) hsorted _
    exact value_le_of_scan htolerance (fun _ _ => rfl) hscan c hc

/-- Without a tolerance, the candidates are sorted by ratio, then by column. -/
theorem sorted_enteringCandidates (htolerance : t.tolerance = 0) (row : ℕ) :
    (t.enteringCandidates row).Pairwise fun c d => toLex (c.ratio, c.column) < toLex (d.ratio, d.column) := by
  refine pairwise_rankCandidates (fun remaining best hsorted hscan c hc hother => ?_)
    (t.pairwise_dualCandidates row) _
  have hlower : ∀ next held : EnteringCandidate ℚ, EnteringCandidate.below t.tolerance next held =
      decide (next.ratio < held.ratio - 0) := fun next held => by rw [EnteringCandidate.below, htolerance]
  have hbest := value_le_of_scan le_rfl hlower hscan
  rw [Prod.Lex.toLex_lt_toLex]
  rcases (hbest c hc).lt_or_eq with hlt | heq
  · exact .inl (by simpa using hlt)
  · refine .inr ⟨by simpa using heq, lt_of_not_ge fun hbefore => ?_⟩
    obtain ⟨a, _, _, hnear, d, hd, hfar⟩ := exists_earlier_of_scan le_rfl hlower hsorted hscan hc
      (lt_of_le_of_ne hbefore hother) fun d hd => by linarith [hbest d hd]
    linarith [hbest d hd]

/-! ## What the rules find -/

/-- Each rule finds nothing only if there is nothing to repair, and otherwise an entry that is not above
any other by more than the tolerance. -/
structure SelectsWithin (t : Tableau ℚ) : Prop where
  leaving_none : t.leavingRow? = none ↔ t.isPrimalFeasible = true
  leaving : ∀ row, t.leavingRow? = some row → ∃ r, t.rows[row]? = some r ∧ r.rhs < -t.tolerance ∧
    ∀ s ∈ t.rows, r.rhs ≤ s.rhs + t.tolerance
  entering_none : ∀ rule, t.primalEntering? rule = none ↔ t.isDualFeasible = true
  entering : ∀ column, t.primalEntering? .dantzig = some column → column < t.columnCount ∧
    t.reducedCost column < -t.tolerance ∧
      ∀ j < t.columnCount, t.reducedCost column ≤ t.reducedCost j + t.tolerance
  bounding_none : ∀ column, t.primalLeaving? column = none ↔
    ∀ r ∈ t.rows, r.entry column ≤ max t.tolerance t.pivotTolerance
  bounding : ∀ column row, t.primalLeaving? column = some row → ∃ r, t.rows[row]? = some r ∧
    max t.tolerance t.pivotTolerance < r.entry column ∧
      ∀ s ∈ t.rows, max t.tolerance t.pivotTolerance < s.entry column →
        max r.rhs 0 / r.entry column ≤ max s.rhs 0 / s.entry column + t.tolerance

/-- The rules choose within the tolerance. -/
theorem selectsWithin (htolerance : 0 ≤ t.tolerance) : t.SelectsWithin where
  leaving_none := by
    simp only [leavingRow?_eq_none_iff, not_lt, isPrimalFeasible, List.all_eq_true, decide_eq_true_eq]
  leaving row hrow := by
    obtain ⟨_, ⟨r, hr, hrhs, rfl⟩, hwithin⟩ := (choosesByScan htolerance .leavingRow).tied row hrow
    refine ⟨r, hr, hrhs, fun s hs => ?_⟩
    obtain ⟨i, hi⟩ := List.mem_iff_getElem?.mp hs
    rcases lt_or_ge s.rhs (-t.tolerance) with hlow | hhigh
    · exact hwithin i s.rhs ⟨s, hi, hlow, rfl⟩
    · linarith
  entering_none rule := by
    simp only [primalEntering?_eq_none_iff, not_lt, isDualFeasible, List.all_eq_true, decide_eq_true_eq]
  entering column hcolumn := by
    obtain ⟨_, ⟨hcost, rfl⟩, hwithin⟩ := (choosesByScan htolerance .primalEntering).tied column hcolumn
    refine ⟨(primalEntering?_eq_some hcolumn).1, hcost, fun j _ => ?_⟩
    rcases lt_or_ge (t.reducedCost j) (-t.tolerance) with hlow | hhigh
    · exact hwithin j _ ⟨hlow, rfl⟩
    · linarith
  bounding_none column := by
    simp only [primalLeaving?_eq_none_iff, not_lt, ratioThreshold, Scalar.larger_rat]
  bounding column row hrow := by
    simpa only [ratioThreshold, Scalar.larger_rat] using primalLeaving?_tightest htolerance hrow

/-- The rules choose within the tolerance, and the candidates of a dual pivot are ranked within it. Without
a tolerance each rule chooses the first of the lowest values, and the candidates are sorted. -/
theorem selections_within_tolerance (t : Tableau ℚ) (htolerance : 0 ≤ t.tolerance) :
    t.SelectsWithin ∧ (∀ row r, t.rows[row]? = some r → t.RanksCandidates row r) ∧
      (t.tolerance = 0 →
        (∀ s index, t.choice s = some index →
          IsLeast {lowest | TiedForLowest 0 (t.Eligible s) lowest} index) ∧
        ∀ row, (t.enteringCandidates row).Pairwise fun c d =>
          toLex (c.ratio, c.column) < toLex (d.ratio, d.column)) := by
  refine ⟨selectsWithin htolerance, fun row r hr => ranksCandidates htolerance hr, fun hzero => ?_⟩
  refine ⟨fun s index hindex => ?_, sorted_enteringCandidates hzero⟩
  have hscan := choosesByScan htolerance s
  rw [hzero] at hscan
  exact hscan.isLeast (tiesStandApart_zero _) hindex

/-- Values that lie close together, with a tolerance that does not tell all of them apart. -/
theorem selections_of_close_values :
    let t := (LinearProgram.ofMatrix [[1, 0, 0], [1, 0, 0]] [1, 3 / 4] [1, 5 / 4, 3 / 2]).slackTableau.afterEdits
      [.setTolerances (some (3 / 8)) (some 0), .appendRow [-1, -2, -4] (-1),
        .appendRow [-1, -2, -4] (-5 / 4)]
    0 ≤ t.tolerance ∧ t.SelectsWithin ∧ t.leavingRow? = some 2 ∧
      (∃ r, t.rows[2]? = some r ∧ t.RanksCandidates 2 r) ∧
      (t.enteringCandidates 2).map (·.column) = [2, 0, 1] := by
  intro t
  have htolerance : 0 ≤ t.tolerance := by decide +kernel
  obtain ⟨hselects, hranks, _⟩ := selections_within_tolerance t htolerance
  have hleaving : t.leavingRow? = some 2 := by decide +kernel
  obtain ⟨r, hr, _⟩ := hselects.leaving 2 hleaving
  exact ⟨htolerance, hselects, hleaving, ⟨r, hr, hranks 2 r hr⟩, by decide +kernel⟩

/-! ## Ties -/

/-- Each rule chooses one of the entries tied for the lowest value, and overlooks an earlier one only for
an entry before that. It chooses the first of the ties if they stand apart. -/
theorem ties_go_to_lowest_index (t : Tableau ℚ) (htolerance : 0 ≤ t.tolerance) (s : Selection) :
    ChoosesByScan t.tolerance (t.Eligible s) (t.choice s) ∧
      (TiesStandApart t.tolerance (t.Eligible s) → ∀ index, t.choice s = some index ↔
        IsLeast {tied | TiedForLowest t.tolerance (t.Eligible s) tied} index) :=
  ⟨choosesByScan htolerance s, fun hapart _ => (choosesByScan htolerance s).eq_some_iff hapart⟩

/-- Two right-hand sides that are tied, and one that is too far above both of them to matter. -/
theorem first_of_two_ties :
    let t := (LinearProgram.ofMatrix [[1]] [1] [1]).slackTableau.afterEdits
      [.setTolerances (some (3 / 8)) none, .appendRow [-1] (-1 / 2), .appendRow [-1] (-1),
        .appendRow [-1] (-5 / 4)]
    0 ≤ t.tolerance ∧ TiesStandApart t.tolerance (t.Eligible .leavingRow) ∧
      t.leavingRow? = some 2 ∧
      IsLeast {tied | TiedForLowest t.tolerance (t.Eligible .leavingRow) tied} 2 := by
  intro t
  have htolerance : 0 ≤ t.tolerance := by decide +kernel
  have hvalue : t.tolerance = 3 / 8 := by decide +kernel
  have hfloor : ∀ r ∈ t.rows, -5 / 4 ≤ r.rhs := by decide +kernel
  have hgap : ∀ r ∈ t.rows, r.rhs < -t.tolerance → r.rhs = -1 / 2 ∨ r.rhs ≤ -1 := by decide +kernel
  have hlowest : t.Eligible .leavingRow 3 (-5 / 4) := by
    have hread : t.rhs? 3 = some (-5 / 4) := by decide +kernel
    obtain ⟨r, hr, hrhs⟩ := Option.map_eq_some_iff.mp hread
    exact ⟨r, hr, by rw [hrhs]; decide +kernel, hrhs⟩
  have hapart : TiesStandApart t.tolerance (t.Eligible .leavingRow) := by
    rintro _ _ _ _ _ ⟨r, hr, hlow, rfl⟩ ⟨s, hs, hlow', rfl⟩ hwithin hnear _ _ ⟨q, hq, _, rfl⟩
    have hbest := hwithin 3 _ hlowest
    rw [hvalue] at hnear hbest ⊢
    rcases hgap r (List.mem_of_getElem? hr) hlow with hhigh | htied
    · rcases hgap s (List.mem_of_getElem? hs) hlow' with h | h <;> linarith
    · linarith [hfloor q (List.mem_of_getElem? hq)]
  have hleaving : t.leavingRow? = some 2 := by decide +kernel
  exact ⟨htolerance, hapart, hleaving,
    ((ties_go_to_lowest_index t htolerance .leavingRow).2 hapart 2).mp hleaving⟩

/-- A tie with a lower index refutes that an index is the lowest of the ties. -/
theorem not_isLeast_tied {tolerance : ℚ} {eligible : ℕ → ℚ → Prop} {index : ℕ} (passed : ℕ) (value : ℚ)
    (hbefore : passed < index) (hpassed : eligible passed value)
    (hwithin : WithinLowest tolerance eligible value) :
    ¬IsLeast {tied | TiedForLowest tolerance eligible tied} index :=
  fun hleast => hbefore.not_ge (hleast.2 ⟨value, hpassed, hwithin⟩)

/-- Three values for every rule. The second is tied for the lowest, but the first, which is not, keeps it
out, so that the third is chosen. -/
theorem ties_kept_out :
    let t := (LinearProgram.ofMatrix [[1, 0, 0], [1, 0, 0], [1, 0, 0]] [1, 3 / 4, 1 / 2]
        [1, 5 / 4, 3 / 2]).slackTableau.afterEdits
      [.setTolerances (some (3 / 8)) (some 0), .appendRow [-1, -2, -4] (-1),
        .appendRow [-1, -2, -4] (-5 / 4), .appendRow [-1, -2, -4] (-3 / 2)]
    0 ≤ t.tolerance ∧ ∀ s ∈ [Selection.leavingRow, .enteringColumn 5, .primalEntering, .primalLeaving 0],
      ∃ index, t.choice s = some index ∧
        ¬IsLeast {tied | TiedForLowest t.tolerance (t.Eligible s) tied} index := by
  intro t
  have hrow : ∀ i (hi : i < t.rows.length), t.rows[i]? = some (t.rows.get ⟨i, hi⟩) :=
    fun i hi => List.getElem?_eq_getElem hi
  refine ⟨by decide +kernel, ?_⟩
  simp only [List.forall_mem_cons, List.not_mem_nil, false_implies, implies_true, and_true]
  refine ⟨⟨5, by decide +kernel, ?leaving⟩, ⟨2, by decide +kernel, ?entering⟩,
    ⟨2, by decide +kernel, ?improving⟩, ⟨2, by decide +kernel, ?bounding⟩⟩
  case leaving =>
    have hrhs : ∀ r ∈ t.rows, -5 / 4 ≤ r.rhs + t.tolerance := by decide +kernel
    refine not_isLeast_tied 4 (-5 / 4) (by decide)
      ⟨_, hrow 4 (by decide +kernel), by decide +kernel, by decide +kernel⟩ ?_
    rintro _ _ ⟨r, hr, _, rfl⟩
    exact hrhs r (List.mem_of_getElem? hr)
  case entering =>
    have hratio : ∀ r ∈ t.rows, ∀ j < r.coefficients.length, r.coefficient j < -t.tolerance →
        5 / 8 ≤ |t.reducedCost j / r.coefficient j| + t.tolerance := by decide +kernel
    refine not_isLeast_tied 1 (5 / 8) (by decide)
      ⟨_, hrow 5 (by decide +kernel), by decide +kernel, by decide +kernel⟩ ?_
    rintro j _ ⟨r, hr, hneg, rfl⟩
    refine hratio r (List.mem_of_getElem? hr) j ?_ hneg
    by_contra hout
    rw [Equation.coefficient_eq_zero_of_le (not_lt.mp hout)] at hneg
    exact absurd hneg (by decide +kernel)
  case improving =>
    have hcost : ∀ j < t.columnCount, -5 / 4 ≤ t.reducedCost j + t.tolerance := by decide +kernel
    refine not_isLeast_tied 1 (-5 / 4) (by decide) ⟨by decide +kernel, by decide +kernel⟩ ?_
    rintro j _ ⟨hneg, rfl⟩
    refine hcost j ?_
    by_contra hout
    rw [reducedCost, Equation.coefficient_eq_zero_of_le (not_lt.mp hout)] at hneg
    exact absurd hneg (by decide +kernel)
  case bounding =>
    have hratio : ∀ r ∈ t.rows, max t.tolerance t.pivotTolerance < r.entry 0 →
        3 / 4 ≤ max r.rhs 0 / r.entry 0 + t.tolerance := by decide +kernel
    refine not_isLeast_tied 1 (3 / 4) (by decide)
      ⟨_, hrow 1 (by decide +kernel), by decide +kernel, by decide +kernel⟩ ?_
    rintro _ _ ⟨r, hr, hbounds, rfl⟩
    exact hratio r (List.mem_of_getElem? hr) hbounds

end Tableau

end WarmSimplex
