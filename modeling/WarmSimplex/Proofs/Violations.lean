import Mathlib.Data.List.Forall2
import WarmSimplex.Proofs.Feasible
import WarmSimplex.Proofs.Tableau.Building

/-!
# The report on a point

A program makes demands on a point: its constraints, and that no variable be negative. Each demand is
missed by some distance, that of its left-hand side from the nearest value that would do. The report on
the point has an entry for each demand that is missed by more than the tolerance, the largest distance
first, and equal distances in the order of the demands.

The distance is measured on the left-hand side of one demand. How far the point itself is from the
feasible points is not looked at.
-/

namespace WarmSimplex

/-! ## Sorting -/

/-- A sort puts the entries in order and keeps what holds of them in turn where they are tied. -/
theorem pairwise_mergeSort_of_ties {β : Type} {le : β → β → Bool} {R : β → β → Prop} {entries : List β}
    (htrans : ∀ a b c, le a b = true → le b c = true → le a c = true)
    (htotal : ∀ a b, (le a b || le b a) = true) (hentries : entries.Pairwise R) :
    (entries.mergeSort le).Pairwise fun a b => le a b = true ∧ (le b a = true → R a b) := by
  rw [List.pairwise_iff_forall_sublist]
  intro a b hab
  have hle : le a b = true :=
    List.pairwise_iff_forall_sublist.mp (List.pairwise_mergeSort htrans htotal entries) hab
  refine ⟨hle, fun hge => ?_⟩
  -- the entries that are tied with the first of the two keep their order
  let tied : β → Bool := fun c => le a c && le c a
  have hsorted : (entries.filter tied).Pairwise fun c d => le c d = true := by
    rw [List.pairwise_filter]
    refine List.pairwise_of_forall_mem_list fun c _ d _ hc hd => ?_
    exact htrans c a d (Bool.and_eq_true_iff.mp hc).2 (Bool.and_eq_true_iff.mp hd).1
  have hkept : entries.filter tied = (entries.mergeSort le).filter tied := by
    have hsublist := (List.sublist_mergeSort htrans htotal hsorted List.filter_sublist).filter tied
    simp only [List.filter_filter, Bool.and_self] at hsublist
    exact hsublist.eq_of_length ((List.mergeSort_perm entries le).filter tied).length_eq.symm
  have hpair : ([a, b] : List β).Sublist ((entries.mergeSort le).filter tied) := by
    have hself : le a a = true := by simpa using htotal a a
    simpa [tied, hself, hle, hge] using hab.filter tied
  rw [← hkept] at hpair
  exact List.pairwise_iff_forall_sublist.mp hentries (hpair.trans List.filter_sublist)

/-! ## Distances -/

namespace Constraint

variable {c : Constraint ℚ} {x : List ℚ} {tolerance distance : ℚ}

/-- The distance of the left-hand side at the point from the nearest value that the relation allows. -/
def IsMissedBy (c : Constraint ℚ) (x : List ℚ) (distance : ℚ) : Prop :=
  IsLeast {d | ∃ y, c.relation.Relates y c.rhs ∧ |Scalar.dot c.coefficients x - y| = d} distance

/-- This distance, computed. -/
def shortfall (c : Constraint ℚ) (x : List ℚ) : ℚ :=
  match c.relation with
  | .le => max 0 (Scalar.dot c.coefficients x - c.rhs)
  | .ge => max 0 (c.rhs - Scalar.dot c.coefficients x)
  | .eq => |Scalar.dot c.coefficients x - c.rhs|

/-- No value that the relation allows is nearer than the shortfall, and one is as near. -/
theorem isMissedBy_shortfall (c : Constraint ℚ) (x : List ℚ) : c.IsMissedBy x (c.shortfall x) := by
  obtain ⟨name, coefficients, relation, rhs⟩ := c
  generalize hlhs : Scalar.dot coefficients x = lhs
  cases relation with
  | le =>
    simp only [IsMissedBy, shortfall, Relation.Relates, hlhs]
    refine ⟨⟨min lhs rhs, min_le_right _ _, ?_⟩, ?_⟩
    · rcases le_total lhs rhs with h | h
      · rw [min_eq_left h, sub_self, abs_zero, max_eq_left (sub_nonpos.mpr h)]
      · rw [min_eq_right h, max_eq_right (sub_nonneg.mpr h), abs_of_nonneg (sub_nonneg.mpr h)]
    · rintro _ ⟨y, hy, rfl⟩
      exact max_le (abs_nonneg _) (by linarith [le_abs_self (lhs - y)])
  | ge =>
    simp only [IsMissedBy, shortfall, Relation.Relates, hlhs]
    refine ⟨⟨max lhs rhs, le_max_right _ _, ?_⟩, ?_⟩
    · rcases le_total lhs rhs with h | h
      · rw [max_eq_right h, max_eq_right (sub_nonneg.mpr h), abs_sub_comm,
          abs_of_nonneg (sub_nonneg.mpr h)]
      · rw [max_eq_left h, sub_self, abs_zero, max_eq_left (sub_nonpos.mpr h)]
    · rintro _ ⟨y, hy, rfl⟩
      exact max_le (abs_nonneg _) (by linarith [neg_abs_le (lhs - y)])
  | eq =>
    simp only [IsMissedBy, shortfall, Relation.Relates, hlhs]
    refine ⟨⟨rhs, rfl, rfl⟩, ?_⟩
    rintro _ ⟨y, rfl, rfl⟩
    exact le_rfl

/-- There is one such distance. -/
theorem isMissedBy_iff : c.IsMissedBy x distance ↔ distance = c.shortfall x := by
  constructor
  · exact fun h => h.unique (c.isMissedBy_shortfall x)
  · rintro rfl
    exact c.isMissedBy_shortfall x

end Constraint

/-! ## What is said of one demand -/

/-- The entry of the report is about the demand and gives its sides, and its distance as the amount. -/
structure Violation.Reports (v : Violation ℚ) (c : Constraint ℚ) (x : List ℚ) : Prop where
  condition : v.condition = c.name
  required : v.required = c.rhs
  actual : v.actual = Scalar.dot c.coefficients x
  amount : c.IsMissedBy x v.amount

/-- Nothing is said of a demand that is met up to the tolerance, and of another one what it misses. -/
inductive Constraint.Answers (c : Constraint ℚ) (x : List ℚ) (tolerance : ℚ) :
    Option (Violation ℚ) → Prop
  | met (hmet : c.shortfall x ≤ tolerance) : Answers c x tolerance none
  | missed {v : Violation ℚ} (hmissed : tolerance < v.amount) (hreports : v.Reports c x) :
      Answers c x tolerance (some v)

/-- A constraint is answered by its violation. -/
theorem Constraint.answers_violation? (c : Constraint ℚ) (x : List ℚ) {tolerance : ℚ}
    (htolerance : 0 ≤ tolerance) : c.Answers x tolerance (c.violation? x tolerance) := by
  obtain ⟨name, coefficients, relation, rhs⟩ := c
  cases relation with
  | le =>
    simp only [violation?]
    split
    · rename_i hbroken
      refine .missed (by linarith) ⟨rfl, rfl, rfl, isMissedBy_iff.mpr ?_⟩
      exact (max_eq_right (by linarith)).symm
    · rename_i hmet
      exact .met (max_le htolerance (by linarith))
  | ge =>
    simp only [violation?]
    split
    · rename_i hbroken
      refine .missed (by linarith) ⟨rfl, rfl, rfl, isMissedBy_iff.mpr ?_⟩
      exact (max_eq_right (by linarith)).symm
    · rename_i hmet
      exact .met (max_le htolerance (by linarith))
  | eq =>
    simp only [violation?, Scalar.abs_rat]
    split
    · rename_i hbroken
      exact .missed hbroken ⟨rfl, rfl, rfl, isMissedBy_iff.mpr rfl⟩
    · rename_i hmet
      exact .met (not_lt.mp hmet)

namespace LinearProgram

variable {p : LinearProgram ℚ} {x : List ℚ} {tolerance : ℚ}

/-- That a variable is not negative, as a constraint. -/
def signDemand (p : LinearProgram ℚ) (variableIndex : ℕ) (name : String) : Constraint ℚ where
  name := name ++ " >= 0"
  coefficients := unitEntries p.variableCount variableIndex
  relation := .ge
  rhs := 0

/-- What the program asks of a point: the constraints, and that no variable is negative. -/
def demands (p : LinearProgram ℚ) : List (Constraint ℚ) :=
  p.constraints ++ p.variableNames.mapIdx p.signDemand

/-- The left-hand side of a sign condition is the value of the variable. -/
theorem dot_signDemand {j : ℕ} (hj : j < p.variableCount) (name : String) (x : List ℚ) :
    Scalar.dot (p.signDemand j name).coefficients x = x.getD j 0 := by
  rw [Scalar.dot_eq_sum _ _ _ (.inl le_rfl)]
  exact sum_unitEntries hj fun k => x.getD k 0

/-- A sign condition is answered by its violation. -/
theorem answers_signViolation? {j : ℕ} (hj : j < p.variableCount) (name : String) (x : List ℚ)
    (htolerance : 0 ≤ tolerance) :
    (p.signDemand j name).Answers x tolerance (signViolation? tolerance name (x.getD j 0)) := by
  have hdot := dot_signDemand hj name x
  have hshortfall : (p.signDemand j name).shortfall x = max 0 (0 - x.getD j 0) := by
    rw [← hdot]
    rfl
  rw [signViolation?]
  split
  · rename_i hnegative
    refine .missed (by linarith) ⟨rfl, rfl, hdot.symm, Constraint.isMissedBy_iff.mpr ?_⟩
    rw [hshortfall, zero_sub, max_eq_right (by linarith)]
  · rename_i hmet
    refine .met ?_
    rw [hshortfall]
    exact max_le htolerance (by linarith)

/-! ## The report -/

/-- What is said of each demand in turn. -/
def answers (p : LinearProgram ℚ) (x : List ℚ) (tolerance : ℚ) : List (Option (Violation ℚ)) :=
  p.constraints.map (·.violation? x tolerance) ++
    (p.variableNames.zip x).map fun (name, value) => signViolation? tolerance name value

/-- The answers are those to the demands. -/
theorem forall₂_answers (hlength : x.length = p.variableCount) (htolerance : 0 ≤ tolerance) :
    List.Forall₂ (fun c answer => c.Answers x tolerance answer) p.demands (p.answers x tolerance) := by
  apply List.rel_append
  · rw [List.forall₂_map_right_iff, List.forall₂_same]
    exact fun c _ => c.answers_violation? x htolerance
  · rw [List.forall₂_iff_get]
    refine ⟨by simp [hlength, variableCount], fun j hj _ => ?_⟩
    rw [List.length_mapIdx] at hj
    have hjx : j < x.length := hlength.symm ▸ hj
    have hanswer := answers_signViolation? hj p.variableNames[j] x htolerance
    rw [List.getD_eq_getElem _ _ hjx] at hanswer
    simp only [List.get_eq_getElem, List.getElem_mapIdx, List.getElem_map, List.getElem_zip]
    exact hanswer

/-- A demand has an answer. -/
theorem exists_answer (hlength : x.length = p.variableCount) (htolerance : 0 ≤ tolerance) {place : ℕ}
    {c : Constraint ℚ} (hc : p.demands[place]? = some c) :
    ∃ answer, (p.answers x tolerance)[place]? = some answer ∧ c.Answers x tolerance answer := by
  obtain ⟨hsize, hanswers⟩ := List.forall₂_iff_get.mp (forall₂_answers hlength htolerance)
  obtain ⟨hplace, rfl⟩ := List.getElem?_eq_some_iff.mp hc
  exact ⟨_, List.getElem?_eq_getElem (hsize ▸ hplace), hanswers place hplace (hsize ▸ hplace)⟩

/-- An answer is to a demand. -/
theorem exists_demand (hlength : x.length = p.variableCount) (htolerance : 0 ≤ tolerance) {place : ℕ}
    {answer : Option (Violation ℚ)} (hanswer : (p.answers x tolerance)[place]? = some answer) :
    ∃ c, p.demands[place]? = some c ∧ c.Answers x tolerance answer := by
  obtain ⟨hsize, hanswers⟩ := List.forall₂_iff_get.mp (forall₂_answers hlength htolerance)
  obtain ⟨hplace, rfl⟩ := List.getElem?_eq_some_iff.mp hanswer
  exact ⟨_, List.getElem?_eq_getElem (hsize.symm ▸ hplace), hanswers place (hsize.symm ▸ hplace) hplace⟩

/-- An entry is placed at the demand that it is an answer to. -/
def placedAnswers (p : LinearProgram ℚ) (x : List ℚ) (tolerance : ℚ) : List (ℕ × Violation ℚ) :=
  (p.answers x tolerance).zipIdx.filterMap fun (answer, place) => answer.map fun v => (place, v)

/-- An entry has the place at which it is an answer. -/
theorem mem_placedAnswers {place : ℕ} {v : Violation ℚ} :
    (place, v) ∈ p.placedAnswers x tolerance ↔ (p.answers x tolerance)[place]? = some (some v) := by
  rw [placedAnswers, List.mem_filterMap]
  constructor
  · rintro ⟨⟨answer, i⟩, hmem, hentry⟩
    obtain ⟨_, rfl, heq⟩ := Option.map_eq_some_iff.mp hentry
    cases heq
    exact List.mem_zipIdx_iff_getElem?.mp hmem
  · intro hanswer
    exact ⟨(some v, place), List.mem_zipIdx_iff_getElem?.mpr hanswer, rfl⟩

/-- The places come in order. -/
theorem pairwise_placedAnswers (p : LinearProgram ℚ) (x : List ℚ) (tolerance : ℚ) :
    (p.placedAnswers x tolerance).Pairwise fun e f => e.1 < f.1 := by
  have hpositions : (p.answers x tolerance).zipIdx.Pairwise fun a b => a.2 < b.2 := by
    rw [← List.pairwise_map (f := Prod.snd) (R := (· < ·)), List.zipIdx_map_snd]
    exact List.pairwise_lt_range'
  refine List.Pairwise.filterMap _ (fun a b hab e he f hf => ?_) hpositions
  obtain ⟨_, _, rfl⟩ := Option.map_eq_some_iff.mp he
  obtain ⟨_, _, rfl⟩ := Option.map_eq_some_iff.mp hf
  exact hab

/-- Without their places the entries are those of the report before it is sorted. -/
theorem map_snd_placedAnswers (p : LinearProgram ℚ) (x : List ℚ) (tolerance : ℚ) :
    (p.placedAnswers x tolerance).map (·.2) = p.unsortedViolations x tolerance := by
  have hanswers : (p.placedAnswers x tolerance).map (·.2) =
      (p.answers x tolerance).filterMap id := by
    conv_rhs => rw [← List.zipIdx_map_fst 0 (p.answers x tolerance)]
    rw [placedAnswers, List.map_filterMap, List.filterMap_map]
    refine List.filterMap_congr fun a _ => ?_
    simp [Function.comp_def]
  rw [hanswers, answers, unsortedViolations, List.filterMap_append, List.filterMap_map,
    List.filterMap_map]
  rfl

/-- The entries are one for each demand that is missed by more than the tolerance, each with its place
among the demands. They come by falling amount, and those with the same amount by rising place. -/
structure ReportsExactly (p : LinearProgram ℚ) (x : List ℚ) (tolerance : ℚ)
    (placed : List (ℕ × Violation ℚ)) : Prop where
  nodup : (placed.map (·.1)).Nodup
  missed_iff : ∀ place, place ∈ placed.map (·.1) ↔
    ∃ c distance, p.demands[place]? = some c ∧ c.IsMissedBy x distance ∧ tolerance < distance
  reports : ∀ e ∈ placed, ∃ c, p.demands[e.1]? = some c ∧ e.2.Reports c x ∧ tolerance < e.2.amount
  sorted : placed.Pairwise fun e f =>
    f.2.amount < e.2.amount ∨ f.2.amount = e.2.amount ∧ e.1 < f.1

/-- The answers that say something are to the demands that are missed by more than the tolerance. -/
theorem placed_iff (hlength : x.length = p.variableCount) (htolerance : 0 ≤ tolerance) (place : ℕ) :
    place ∈ (p.placedAnswers x tolerance).map (·.1) ↔
      ∃ c distance, p.demands[place]? = some c ∧ c.IsMissedBy x distance ∧ tolerance < distance := by
  rw [List.mem_map]
  constructor
  · rintro ⟨⟨_, v⟩, hmem, rfl⟩
    obtain ⟨c, hc, hanswer⟩ := exists_demand hlength htolerance (mem_placedAnswers.mp hmem)
    cases hanswer with
    | missed hmissed hreports => exact ⟨c, v.amount, hc, hreports.amount, hmissed⟩
  · rintro ⟨c, distance, hc, hdistance, hmissed⟩
    obtain ⟨answer, hat, hanswer⟩ := exists_answer hlength htolerance hc
    cases hanswer with
    | met hmet =>
      rw [Constraint.isMissedBy_iff.mp hdistance] at hmissed
      exact absurd hmet (not_le.mpr hmissed)
    | @missed v _ _ => exact ⟨(place, v), mem_placedAnswers.mpr hat, rfl⟩

/-- An answer that says something gives the sides and the distance of its demand. -/
theorem reports_of_mem_placedAnswers (hlength : x.length = p.variableCount)
    (htolerance : 0 ≤ tolerance) {e : ℕ × Violation ℚ} (he : e ∈ p.placedAnswers x tolerance) :
    ∃ c, p.demands[e.1]? = some c ∧ e.2.Reports c x ∧ tolerance < e.2.amount := by
  obtain ⟨c, hc, hanswer⟩ := exists_demand hlength htolerance (mem_placedAnswers.mp he)
  cases hanswer with
  | missed hmissed hreports => exact ⟨c, hc, hreports, hmissed⟩

/-- The report on a point with a value for each variable has one entry for each demand that the point
misses by more than the tolerance, and nothing else, in order. It is empty exactly if the point meets all
constraints and sign conditions up to the tolerance. -/
theorem violations_report_exactly (hlength : x.length = p.variableCount)
    (htolerance : 0 ≤ tolerance) :
    (∃ placed, placed.map (·.2) = p.violations x tolerance ∧ p.ReportsExactly x tolerance placed) ∧
      (p.violations x tolerance = [] ↔
        (∀ c ∈ p.constraints, c.SatisfiedWithin tolerance x) ∧ ∀ a ∈ x, -tolerance ≤ a) := by
  refine ⟨?_, violations_eq_nil_iff hlength tolerance⟩
  let byAmount : Violation ℚ → Violation ℚ → Bool := fun v w => Scalar.totalLE w.amount v.amount
  let byAmountPlaced : ℕ × Violation ℚ → ℕ × Violation ℚ → Bool := fun e f => byAmount e.2 f.2
  have hbyAmount (e f : ℕ × Violation ℚ) : byAmountPlaced e f = true ↔ f.2.amount ≤ e.2.amount :=
    decide_eq_true_iff
  let placed := (p.placedAnswers x tolerance).mergeSort byAmountPlaced
  have hperm : placed.Perm (p.placedAnswers x tolerance) := List.mergeSort_perm _ _
  refine ⟨placed, ?_, ?nodup, fun place => ?missed_iff, fun e he => ?reports, ?sorted⟩
  · rw [List.map_mergeSort (s := byAmount) fun _ _ _ _ => rfl, map_snd_placedAnswers]
    rfl
  case nodup =>
    have hnodup : ((p.placedAnswers x tolerance).map (·.1)).Nodup :=
      List.pairwise_map.mpr ((pairwise_placedAnswers p x tolerance).imp fun h => h.ne)
    exact (hperm.map (·.1)).nodup_iff.mpr hnodup
  case missed_iff =>
    rw [(hperm.map (·.1)).mem_iff]
    exact placed_iff hlength htolerance place
  case reports => exact reports_of_mem_placedAnswers hlength htolerance (hperm.mem_iff.mp he)
  case sorted =>
    have htrans : ∀ e f g, byAmountPlaced e f = true → byAmountPlaced f g = true →
        byAmountPlaced e g = true := fun e f g hef hfg =>
      (hbyAmount e g).mpr (((hbyAmount f g).mp hfg).trans ((hbyAmount e f).mp hef))
    have htotal : ∀ e f, (byAmountPlaced e f || byAmountPlaced f e) = true := fun e f =>
      Bool.or_eq_true_iff.mpr
        ((le_total f.2.amount e.2.amount).imp (hbyAmount e f).mpr (hbyAmount f e).mpr)
    have hsorted := pairwise_mergeSort_of_ties htrans htotal (pairwise_placedAnswers p x tolerance)
    refine hsorted.imp fun {e f} ⟨hle, htied⟩ => ?_
    rcases ((hbyAmount e f).mp hle).lt_or_eq with hlt | heq
    · exact .inl hlt
    · exact .inr ⟨heq, htied ((hbyAmount f e).mpr heq.ge)⟩

/-- A point that misses three demands by the same distance, and a fourth one by just the tolerance. -/
theorem three_tied_violations :
    let p : LinearProgram ℚ :=
      { variableNames := ["x", "y"]
        objective := ⟨[2, 3], .minimize⟩
        constraints := [⟨"cap", [1, 1], .eq, 7 / 2⟩, ⟨"sum", [1, 1], .ge, 4⟩, ⟨"x_max", [1], .le, 3⟩] }
    let x : List ℚ := [4, -1]
    let tolerance : ℚ := 1 / 2
    x.length = p.variableCount ∧ 0 ≤ tolerance ∧
      (p.violations x tolerance).map (·.condition) = ["sum", "x_max", "y >= 0"] ∧
      (∃ placed, placed.map (·.2) = p.violations x tolerance ∧ p.ReportsExactly x tolerance placed) ∧
      (p.violations x tolerance = [] ↔
        (∀ c ∈ p.constraints, c.SatisfiedWithin tolerance x) ∧ ∀ a ∈ x, -tolerance ≤ a) := by
  intro p x tolerance
  have hlength : x.length = p.variableCount := rfl
  have htolerance : 0 ≤ tolerance := by decide +kernel
  have hnames : (p.violations x tolerance).map (·.condition) = ["sum", "x_max", "y >= 0"] := by
    -- all amounts are equal, so there is nothing to sort
    rw [violations, List.mergeSort_of_pairwise (by decide +kernel)]
    decide +kernel
  exact ⟨hlength, htolerance, hnames, violations_report_exactly hlength htolerance⟩

end LinearProgram

end WarmSimplex
