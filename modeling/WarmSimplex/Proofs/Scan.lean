import WarmSimplex.Proofs.Equation
import WarmSimplex.Selection

/-!
# Scans

The rules of both solvers scan the rows or columns that meet a condition. What a scan looks at is
exactly these, and a scan that compares by a number ends with the lowest one.

With a tolerance a scan ends at most the tolerance above the lowest number. It need not end with the
first entry that is so low: an earlier one that is not so low can keep that entry out and lose later.
-/

namespace WarmSimplex

section Scanned

variable {β γ : Type} {p : β → Prop} [DecidablePred p] {f : β → ℕ → γ} {F : β × ℕ → Option γ}

/-- The entries that a rule looks at are those that meet its condition. -/
theorem mem_filterMap_zipIdx (hF : ∀ b i, F (b, i) = if p b then some (f b i) else none)
    {entries : List β} {c : γ} :
    c ∈ entries.zipIdx.filterMap F ↔ ∃ i b, entries[i]? = some b ∧ p b ∧ f b i = c := by
  rw [List.mem_filterMap]
  constructor
  · rintro ⟨⟨b, i⟩, hmem, hc⟩
    rw [hF] at hc
    split at hc
    · rename_i hp
      exact ⟨i, b, List.mem_zipIdx_iff_getElem?.mp hmem, hp, Option.some.inj hc⟩
    · cases hc
  · rintro ⟨i, b, hb, hp, rfl⟩
    exact ⟨(b, i), List.mem_zipIdx_iff_getElem?.mpr hb, by rw [hF, if_pos hp]⟩

/-- A rule has nothing to look at if no entry meets its condition. -/
theorem filterMap_zipIdx_eq_nil_iff (hF : ∀ b i, F (b, i) = if p b then some (f b i) else none)
    {entries : List β} : entries.zipIdx.filterMap F = [] ↔ ∀ b ∈ entries, ¬p b := by
  rw [List.eq_nil_iff_forall_not_mem]
  constructor
  · intro hnone b hb hp
    obtain ⟨i, hi⟩ := List.mem_iff_getElem?.mp hb
    exact hnone (f b i) ((mem_filterMap_zipIdx hF).mpr ⟨i, b, hi, hp, rfl⟩)
  · intro hnone c hc
    obtain ⟨i, b, hb, hp, _⟩ := (mem_filterMap_zipIdx hF).mp hc
    exact hnone b (List.mem_of_getElem? hb) hp

/-- The first entry that a rule looks at comes after entries that do not meet its condition. -/
theorem exists_of_head?_filterMap_zipIdx (hF : ∀ b i, F (b, i) = if p b then some (f b i) else none)
    {entries : List β} {c : γ} (h : (entries.zipIdx.filterMap F).head? = some c) :
    ∃ i b, entries[i]? = some b ∧ p b ∧ f b i = c ∧
      ∀ j < i, ∀ earlier, entries[j]? = some earlier → ¬p earlier := by
  rw [List.head?_filterMap, List.findSome?_eq_some_iff] at h
  obtain ⟨before, ⟨b, i⟩, after, hsplit, hc, hbefore⟩ := h
  have hat : entries.zipIdx[before.length]? = some (b, i) := by
    rw [hsplit, List.getElem?_append_right le_rfl, Nat.sub_self]
    rfl
  rw [List.getElem?_zipIdx, Nat.zero_add, Option.map_eq_some_iff] at hat
  obtain ⟨_, hb, heq⟩ := hat
  cases heq
  rw [hF] at hc
  split at hc
  · rename_i hp
    refine ⟨before.length, b, hb, hp, Option.some.inj hc, fun j hj earlier hearlier hmeets => ?_⟩
    have hsame : (before ++ (b, before.length) :: after)[j]? = before[j]? :=
      List.getElem?_append_left hj
    have hpassed : (earlier, j) ∈ before := by
      apply List.mem_of_getElem? (i := j)
      rw [← hsame, ← hsplit, List.getElem?_zipIdx, Nat.zero_add, hearlier]
      rfl
    have hnone := hbefore _ hpassed
    rw [hF, if_pos hmeets] at hnone
    cases hnone
  · cases hc

/-- The entries that a rule looks at come by rising index. -/
theorem pairwise_filterMap_zipIdx (hF : ∀ b i, F (b, i) = if p b then some (f b i) else none)
    {index : γ → ℕ} (hindex : ∀ b i, index (f b i) = i) (entries : List β) :
    (entries.zipIdx.filterMap F).Pairwise fun c d => index c < index d := by
  have hpositions : entries.zipIdx.Pairwise fun p q => p.2 < q.2 := by
    rw [← List.pairwise_map (f := Prod.snd) (R := (· < ·)), List.zipIdx_map_snd]
    exact List.pairwise_lt_range'
  have hread : ∀ b i c, F (b, i) = some c → index c = i := by
    intro b i c hc
    rw [hF] at hc
    split at hc
    · rw [← Option.some.inj hc, hindex]
    · cases hc
  refine hpositions.filterMap F fun p q hlt c hc d hd => ?_
  rw [hread _ _ c hc, hread _ _ d hd]
  exact hlt

end Scanned

section Lowest

variable {β κ : Type} [Preorder κ] {beats : β → β → Bool} {rank bound : β → κ}

/-- The entry in hand never gets a higher rank. -/
theorem rank_foldl_scan_le (hbeats : ∀ next held, beats next held = true → rank next ≤ rank held)
    (held : β) (rest : List β) :
    rank (rest.foldl (fun held next => if beats next held then next else held) held) ≤ rank held := by
  induction rest generalizing held with
  | nil => exact le_rfl
  | cons next rest ih =>
    rw [List.foldl_cons]
    split
    · rename_i hnext
      exact (ih next).trans (hbeats next held hnext)
    · exact ih held

/-- The entry in hand ends up at or below the bound of every entry that was passed. -/
theorem rank_foldl_scan_le_bound (hself : ∀ b, rank b ≤ bound b)
    (hbeats : ∀ next held, beats next held = true → rank next ≤ rank held)
    (hholds : ∀ next held, beats next held = false → rank held ≤ bound next) (held : β)
    (rest : List β) :
    ∀ b ∈ held :: rest,
      rank (rest.foldl (fun held next => if beats next held then next else held) held) ≤ bound b := by
  induction rest generalizing held with
  | nil => simpa using hself held
  | cons next rest ih =>
    intro b hb
    have hfinal := rank_foldl_scan_le hbeats held (next :: rest)
    rcases List.mem_cons.mp hb with rfl | hb
    · exact hfinal.trans (hself b)
    · rw [List.foldl_cons] at hfinal ⊢
      cases hnext : beats next held with
      | true =>
        rw [if_pos rfl]
        exact ih next b hb
      | false =>
        rw [hnext, if_neg Bool.false_ne_true] at hfinal
        rw [if_neg Bool.false_ne_true]
        rcases List.mem_cons.mp hb with rfl | hb
        · exact hfinal.trans (hholds b held hnext)
        · exact ih held b (List.mem_cons_of_mem _ hb)

/-- A scan by a rank ends at or below the bound of every entry. -/
theorem rank_le_bound_of_scan_eq_some (hself : ∀ b, rank b ≤ bound b)
    (hbeats : ∀ next held, beats next held = true → rank next ≤ rank held)
    (hholds : ∀ next held, beats next held = false → rank held ≤ bound next) {entries : List β}
    {found : β} (h : scan beats entries = some found) : ∀ b ∈ entries, rank found ≤ bound b := by
  cases entries with
  | nil => cases h
  | cons first rest =>
    cases h
    exact rank_foldl_scan_le_bound hself hbeats hholds first rest

/-- A scan by a rank ends with the lowest one. -/
theorem rank_le_of_scan_eq_some (rank : β → κ)
    (hbeats : ∀ next held, beats next held = true → rank next ≤ rank held)
    (hholds : ∀ next held, beats next held = false → rank held ≤ rank next) {entries : List β}
    {found : β} (h : scan beats entries = some found) : ∀ b ∈ entries, rank found ≤ rank b :=
  rank_le_bound_of_scan_eq_some (fun _ => le_rfl) hbeats hholds h

end Lowest

section Tolerance

variable {β : Type} {lower : β → β → Bool} {index : β → ℕ} {value : β → ℚ} {tolerance : ℚ}

/-- A scan with a tolerance ends at most the tolerance above every entry. -/
theorem value_le_of_scan (htolerance : 0 ≤ tolerance)
    (hlower : ∀ next held, lower next held = decide (value next < value held - tolerance))
    {entries : List β} {found : β} (h : scan lower entries = some found) :
    ∀ b ∈ entries, value found ≤ value b + tolerance := by
  refine rank_le_bound_of_scan_eq_some (fun b => le_add_of_nonneg_right htolerance)
    (fun next held hbeats => ?_) (fun next held hholds => ?_) h
  · rw [hlower, decide_eq_true_eq] at hbeats
    linarith
  · rw [hlower, decide_eq_false_iff_not] at hholds
    linarith

/-- A scan with a tolerance keeps the entry in hand or ends below it by more than the tolerance. -/
theorem foldl_scan_eq_or_lt (htolerance : 0 ≤ tolerance)
    (hlower : ∀ next held, lower next held = decide (value next < value held - tolerance))
    (held : β) (rest : List β) :
    rest.foldl (fun held next => if lower next held then next else held) held = held ∨
      value (rest.foldl (fun held next => if lower next held then next else held) held) + tolerance <
        value held := by
  induction rest generalizing held with
  | nil => exact .inl rfl
  | cons next rest ih =>
    rw [List.foldl_cons]
    split
    · rename_i hnext
      rw [hlower, decide_eq_true_eq] at hnext
      right
      rcases ih next with heq | hlt
      · rw [heq]
        linarith
      · linarith
    · exact ih held

/-- If the fold of a scan passes over an entry that is within the tolerance of all others, then because
of an earlier entry that is not, but is within the tolerance of the one passed over. -/
theorem exists_earlier_of_foldl_scan (htolerance : 0 ≤ tolerance)
    (hlower : ∀ next held, lower next held = decide (value next < value held - tolerance))
    (held : β) (rest : List β) (hsorted : (held :: rest).Pairwise fun a b => index a < index b) :
    ∀ b ∈ held :: rest,
      index b < index (rest.foldl (fun held next => if lower next held then next else held) held) →
      (∀ c ∈ held :: rest, value b ≤ value c + tolerance) →
        ∃ a ∈ held :: rest, index a < index b ∧ value a ≤ value b + tolerance ∧
          ∃ c ∈ held :: rest, value c + tolerance < value a := by
  induction rest generalizing held with
  | nil =>
    intro b hb hindex
    rw [List.mem_singleton.mp hb] at hindex
    exact absurd hindex (lt_irrefl _)
  | cons next rest ih =>
    intro b hb hindex hbest
    obtain ⟨hheld, hrest⟩ := List.pairwise_cons.mp hsorted
    rw [List.foldl_cons] at hindex
    cases hnext : lower next held with
    | true =>
      rw [hnext, if_pos rfl] at hindex
      rw [hlower, decide_eq_true_eq] at hnext
      have hin : b ∈ next :: rest := by
        rcases List.mem_cons.mp hb with rfl | hin
        · linarith [hbest next (List.mem_cons_of_mem _ List.mem_cons_self)]
        · exact hin
      obtain ⟨a, ha, hbefore, hnear, c, hc, hfar⟩ := ih next hrest b hin hindex
        fun c hc => hbest c (List.mem_cons_of_mem _ hc)
      exact ⟨a, List.mem_cons_of_mem _ ha, hbefore, hnear, c, List.mem_cons_of_mem _ hc, hfar⟩
    | false =>
      rw [hnext, if_neg Bool.false_ne_true] at hindex
      have hfewer : (held :: rest).Sublist (held :: next :: rest) :=
        (List.sublist_cons_self next rest).cons_cons held
      rcases eq_or_ne b next with rfl | hother
      · -- the entry in hand keeps this one out, and loses later to the one that is found
        rw [hlower, decide_eq_false_iff_not] at hnext
        have hfirst : index held < index b := hheld b List.mem_cons_self
        refine ⟨held, List.mem_cons_self, hfirst, by linarith, _,
          hfewer.subset (foldl_scan_mem lower held rest), ?_⟩
        rcases foldl_scan_eq_or_lt htolerance hlower held rest with heq | hlt
        · rw [heq] at hindex
          exact absurd hindex hfirst.not_gt
        · exact hlt
      · have hin : b ∈ held :: rest := by
          rcases List.mem_cons.mp hb with rfl | hb
          · exact List.mem_cons_self
          · exact List.mem_cons_of_mem _ ((List.mem_cons.mp hb).resolve_left hother)
        obtain ⟨a, ha, hbefore, hnear, c, hc, hfar⟩ := ih held (hsorted.sublist hfewer) b hin hindex
          fun c hc => hbest c (hfewer.subset hc)
        exact ⟨a, hfewer.subset ha, hbefore, hnear, c, hfewer.subset hc, hfar⟩

/-- If a scan passes over an entry that is within the tolerance of all others, then because of an
earlier entry that is not, but is within the tolerance of the one passed over. -/
theorem exists_earlier_of_scan (htolerance : 0 ≤ tolerance)
    (hlower : ∀ next held, lower next held = decide (value next < value held - tolerance))
    {entries : List β} (hsorted : entries.Pairwise fun a b => index a < index b) {found : β}
    (h : scan lower entries = some found) {b : β} (hb : b ∈ entries) (hindex : index b < index found)
    (hbest : ∀ c ∈ entries, value b ≤ value c + tolerance) :
    ∃ a ∈ entries, index a < index b ∧ value a ≤ value b + tolerance ∧
      ∃ c ∈ entries, value c + tolerance < value a := by
  cases entries with
  | nil => cases h
  | cons first rest =>
    cases h
    exact exists_earlier_of_foldl_scan htolerance hlower first rest hsorted b hb hindex hbest

end Tolerance

end WarmSimplex
