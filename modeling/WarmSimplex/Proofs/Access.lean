import Mathlib.Order.Nat
import WarmSimplex.Access
import WarmSimplex.Equation

/-!
# Checked access to lists

When a computation on a list, each of whose reads and writes is checked, has a result, and which one.
Each walk gives the plain list operation that it comes down to: entries written one after the other, a
list made anew entry by entry, the first entry that will do, a fold.

A walk whose steps rely on something, such as a width, is given it as an invariant.
-/

namespace WarmSimplex

variable {β : Type} {entries : List β}

/-- An entry that is there can be written. -/
theorem write_eq_some {i : ℕ} (h : i < entries.length) (entry : β) :
    write entries i entry = some (entries.set i entry) :=
  if_pos h

/-- An entry that is there can be removed. -/
theorem remove_eq_some {i : ℕ} (h : i < entries.length) :
    remove entries i = some (entries.eraseIdx i) :=
  if_pos h

/-- There is one to take from a number above zero. -/
theorem predecessor_succ (n : ℕ) : predecessor (n + 1) = some n := rfl

/-- Writing the entry after some others. -/
theorem write_append_cons (before after : List β) (old new : β) :
    write (before ++ old :: after) before.length new = some (before ++ new :: after) := by
  rw [write_eq_some (by simp), List.set_append_right _ _ (Nat.le_refl _), Nat.sub_self]
  rfl

/-- Inserting an entry after some others. -/
theorem insertAt_append (before after : List β) (new : β) :
    insertAt (before ++ after) before.length new = some (before ++ new :: after) := by
  have hinsert : (before ++ after).insertIdx before.length new = before ++ new :: after := by
    induction before with
    | nil => rfl
    | cons first rest ih => exact congrArg (first :: ·) ih
  rw [insertAt, if_pos (by simp), hinsert]

/-- Values are written over what comes after the entries that were written already. -/
theorem foldlM_write_append (values written rest : List β) (h : values.length ≤ rest.length) :
    (values.zipIdx written.length).foldlM (fun held (value, i) => write held i value)
      (written ++ rest) = some (written ++ (values ++ rest.drop values.length)) := by
  induction values generalizing written rest with
  | nil => rfl
  | cons value values ih =>
    cases rest with
    | nil => cases h
    | cons first rest =>
      have hnext := ih (written ++ [value]) rest (Nat.le_of_succ_le_succ h)
      rw [List.length_append, List.length_singleton] at hnext
      rw [List.zipIdx_cons, List.foldlM_cons]
      dsimp only
      rw [write_append_cons, Option.bind_eq_bind, Option.bind_some, List.append_cons written, hnext]
      simp

/-- Values that are no more than the entries take the place of the first ones. -/
theorem writeAll_eq_some {values : List β} (h : values.length ≤ entries.length) :
    writeAll entries values = some (values ++ entries.drop values.length) :=
  foldlM_write_append values [] entries h

/-- A value is written at places on end. -/
theorem foldlM_write_range' (written rest : List β) (value : β) {count : ℕ} (h : count ≤ rest.length) :
    (List.range' written.length count).foldlM (fun held i => write held i value) (written ++ rest) =
      some (written ++ (List.replicate count value ++ rest.drop count)) := by
  have hplaces : ∀ start, (List.replicate count value).zipIdx start =
      (List.range' start count).map (value, ·) := by
    intro start
    clear h
    induction count generalizing start with
    | zero => rfl
    | succ count ih => rw [List.replicate_succ, List.zipIdx_cons, ih, List.range'_succ, List.map_cons]
  have hwritten := foldlM_write_append (List.replicate count value) written rest
    (by rwa [List.length_replicate])
  rwa [hplaces, List.foldlM_map, List.length_replicate] at hwritten

/-- If each entry can be made anew, the first ones can. -/
theorem update_eq_take {f : ℕ → β → Option β} {result : List β}
    (hlength : result.length = entries.length)
    (h : ∀ i a b, entries[i]? = some a → result[i]? = some b → f i a = some b) {count : ℕ}
    (hcount : count ≤ entries.length) :
    update count f entries = some (result.take count ++ entries.drop count) := by
  induction count with
  | zero => rfl
  | succ count ih =>
    have hin : count < entries.length := hcount
    have hresult : count < result.length := hlength.symm ▸ hin
    have htake : (result.take count).length = count := by rw [List.length_take]; omega
    have hdrop : entries.drop count = entries[count] :: entries.drop (count + 1) :=
      List.drop_eq_getElem_cons hin
    have hread : (result.take count ++ entries.drop count)[count]? = some entries[count] := by
      rw [List.getElem?_append_right htake.le, htake, Nat.sub_self, hdrop]
      rfl
    have hmade : f count entries[count] = some result[count] :=
      h count _ _ (List.getElem?_eq_getElem hin) (List.getElem?_eq_getElem hresult)
    have hwrite : write (result.take count ++ entries.drop count) count result[count] =
        some (result.take (count + 1) ++ entries.drop (count + 1)) := by
      have hwritten := write_append_cons (result.take count) (entries.drop (count + 1)) entries[count]
        result[count]
      rw [htake, ← hdrop] at hwritten
      rw [hwritten, List.take_succ_eq_append_getElem hresult, List.append_assoc, List.singleton_append]
    rw [update, List.range_succ, List.foldlM_append, ← update, ih hin.le]
    simp only [Option.bind_eq_bind, Option.bind_some, List.foldlM_cons, List.foldlM_nil, hread, hmade,
      hwrite]
    rfl

/-- If each entry can be made anew, all of them can. -/
theorem update_eq_some {f : ℕ → β → Option β} {result : List β}
    (hlength : result.length = entries.length)
    (h : ∀ i a b, entries[i]? = some a → result[i]? = some b → f i a = some b) :
    update entries.length f entries = some result := by
  rw [update_eq_take hlength h le_rfl, List.drop_length, List.append_nil, ← hlength, List.take_length]

/-- A search among some entries on end finds the first of them that will do. -/
theorem findM?_range' (p : β → Bool) {start count : ℕ} (h : start + count ≤ entries.length) :
    (List.range' start count).findM? (fun j => entries[j]?.map p) =
      some ((((entries.drop start).take count).findIdx? p).map (· + start)) := by
  induction count generalizing start with
  | zero => rfl
  | succ count ih =>
    have hin : start < entries.length := by omega
    rw [List.range'_succ, List.findM?, List.getElem?_eq_getElem hin, List.drop_eq_getElem_cons hin,
      List.take_succ_cons, List.findIdx?_cons]
    simp only [Option.map_some, Option.bind_eq_bind, Option.bind_some]
    cases hp : p entries[start] with
    | true => simp
    | false =>
      simp only [Bool.false_eq_true, if_false]
      rw [ih (by omega), Option.map_map]
      congr 2
      funext j
      simp only [Function.comp_apply]
      omega

/-- A search among the first entries finds the first of them that will do. -/
theorem findM?_range (p : β → Bool) {count : ℕ} (h : count ≤ entries.length) :
    (List.range count).findM? (fun j => entries[j]?.map p) =
      some ((entries.take count).findIdx? p) := by
  rw [List.range_eq_range', findM?_range' p (by omega), List.drop_zero]
  simp

/-- A walk whose checks succeed maps every entry. -/
theorem mapM_eq_some_map {γ : Type} {f : β → Option γ} {g : β → γ}
    (h : ∀ b ∈ entries, f b = some (g b)) : entries.mapM f = some (entries.map g) := by
  induction entries with
  | nil => rfl
  | cons first rest ih =>
    obtain ⟨hfirst, hrest⟩ := List.forall_mem_cons.mp h
    rw [List.mapM_cons, hfirst, ih hrest]
    rfl

/-- Walks agree if they do so at every entry. -/
theorem mapM_congr {γ : Type} {f g : β → Option γ} (h : ∀ b ∈ entries, f b = g b) :
    entries.mapM f = entries.mapM g := by
  induction entries with
  | nil => rfl
  | cons first rest ih =>
    obtain ⟨hfirst, hrest⟩ := List.forall_mem_cons.mp h
    rw [List.mapM_cons, List.mapM_cons, hfirst, ih hrest]

/-- Walks that gather a result agree if they do so at every entry. -/
theorem foldlM_congr {γ : Type} {f g : γ → β → Option γ} (h : ∀ b ∈ entries, ∀ c, f c b = g c b) (c : γ) :
    entries.foldlM f c = entries.foldlM g c := by
  induction entries generalizing c with
  | nil => rfl
  | cons first rest ih =>
    obtain ⟨hfirst, hrest⟩ := List.forall_mem_cons.mp h
    rw [List.foldlM_cons, List.foldlM_cons, hfirst]
    exact congrArg _ (funext (ih hrest))

/-- A map that looks at the entries only, and not at their places. -/
theorem map_zipIdx_fst {γ : Type} (f : β → γ) (entries : List β) :
    (entries.zipIdx.map fun pair => f pair.1) = entries.map f := by
  conv_rhs => rw [← List.zipIdx_map_fst 0 entries, List.map_map]
  rfl

/-- A walk along the places of the entries that reads each of them. -/
theorem mapM_range_eq {γ : Type} {f : ℕ → Option γ} {g : β × ℕ → Option γ}
    (h : ∀ i b, entries[i]? = some b → f i = g (b, i)) :
    (List.range entries.length).mapM f = entries.zipIdx.mapM g := by
  rw [List.range_eq_range', ← List.zipIdx_map_snd 0 entries, List.mapM_map]
  exact mapM_congr fun pair hpair => h pair.2 pair.1 (List.mem_zipIdx_iff_getElem?.mp hpair)

/-- Such a walk maps every entry if its checks succeed. -/
theorem mapM_range_eq_some {γ : Type} {f : ℕ → Option γ} {g : β × ℕ → γ}
    (h : ∀ i b, entries[i]? = some b → f i = some (g (b, i))) :
    (List.range entries.length).mapM f = some (entries.zipIdx.map g) :=
  (mapM_range_eq h).trans (mapM_eq_some_map fun _ _ => rfl)

/-- Such a walk may gather a result. -/
theorem foldlM_range_eq {γ : Type} {f : γ → ℕ → Option γ} {g : γ → β → Option γ}
    (h : ∀ i b, entries[i]? = some b → ∀ c, f c i = g c b) (c : γ) :
    (List.range entries.length).foldlM f c = entries.foldlM g c := by
  rw [List.range_eq_range', ← List.zipIdx_map_snd 0 entries, List.foldlM_map]
  conv_rhs => rw [← List.zipIdx_map_fst 0 entries, List.foldlM_map]
  exact foldlM_congr (fun pair hpair => h pair.2 pair.1 (List.mem_zipIdx_iff_getElem?.mp hpair)) c

/-- A test along some places on end. -/
theorem allM_range'_eq_some {f : ℕ → Option Bool} {p : β → Bool} {start : ℕ}
    (h : ∀ i b, entries[i]? = some b → f (start + i) = some (p b)) :
    (List.range' start entries.length).allM f = some (entries.all p) := by
  induction entries generalizing start with
  | nil => rfl
  | cons first rest ih =>
    have hrest : (List.range' (start + 1) rest.length).allM f = some (rest.all p) := by
      refine ih fun i b hb => ?_
      rw [Nat.add_right_comm]
      exact h (i + 1) b hb
    have hfirst : f start = some (p first) := h 0 first rfl
    rw [List.length_cons, List.range'_succ, List.allM_cons, hfirst, List.all_cons]
    cases p first with
    | true => exact hrest
    | false => rfl

/-- A test along the places of the entries that reads each of them. -/
theorem allM_range_eq_some {f : ℕ → Option Bool} {p : β → Bool}
    (h : ∀ i b, entries[i]? = some b → f i = some (p b)) :
    (List.range entries.length).allM f = some (entries.all p) := by
  rw [List.range_eq_range']
  exact allM_range'_eq_some fun i b hb => by rw [Nat.zero_add, h i b hb]

/-- A walk whose steps succeed, and keep what the later ones need, is a fold. -/
theorem foldlM_eq_some {γ δ : Type} (layout : γ → δ) {step : δ → β → Option δ} (g : γ → β → γ)
    {I : γ → Prop} (h : ∀ b ∈ entries, ∀ c, I c → step (layout c) b = some (layout (g c b)) ∧ I (g c b))
    {c : γ} (hc : I c) :
    entries.foldlM step (layout c) = some (layout (entries.foldl g c)) ∧ I (entries.foldl g c) := by
  induction entries generalizing c with
  | nil => exact ⟨rfl, hc⟩
  | cons first rest ih =>
    obtain ⟨hstep, hnext⟩ := h first List.mem_cons_self c hc
    rw [List.foldlM_cons, hstep, Option.bind_eq_bind, Option.bind_some, List.foldl_cons]
    exact ih (fun b hb => h b (List.mem_cons_of_mem _ hb)) hnext

/-- A walk whose steps succeed folds every entry. -/
theorem foldlM_eq_some_foldl {γ : Type} {f : γ → β → Option γ} {g : γ → β → γ} {I : γ → Prop}
    (h : ∀ b ∈ entries, ∀ c, I c → f c b = some (g c b) ∧ I (g c b)) {c : γ} (hc : I c) :
    entries.foldlM f c = some (entries.foldl g c) :=
  (foldlM_eq_some id g h hc).1

/-- Such a walk may go along the places of the entries. -/
theorem foldlM_range_eq_some {γ δ : Type} (layout : γ → δ) {step : δ → ℕ → Option δ}
    (g : γ → β × ℕ → γ) {I : γ → Prop}
    (h : ∀ i b, entries[i]? = some b → ∀ c, I c →
      step (layout c) i = some (layout (g c (b, i))) ∧ I (g c (b, i)))
    {c : γ} (hc : I c) :
    (List.range entries.length).foldlM step (layout c) = some (layout (entries.zipIdx.foldl g c)) ∧
      I (entries.zipIdx.foldl g c) := by
  rw [List.range_eq_range', ← List.zipIdx_map_snd 0 entries, List.foldlM_map]
  exact foldlM_eq_some layout g
    (fun pair hpair c hc => h pair.2 pair.1 (List.mem_zipIdx_iff_getElem?.mp hpair) c hc) hc

/-- It is a fold over the entries alone if the places do not matter. -/
theorem foldlM_range_eq_foldl {γ δ : Type} (layout : γ → δ) {step : δ → ℕ → Option δ} (g : γ → β → γ)
    {I : γ → Prop}
    (h : ∀ i b, entries[i]? = some b → ∀ c, I c →
      step (layout c) i = some (layout (g c b)) ∧ I (g c b))
    {c : γ} (hc : I c) :
    (List.range entries.length).foldlM step (layout c) = some (layout (entries.foldl g c)) ∧
      I (entries.foldl g c) := by
  have hfold : entries.foldl g c = entries.zipIdx.foldl (fun c pair => g c pair.1) c := by
    conv_lhs => rw [← List.zipIdx_map_fst 0 entries, List.foldl_map]
  rw [hfold]
  exact foldlM_range_eq_some layout _ h hc

/-! ## Equations as rows of numbers -/

namespace Equation

variable {α : Type} {e target : Equation α} {column : ℕ}

/-- An equation has an entry more than coefficients. -/
theorem length_entries (e : Equation α) : e.entries.length = e.coefficients.length + 1 := by
  rw [entries, List.length_append, List.length_singleton]

/-- Writing a coefficient that is there. -/
theorem write_coefficient (h : column < e.coefficients.length) (a : α) :
    write e.entries column a = some (e.setCoefficient column a).entries := by
  rw [write_eq_some (by rw [length_entries]; omega), entries, List.set_append_left _ _ h]
  rfl

/-- Writing the right-hand side. -/
theorem write_rhs (coefficients : List α) (b a : α) :
    write (⟨coefficients, b⟩ : Equation α).entries coefficients.length a =
      some (⟨coefficients, a⟩ : Equation α).entries :=
  write_append_cons coefficients [] b a

/-- Inserting a coefficient after the last one. -/
theorem insertAt_entries (e : Equation α) (value : α) :
    insertAt e.entries e.coefficients.length value = some (e.addColumn value).entries := by
  rw [entries, insertAt_append, entries, addColumn, List.append_assoc]
  rfl

/-- The entries of a multiple of an equation subtracted from another one. -/
theorem entries_subtractMultiple [Scalar α] (factor : α)
    (hwidth : e.coefficients.length = target.coefficients.length) :
    (target.subtractMultiple factor e).entries =
      List.zipWith (fun t a => t - factor * a) target.entries e.entries := by
  rw [entries, entries, entries, List.zipWith_append hwidth.symm]
  rfl

end Equation

end WarmSimplex
