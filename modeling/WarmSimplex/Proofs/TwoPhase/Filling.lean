import WarmSimplex.Proofs.TwoPhase.Layout

/-!
# The first rows on plain rows

Before the first phase the rows are filled in one by one, from the constraints. Each has a place for
every column that it is written to, whatever the lengths of the coefficient lists, because slack and
artificial columns are counted before they are handed out. What comes out is the layout of the first
workspace.
-/

namespace WarmSimplex.TwoPhase

variable {α : Type}

/-! ## Writing one row -/

variable [Scalar α] {c : Constraint α} {rest constraints : List (Constraint α)}
  {width columns slack artificial : ℕ}

/-- Values written over zeros are fitted to the variables. -/
theorem writeAll_zeros (hwidth : width ≤ columns) (values : List α) :
    writeAll (List.replicate (columns + 1) 0) (values.take width) =
      some (⟨fit width values ++ List.replicate (columns - width) 0, 0⟩ : Equation α).entries := by
  have hzeros : columns + 1 - min width values.length =
      (width - values.length) + (columns - width) + 1 := by omega
  rw [writeAll_eq_some (by rw [List.length_take, List.length_replicate]; omega), List.drop_replicate,
    List.length_take, hzeros, List.replicate_succ', List.replicate_add, Equation.entries, fit]
  simp only [List.append_assoc]

/-! ## Writing all rows -/

/-- Some rows that are written, and as many zeros as are still to be written. -/
def filling (columns : ℕ) (filled : List (BasicRow α)) (remaining slack artificial : ℕ) :
    Dense.Filling α where
  data := filled.map (·.entries) ++ List.replicate (remaining + 1) (List.replicate (columns + 1) 0)
  basics := filled.map (·.basic) ++ List.replicate remaining 0
  slack := slack
  artificial := artificial

/-- The next free slack column. -/
@[simp] theorem slack_filling (filled : List (BasicRow α)) (remaining : ℕ) :
    (filling columns filled remaining slack artificial).slack = slack := rfl

/-- The next free artificial column. -/
@[simp] theorem artificial_filling (filled : List (BasicRow α)) (remaining : ℕ) :
    (filling columns filled remaining slack artificial).artificial = artificial := rfl

/-- A row that is written is one more of those that are. -/
theorem write_filling (columns slack artificial : ℕ) (filled : List (BasicRow α)) (r : BasicRow α)
    (remaining : ℕ) :
    write (filling columns filled (remaining + 1) slack artificial).data filled.length r.entries =
        some (filling columns (filled ++ [r]) remaining slack artificial).data ∧
      write (filling columns filled (remaining + 1) slack artificial).basics filled.length r.basic =
        some (filling columns (filled ++ [r]) remaining slack artificial).basics := by
  have hdata := write_append_cons (filled.map (·.entries))
    (List.replicate (remaining + 1) (List.replicate (columns + 1) (0 : α)))
    (List.replicate (columns + 1) 0) r.entries
  have hbasics := write_append_cons (filled.map (·.basic)) (List.replicate remaining 0) 0 r.basic
  rw [List.length_map] at hdata hbasics
  simp only [filling, List.replicate_succ (n := remaining + 1), List.replicate_succ (n := remaining),
    List.map_append, List.map_singleton, List.append_assoc, List.singleton_append]
  exact ⟨hdata, hbasics⟩

/-- A constraint fills in its row. -/
theorem next_filling (h : Fits width columns slack artificial (c :: rest)) (filled : List (BasicRow α)) :
    (filling columns filled (rest.length + 1) slack artificial).next width columns c filled.length =
      some (filling columns (filled ++ [initialRow width columns slack artificial c]) rest.length
        (slack + slackUse c) (artificial + artificialUse c)) := by
  obtain ⟨hvariables, hslacks, hinside⟩ := h
  rw [slackCount_cons] at hslacks
  rw [artificialCount_cons] at hinside
  have hwidth : width ≤ columns := by omega
  have hlength := length_orientedEquation hwidth c
  have hrow : (filling columns filled (rest.length + 1) slack artificial).data[filled.length]? =
      some (List.replicate (columns + 1) (0 : α)) := by
    simp [filling]
  have hrhs : write (⟨fit width (c.coefficients.map ((if c.rhs < 0 then -1 else 1) * ·)) ++
      List.replicate (columns - width) 0, 0⟩ : Equation α).entries columns
        ((if c.rhs < 0 then -1 else 1) * c.rhs) = some (orientedEquation width columns c).entries := by
    have hwritten := Equation.write_rhs (orientedEquation width columns c).coefficients 0
      (orientedEquation width columns c).rhs
    rwa [hlength] at hwritten
  obtain ⟨hdata, hbasics⟩ := write_filling columns slack artificial filled
    (initialRow width columns slack artificial c) rest.length
  simp only [Dense.Filling.next, hrow, writeAll_zeros hwidth, hrhs, Option.bind_eq_bind,
    Option.bind_some]
  rw [slackUse] at hslacks ⊢
  rw [artificialUse] at hinside ⊢
  cases hrelation : orientedRelation c with
  | le =>
    simp only [hrelation, reduceCtorEq, if_false] at hslacks
    simp only [initialRow, hrelation] at hdata hbasics ⊢
    have hslack : slack < (orientedEquation width columns c).coefficients.length := by omega
    simp only [slack_filling, artificial_filling, Equation.write_coefficient hslack, hdata, hbasics,
      Option.bind_some]
    rfl
  | ge =>
    simp only [hrelation, reduceCtorEq, if_false] at hslacks hinside
    simp only [initialRow, hrelation] at hdata hbasics ⊢
    have hslack : slack < (orientedEquation width columns c).coefficients.length := by omega
    have hartificial : artificial <
        ((orientedEquation width columns c).setCoefficient slack (-1)).coefficients.length := by
      rw [Equation.length_setCoefficient]
      omega
    simp only [slack_filling, artificial_filling, Equation.write_coefficient hslack,
      Equation.write_coefficient hartificial, hdata, hbasics, Option.bind_some]
    rfl
  | eq =>
    simp only [hrelation, reduceCtorEq, if_false] at hinside
    simp only [initialRow, hrelation] at hdata hbasics ⊢
    have hartificial : artificial < (orientedEquation width columns c).coefficients.length := by omega
    simp only [slack_filling, artificial_filling, Equation.write_coefficient hartificial, hdata, hbasics,
      Option.bind_some]
    rfl

/-- All constraints fill in their rows. -/
theorem foldlM_filling (h : Fits width columns slack artificial constraints)
    (filled : List (BasicRow α)) :
    (constraints.zipIdx filled.length).foldlM
      (fun (f : Dense.Filling α) (c, i) => f.next width columns c i)
      (filling columns filled constraints.length slack artificial) =
        some (filling columns (filled ++ initialRows width columns slack artificial constraints) 0
          (slack + slackCount constraints) (artificial + artificialCount constraints)) := by
  induction constraints generalizing filled slack artificial with
  | nil => simp [initialRows, slackCount, artificialCount]
  | cons c rest ih =>
    have hnext := ih h.tail (filled ++ [initialRow width columns slack artificial c])
    rw [List.length_append, List.length_singleton] at hnext
    rw [List.zipIdx_cons, List.foldlM_cons]
    dsimp only
    rw [List.length_cons, next_filling h, Option.bind_eq_bind, Option.bind_some, hnext, initialRows_cons,
      slackCount_cons, artificialCount_cons]
    simp only [List.append_assoc, List.singleton_append, Nat.add_assoc]

/-! ## The first workspace -/

namespace Workspace

/-- There is a row for each constraint. -/
theorem length_initialRows (width columns slack artificial : ℕ) (constraints : List (Constraint α)) :
    (initialRows width columns slack artificial constraints).length = constraints.length := by
  induction constraints generalizing slack artificial with
  | nil => rfl
  | cons c rest ih => rw [initialRows_cons, List.length_cons, List.length_cons, ih]

/-- The first workspace is regular. -/
theorem regular_ofProgram (p : LinearProgram α) : (ofProgram p).Regular := by
  refine ⟨fun r hr => ?_, fun r hr => ?_, ?_⟩
  · rw [columnCount_ofProgram]
    exact length_of_mem_initialRows (by omega) hr
  · rw [columnCount_ofProgram]
    have hbasic := basic_initialRows hr
    omega
  · rw [columnCount_ofProgram]
    exact Nat.le_add_right _ _

/-- The first rows are the layout of the first workspace. -/
theorem dense_ofProgram (p : LinearProgram α) : Dense.ofProgram p = some (ofProgram p).dense := by
  obtain ⟨columns, hcolumns⟩ : ∃ n, n = p.variableCount + slackCount p.constraints +
      artificialCount p.constraints := ⟨_, rfl⟩
  have hcount : ((ofProgram p).rows.map (·.entries)).length = p.constraints.length := by
    rw [List.length_map, ofProgram, length_initialRows]
  have hread : ((ofProgram p).rows.map (·.entries) ++
      [List.replicate (columns + 1) (0 : α)])[p.constraints.length]? =
        some (List.replicate (columns + 1) 0) := by
    rw [← hcount, List.getElem?_concat_length]
  have hlast := write_append_cons ((ofProgram p).rows.map (·.entries)) []
    (List.replicate (columns + 1) 0) (ofProgram p).objective.entries
  rw [hcount] at hlast
  rw [hcolumns] at hread hlast
  refine Option.bind_eq_some_iff.mpr ⟨_, foldlM_filling (fits_ofProgram p) [], ?_⟩
  refine Option.bind_eq_some_iff.mpr ⟨_, hread, ?_⟩
  refine Option.bind_eq_some_iff.mpr ⟨_, writeAll_zeros (by omega) _, ?_⟩
  refine Option.bind_eq_some_iff.mpr ⟨_, hlast, ?_⟩
  simp [filling, dense, ofProgram]

end Workspace

end WarmSimplex.TwoPhase
