/-!
# Checked access to lists

Lists that are read and written at indices which are computed. An access outside of a list has no result,
and neither has taking one from zero.
-/

namespace WarmSimplex

variable {β : Type}

/-- One less, if there is one to take. -/
def predecessor : Nat → Option Nat
  | 0 => none
  | n + 1 => some n

/-- Write an entry, if it is there. -/
def write (entries : List β) (i : Nat) (entry : β) : Option (List β) :=
  if i < entries.length then some (entries.set i entry) else none

/-- Write entries one after the other, from the first one on. -/
def writeAll (entries values : List β) : Option (List β) :=
  values.zipIdx.foldlM (fun held (value, i) => write held i value) entries

/-- Make each of the first entries anew from what stands there. -/
def update (count : Nat) (f : Nat → β → Option β) (entries : List β) : Option (List β) :=
  (List.range count).foldlM (fun held i => do
    let entry ← held[i]?
    let next ← f i entry
    write held i next) entries

/-- Remove an entry, if it is there. -/
def remove (entries : List β) (i : Nat) : Option (List β) :=
  if i < entries.length then some (entries.eraseIdx i) else none

/-- Insert an entry before the one at an index, or at the end. -/
def insertAt (entries : List β) (i : Nat) (entry : β) : Option (List β) :=
  if i ≤ entries.length then some (entries.insertIdx i entry) else none

end WarmSimplex
