import Patchwork.Bytes

/-!
# Tables

A table holds values under byte strings, in increasing order of the keys.
-/

namespace Patchwork

abbrev Table (α : Type) := List (Bytes × α)

namespace Table

variable {α : Type}

def find? (key : Bytes) (table : Table α) : Option α :=
  table.lookup key

/-- Puts a value under a key, in the place of one that stands there. -/
def insert (key : Bytes) (value : α) : Table α → Table α
  | [] => [(key, value)]
  | (other, present) :: rest =>
    if key < other then (key, value) :: (other, present) :: rest
    else if key = other then (key, value) :: rest
    else (other, present) :: insert key value rest

def erase (key : Bytes) (table : Table α) : Table α :=
  table.filter fun entry => entry.1 ≠ key

def keys (table : Table α) : List Bytes :=
  table.map Prod.fst

/-- The table of some entries; a later entry takes the place of an earlier one. -/
def ofEntries (entries : List (Bytes × α)) : Table α :=
  entries.foldl (fun table entry => insert entry.1 entry.2 table) []

@[simp]
theorem find?_insert_self (key : Bytes) (value : α) (table : Table α) :
    find? key (insert key value table) = some value := by
  induction table with
  | nil => simp [insert, find?]
  | cons entry rest ih =>
    obtain ⟨other, present⟩ := entry
    rw [insert]
    split
    · simp [find?]
    · split
      · simp [find?]
      · rename_i hne
        rw [find?, List.lookup_cons, beq_false_of_ne hne]
        exact ih

theorem find?_insert_of_ne {key other : Bytes} (hne : key ≠ other) (value : α)
    (table : Table α) : find? key (insert other value table) = find? key table := by
  induction table with
  | nil => simpa [insert, find?] using hne
  | cons entry rest ih =>
    obtain ⟨stored, present⟩ := entry
    rw [insert]
    split
    · rw [find?, List.lookup_cons, beq_false_of_ne hne, find?]
    · split
      · rename_i heq
        rw [find?, List.lookup_cons, beq_false_of_ne hne, find?, List.lookup_cons, ← heq,
          beq_false_of_ne hne]
      · rw [find?, find?, List.lookup_cons, List.lookup_cons]
        split
        · rfl
        · exact ih

/-- Removing the entries of one key leaves those of every other key in place. -/
theorem lookup_filter_ne {κ ν : Type} [DecidableEq κ] [BEq κ] [LawfulBEq κ] {key other : κ}
    (hne : key ≠ other) (entries : List (κ × ν)) :
    (entries.filter fun entry => entry.1 ≠ other).lookup key = entries.lookup key := by
  induction entries with
  | nil => rfl
  | cons entry rest ih =>
    obtain ⟨stored, present⟩ := entry
    by_cases hstored : stored = other
    · rw [List.filter_cons_of_neg (by simpa using hstored), List.lookup_cons, hstored,
        beq_false_of_ne hne]
      exact ih
    · rw [List.filter_cons_of_pos (by simpa using hstored), List.lookup_cons,
        List.lookup_cons, ih]

/-- Removing the entries of a key leaves none of them. -/
theorem lookup_filter_self {κ ν : Type} [DecidableEq κ] [BEq κ] [LawfulBEq κ] (key : κ)
    (entries : List (κ × ν)) :
    (entries.filter fun entry => entry.1 ≠ key).lookup key = none := by
  rw [List.lookup_eq_none_iff]
  intro entry hentry
  have hne := (List.mem_filter.1 hentry).2
  simpa using fun heq => of_decide_eq_true hne (Eq.symm heq)

@[simp]
theorem find?_erase_self (key : Bytes) (table : Table α) :
    find? key (erase key table) = none :=
  lookup_filter_self key table

theorem find?_erase_of_ne {key other : Bytes} (hne : key ≠ other) (table : Table α) :
    find? key (erase other table) = find? key table :=
  lookup_filter_ne hne table

end Table

end Patchwork
