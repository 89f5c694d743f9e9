import Mathlib.Data.List.Induction
import Patchwork.Table

/-!
# Tables whose keys increase

Putting in and taking out entries keeps the keys in order, so a table holds at most one entry
under a key: an entry that is put in takes the place of that one, whatever else the table holds.
Main statements: `Increasing.insert_perm` and `Increasing.perm_erase`.
-/

namespace Patchwork

namespace Table

variable {α : Type} {key other : Bytes} {value : α} {table : Table α}

/-- Every key is less than the ones behind it. -/
def Increasing (table : Table α) : Prop :=
  (keys table).Pairwise (· < ·)

theorem increasing_nil : Increasing ([] : Table α) :=
  List.Pairwise.nil

theorem mem_keys_insert (key : Bytes) (value : α) (table : Table α) :
    other ∈ keys (insert key value table) ↔ other = key ∨ other ∈ keys table := by
  induction table with
  | nil => simp [insert, keys]
  | cons entry rest ih =>
    obtain ⟨stored, present⟩ := entry
    rw [insert]
    split
    · exact List.mem_cons
    · split
      · rename_i heq
        simp [keys, heq]
      · change other ∈ stored :: keys (insert key value rest) ↔ _
        rw [List.mem_cons, ih]
        change _ ↔ other = key ∨ other ∈ stored :: keys rest
        rw [List.mem_cons, or_left_comm]

theorem mem_keys_erase (key : Bytes) (table : Table α) :
    other ∈ keys (erase key table) ↔ other ∈ keys table ∧ other ≠ key := by
  simp only [keys, erase, List.mem_map, List.mem_filter, decide_eq_true_eq]
  constructor
  · rintro ⟨entry, ⟨hentry, hne⟩, rfl⟩
    exact ⟨⟨entry, hentry, rfl⟩, hne⟩
  · rintro ⟨⟨entry, hentry, rfl⟩, hne⟩
    exact ⟨entry, ⟨hentry, hne⟩, rfl⟩

theorem mem_of_mem_insert {entry : Bytes × α} (hentry : entry ∈ insert key value table) :
    entry = (key, value) ∨ entry ∈ table := by
  induction table with
  | nil => exact .inl (List.mem_singleton.mp hentry)
  | cons first rest ih =>
    obtain ⟨stored, present⟩ := first
    rw [insert] at hentry
    split at hentry
    · exact List.mem_cons.mp hentry
    · split at hentry
      · exact (List.mem_cons.mp hentry).imp_right (List.mem_cons_of_mem _)
      · rcases List.mem_cons.mp hentry with rfl | hbehind
        · exact .inr List.mem_cons_self
        · exact (ih hbehind).imp_right (List.mem_cons_of_mem _)

/-- A table holds nothing that was not put in. -/
theorem mem_of_mem_ofEntries {entry : Bytes × α} {entries : List (Bytes × α)}
    (hentry : entry ∈ ofEntries entries) : entry ∈ entries := by
  induction entries using List.reverseRecOn with
  | nil => exact hentry
  | append_singleton entries last ih =>
    rw [ofEntries, List.foldl_append] at hentry
    rcases mem_of_mem_insert hentry with rfl | hbefore
    · exact List.mem_append_right _ (List.mem_singleton_self _)
    · exact List.mem_append_left _ (ih hbefore)

theorem Increasing.insert (hincreasing : Increasing table) (key : Bytes) (value : α) :
    Increasing (Table.insert key value table) := by
  induction table with
  | nil => exact List.pairwise_singleton _ key
  | cons entry rest ih =>
    obtain ⟨stored, present⟩ := entry
    obtain ⟨hstored, hrest⟩ := List.pairwise_cons.mp hincreasing
    rw [Table.insert]
    split
    · rename_i hless
      refine List.pairwise_cons.mpr ⟨fun other hother => ?_, hincreasing⟩
      rcases List.mem_cons.mp hother with rfl | hother
      · exact hless
      · exact List.lt_trans hless (hstored other hother)
    · rename_i hnot
      split
      · rename_i heq
        exact List.pairwise_cons.mpr ⟨heq ▸ hstored, hrest⟩
      · rename_i hne
        refine List.pairwise_cons.mpr ⟨fun other hother => ?_, ih hrest⟩
        rcases (mem_keys_insert key value rest).mp hother with rfl | hother
        · exact ((Std.lt_trichotomy other stored).resolve_left hnot).resolve_left hne
        · exact hstored other hother

theorem Increasing.erase (hincreasing : Increasing table) (key : Bytes) :
    Increasing (Table.erase key table) :=
  List.Pairwise.sublist (List.filter_sublist.map Prod.fst) hincreasing

/-- Nothing is taken out of a table that does not have the key. -/
theorem erase_eq_self (habsent : key ∉ keys table) : erase key table = table := by
  rw [erase, List.filter_eq_self]
  intro entry hentry
  simp only [ne_eq, decide_eq_true_eq]
  rintro rfl
  exact habsent (List.mem_map_of_mem hentry)

theorem erase_cons_self (key : Bytes) (value : α) (table : Table α) :
    erase key ((key, value) :: table) = erase key table :=
  List.filter_cons_of_neg (by simp)

theorem erase_cons_of_ne (hne : other ≠ key) (value : α) (table : Table α) :
    erase key ((other, value) :: table) = (other, value) :: erase key table :=
  List.filter_cons_of_pos (by simpa using hne)

/-- An entry that is put in stands in the place of the one under its key. -/
theorem Increasing.insert_perm (hincreasing : Increasing table) (key : Bytes) (value : α) :
    (Table.insert key value table).Perm ((key, value) :: Table.erase key table) := by
  induction table with
  | nil => exact List.Perm.refl _
  | cons entry rest ih =>
    obtain ⟨stored, present⟩ := entry
    obtain ⟨hstored, hrest⟩ := List.pairwise_cons.mp hincreasing
    rw [Table.insert]
    split
    · rename_i hless
      rw [erase_eq_self]
      intro hmem
      rcases List.mem_cons.mp hmem with rfl | hmem
      · exact List.lt_irrefl _ hless
      · exact List.lt_irrefl _ (List.lt_trans hless (hstored key hmem))
    · split
      · rename_i heq
        subst heq
        rw [erase_cons_self, erase_eq_self]
        exact fun hmem => List.lt_irrefl _ (hstored key hmem)
      · rename_i hne
        rw [erase_cons_of_ne (Ne.symm hne)]
        exact ((ih hrest).cons _).trans (List.Perm.swap _ _ _)

/-- A table is the entry under a key and the entries under the other keys. -/
theorem Increasing.perm_erase (hincreasing : Increasing table)
    (hfind : find? key table = some value) :
    table.Perm ((key, value) :: Table.erase key table) := by
  induction table with
  | nil => cases hfind
  | cons entry rest ih =>
    obtain ⟨stored, present⟩ := entry
    obtain ⟨hstored, hrest⟩ := List.pairwise_cons.mp hincreasing
    rw [find?, List.lookup_cons] at hfind
    by_cases heq : key = stored
    · subst heq
      rw [beq_self_eq_true] at hfind
      obtain rfl := Option.some.inj hfind
      rw [erase_cons_self, erase_eq_self]
      exact fun hmem => List.lt_irrefl _ (hstored key hmem)
    · rw [beq_false_of_ne heq] at hfind
      rw [erase_cons_of_ne (Ne.symm heq)]
      exact ((ih hrest hfind).cons _).trans (List.Perm.swap _ _ _)

theorem notMem_keys_of_find?_eq_none (hfind : find? key table = none) : key ∉ keys table := by
  intro hmem
  obtain ⟨entry, hentry, rfl⟩ := List.mem_map.mp hmem
  exact bne_iff_ne.mp (List.lookup_eq_none_iff.mp hfind entry hentry) rfl

/-- The entry under a key is the last one that was put in. -/
theorem find?_ofEntries (key : Bytes) (entries : List (Bytes × α)) :
    find? key (ofEntries entries) = entries.reverse.lookup key := by
  induction entries using List.reverseRecOn with
  | nil => rfl
  | append_singleton entries entry ih =>
    obtain ⟨last, value⟩ := entry
    have hlast : ofEntries (entries ++ [(last, value)]) =
        Table.insert last value (ofEntries entries) :=
      List.foldl_append
    rw [hlast, List.reverse_append, List.reverse_singleton, List.singleton_append, List.lookup_cons]
    by_cases heq : key = last
    · rw [heq, find?_insert_self, beq_self_eq_true]
    · rw [find?_insert_of_ne heq, beq_false_of_ne heq]
      exact ih

end Table

end Patchwork
