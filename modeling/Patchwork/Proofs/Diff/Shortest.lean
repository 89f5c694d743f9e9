import Patchwork.Proofs.Diff.Script

/-!
# Edit scripts are shortest

Paths through the grid, common sublists and complete alignments are three views of one thing: a
path with `n` changes through the whole grid leaves a common sublist of the lines it keeps.
Main statement: `script_shortest`.
-/

namespace Patchwork

namespace Diff

/-- A list that is left when lines are taken out of either side, and no longer one is. -/
structure IsLongestCommon (old new common : List Bytes) : Prop where
  sublist_old : common.Sublist old
  sublist_new : common.Sublist new
  longest : ∀ other : List Bytes, other.Sublist old → other.Sublist new →
    other.length ≤ common.length

variable {old new : List Bytes}

/-! ## Common sublists -/

theorem exists_getElem_of_cons_sublist {line : Bytes} {common lines : List Bytes} {start : Nat}
    (hsublist : (line :: common).Sublist (lines.drop start)) :
    ∃ index, start ≤ index ∧ lines[index]? = some line ∧
      common.Sublist (lines.drop (index + 1)) := by
  obtain ⟨before, behind, hsplit, hmem, hcommon⟩ := List.cons_sublist_iff.mp hsublist
  obtain ⟨first, second, rfl⟩ := List.append_of_mem hmem
  have hdrop : lines.drop (start + first.length) = line :: (second ++ behind) := by
    rw [← List.drop_drop, hsplit, List.append_assoc, List.drop_left]
    rfl
  refine ⟨start + first.length, Nat.le_add_right _ _, ?_, ?_⟩
  · rw [← Nat.add_zero (start + first.length), ← List.getElem?_drop, hdrop]
    rfl
  · rw [← List.drop_drop, hdrop]
    exact hcommon.trans (List.sublist_append_right second behind)

/-- The lines of a common sublist lie on a path that changes all other lines. -/
theorem exists_path_of_common (common : List Bytes) (x y : Nat) (hx : x ≤ old.length)
    (hy : y ≤ new.length) (hold : common.Sublist (old.drop x))
    (hnew : common.Sublist (new.drop y)) :
    ∃ changes, Path (SameLines old.toArray new.toArray) ⟨x, y⟩ changes
        ⟨old.length, new.length⟩ ∧
      changes + 2 * common.length = (old.length - x) + (new.length - y) := by
  induction common generalizing x y with
  | nil =>
    refine ⟨_, Path.ofChanges _ (by simp only []; omega) (by simp only []; omega), ?_⟩
    simp only [List.length_nil]
    omega
  | cons line common ih =>
    obtain ⟨oldIndex, holdLe, holdLine, holdRest⟩ := exists_getElem_of_cons_sublist hold
    obtain ⟨newIndex, hnewLe, hnewLine, hnewRest⟩ := exists_getElem_of_cons_sublist hnew
    have holdLt := (List.getElem?_eq_some_iff.mp holdLine).1
    have hnewLt := (List.getElem?_eq_some_iff.mp hnewLine).1
    obtain ⟨changes, hrest, hcount⟩ :=
      ih (oldIndex + 1) (newIndex + 1) holdLt hnewLt holdRest hnewRest
    have hfirst : Path (SameLines old.toArray new.toArray) ⟨x, y⟩ _ ⟨oldIndex, newIndex⟩ :=
      Path.ofChanges _ (by simp only []; omega) (by simp only []; omega)
    have hkept := hfirst.keep ((sameLines_iff _ _).mpr ⟨line, holdLine, hnewLine⟩)
    refine ⟨_, hkept.trans hrest, ?_⟩
    simp only [List.length_cons]
    omega

theorem sublist_take_succ {common lines : List Bytes} {count : Nat}
    (hsublist : common.Sublist (lines.take count)) :
    common.Sublist (lines.take (count + 1)) := by
  rw [List.take_add_one]
  exact hsublist.trans (List.sublist_append_left _ _)

/-- The lines that a path keeps are a common sublist. -/
theorem exists_common_of_path {changes : Nat} {stop : Point}
    (hpath : Path (SameLines old.toArray new.toArray) ⟨0, 0⟩ changes stop) :
    ∃ common : List Bytes, common.Sublist (old.take stop.x.toNat) ∧
      common.Sublist (new.take stop.y.toNat) ∧
      changes + 2 * common.length = stop.x.toNat + stop.y.toNat := by
  induction hpath with
  | refl => exact ⟨[], List.nil_sublist _, List.nil_sublist _, rfl⟩
  | @keep changes stop hbefore hsame ih =>
    obtain ⟨common, hold, hnew, hcount⟩ := ih
    have hle := hbefore.start_le_stop
    simp only [] at hle
    obtain ⟨x, hx⟩ := Int.eq_ofNat_of_zero_le hle.1
    obtain ⟨y, hy⟩ := Int.eq_ofNat_of_zero_le hle.2
    obtain ⟨stopX, stopY⟩ := stop
    simp only [] at hx hy
    subst hx hy
    obtain ⟨line, holdLine, hnewLine⟩ := (sameLines_iff _ _).mp hsame
    simp only [Int.toNat_natCast] at hold hnew hcount
    refine ⟨common ++ [line], ?_, ?_, ?_⟩
    · change (common ++ [line]).Sublist (old.take (x + 1))
      rw [List.take_add_one, holdLine]
      exact hold.append (List.Sublist.refl _)
    · change (common ++ [line]).Sublist (new.take (y + 1))
      rw [List.take_add_one, hnewLine]
      exact hnew.append (List.Sublist.refl _)
    · simp only [Point.next, List.length_append, List.length_singleton]
      omega
  | @delete changes stop hbefore ih =>
    obtain ⟨common, hold, hnew, hcount⟩ := ih
    have hle := hbefore.start_le_stop
    simp only [] at hle
    have hnext : (stop.x + 1).toNat = stop.x.toNat + 1 := by omega
    refine ⟨common, ?_, hnew, by simp only [hnext]; omega⟩
    rw [hnext]
    exact sublist_take_succ hold
  | @insert changes stop hbefore ih =>
    obtain ⟨common, hold, hnew, hcount⟩ := ih
    have hle := hbefore.start_le_stop
    simp only [] at hle
    have hnext : (stop.y + 1).toNat = stop.y.toNat + 1 := by omega
    refine ⟨common, hold, ?_, by simp only [hnext]; omega⟩
    rw [hnext]
    exact sublist_take_succ hnew

/-! ## Complete alignments -/

theorem exists_of_cons_eq_range' {index start count : Nat} {rest : List Nat}
    (hindices : index :: rest = List.range' start count) :
    ∃ left, count = left + 1 ∧ index = start ∧ rest = List.range' (start + 1) left := by
  cases count with
  | zero => simp at hindices
  | succ left =>
    rw [List.range'_succ, List.cons.injEq] at hindices
    exact ⟨left, rfl, hindices⟩

/-- Edits that use up lines from two positions on, in order, lead through the grid. -/
theorem traces_of_indices (edits : List Edit) (x y oldCount newCount : Nat)
    (hold : edits.filterMap Edit.oldIndex? = List.range' x oldCount)
    (hnew : edits.filterMap Edit.newIndex? = List.range' y newCount)
    (hequal : ∀ oldIndex newIndex, .keep oldIndex newIndex ∈ edits →
      ∃ line, old[oldIndex]? = some line ∧ new[newIndex]? = some line) :
    Traces old.toArray new.toArray ⟨x, y⟩ edits
      ⟨(x + oldCount : Nat), (y + newCount : Nat)⟩ := by
  induction edits generalizing x y oldCount newCount with
  | nil =>
    obtain rfl : oldCount = 0 := by simpa using hold.symm
    obtain rfl : newCount = 0 := by simpa using hnew.symm
    exact .nil _
  | cons edit edits ih =>
    have hrest := fun oldIndex newIndex hmem =>
      hequal oldIndex newIndex (List.mem_cons_of_mem edit hmem)
    have hnext : ∀ start left : Nat, start + (left + 1) = start + 1 + left := by omega
    cases edit with
    | keep oldIndex newIndex =>
      obtain ⟨oldLeft, rfl, rfl, holdRest⟩ := exists_of_cons_eq_range' hold
      obtain ⟨newLeft, rfl, rfl, hnewRest⟩ := exists_of_cons_eq_range' hnew
      have hsame := (sameLines_iff _ _).mpr (hequal _ _ List.mem_cons_self)
      rw [hnext oldIndex, hnext newIndex]
      exact .keep hsame (ih _ _ _ _ holdRest hnewRest hrest)
    | delete oldIndex =>
      obtain ⟨oldLeft, rfl, rfl, holdRest⟩ := exists_of_cons_eq_range' hold
      rw [hnext]
      exact .delete (ih _ _ _ _ holdRest hnew hrest)
    | insert newIndex =>
      obtain ⟨newLeft, rfl, rfl, hnewRest⟩ := exists_of_cons_eq_range' hnew
      rw [hnext]
      exact .insert (ih _ _ _ _ hold hnewRest hrest)

/-- A complete alignment follows a path through the whole grid with as many changes. -/
theorem IsScript.path {edits : List Edit} (hedits : IsScript old new edits) :
    Path (SameLines old.toArray new.toArray) ⟨0, 0⟩ (Edit.changeCount edits)
      ⟨old.length, new.length⟩ := by
  have htraces := traces_of_indices edits 0 0 old.length new.length
    (List.range_eq_range' ▸ hedits.oldIndices) (List.range_eq_range' ▸ hedits.newIndices)
    hedits.equal
  rw [Nat.zero_add, Nat.zero_add] at htraces
  exact htraces.path

theorem changeCount_deletionsFirst (edits : List Edit) :
    Edit.changeCount (Edit.deletionsFirst [] edits) = Edit.changeCount edits :=
  (Edit.deletionsFirst_perm [] edits).countP_eq _

/-- A script changes just the lines outside a longest common sublist, and no complete alignment
has fewer changes. -/
theorem script_shortest (old new : List Bytes) :
    (∃ common, IsLongestCommon old new common ∧
      Edit.changeCount (script old new) + 2 * common.length = old.length + new.length) ∧
      ∀ edits, IsScript old new edits →
        Edit.changeCount (script old new) ≤ Edit.changeCount edits := by
  obtain ⟨edits, hscript, htraces, hleast⟩ := script_traces old new
  rw [hscript, changeCount_deletionsFirst]
  refine ⟨?_, fun other hother => hleast _ hother.path⟩
  obtain ⟨common, hold, hnew, hcount⟩ := exists_common_of_path htraces.path
  simp only [Int.toNat_natCast, List.take_length] at hold hnew hcount
  refine ⟨common, ⟨hold, hnew, fun other hotherOld hotherNew => ?_⟩, hcount⟩
  obtain ⟨changes, hpath, hchanges⟩ := exists_path_of_common other 0 0 (Nat.zero_le _)
    (Nat.zero_le _) hotherOld hotherNew
  have hle := hleast changes hpath
  omega

end Diff

end Patchwork
