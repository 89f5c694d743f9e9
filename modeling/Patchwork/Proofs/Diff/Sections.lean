import Mathlib.Data.List.Basic
import Patchwork.Diff.Reader

/-!
# Carrying sections out

Sections that are cut out of a list of signed lines, so that only unchanged lines are left
between them, lead from the old lines of the list to its new ones.  Read the other way round
they are sections cut out of the list with its signs turned.
-/

namespace Patchwork

namespace Diff

/-- A signed line on the side it stands on. -/
abbrev SignedLine := Side × Bytes

namespace SignedLine

/-- The line, if it is an old one. -/
def old? : SignedLine → Option Bytes
  | (.newOnly, _) => none
  | (.oldOnly, line) | (.both, line) => some line

/-- The line, if it is a new one. -/
def new? : SignedLine → Option Bytes
  | (.oldOnly, _) => none
  | (.newOnly, line) | (.both, line) => some line

def flip (line : SignedLine) : SignedLine := (line.1.flip, line.2)

theorem old?_flip (line : SignedLine) : line.flip.old? = line.new? := by
  obtain ⟨side, line⟩ := line
  cases side <;> rfl

theorem new?_flip (line : SignedLine) : line.flip.new? = line.old? := by
  obtain ⟨side, line⟩ := line
  cases side <;> rfl

theorem ne_both_of_flip {line : SignedLine} (hside : line.flip.1 ≠ .both) : line.1 ≠ .both := by
  intro hboth
  rw [flip, hboth] at hside
  exact hside rfl

end SignedLine

/-- The old lines among some signed ones. -/
def oldLines (lines : List SignedLine) : List Bytes :=
  lines.filterMap SignedLine.old?

/-- The new lines among some signed ones. -/
def newLines (lines : List SignedLine) : List Bytes :=
  lines.filterMap SignedLine.new?

@[simp]
theorem oldLines_append (first second : List SignedLine) :
    oldLines (first ++ second) = oldLines first ++ oldLines second :=
  List.filterMap_append

@[simp]
theorem newLines_append (first second : List SignedLine) :
    newLines (first ++ second) = newLines first ++ newLines second :=
  List.filterMap_append

theorem oldLines_flip (lines : List SignedLine) :
    oldLines (lines.map SignedLine.flip) = newLines lines := by
  rw [oldLines, List.filterMap_map]
  exact List.filterMap_congr fun line _ => line.old?_flip

theorem newLines_flip (lines : List SignedLine) :
    newLines (lines.map SignedLine.flip) = oldLines lines := by
  rw [newLines, List.filterMap_map]
  exact List.filterMap_congr fun line _ => line.new?_flip

/-- Lines on both sides are as many old ones as new ones, and the same. -/
theorem oldLines_eq_newLines {lines : List SignedLine}
    (hboth : ∀ line ∈ lines, line.1 = .both) : oldLines lines = newLines lines := by
  refine List.filterMap_congr fun line hline => ?_
  obtain ⟨side, content⟩ := line
  obtain rfl : side = .both := hboth _ hline
  rfl

/-- The section that shows the signed lines of a group. -/
def cutSection (lines : List SignedLine) (group : Group) : Section :=
  let earlier := lines.take group.first
  let shown := (lines.drop group.first).take (group.last + 1 - group.first)
  ⟨⟨(oldLines earlier).length, (oldLines shown).length⟩,
    ⟨(newLines earlier).length, (newLines shown).length⟩, shown⟩

theorem cutSection_flip (lines : List SignedLine) (group : Group) :
    (cutSection lines group).flip = cutSection (lines.map SignedLine.flip) group := by
  simp only [cutSection, Section.flip, ← List.map_drop, ← List.map_take, oldLines_flip,
    newLines_flip]
  rfl

theorem replaceLines_oldLines (lines : List SignedLine) (behind : List Bytes) :
    replaceLines lines (oldLines lines ++ behind) = some (newLines lines, behind) := by
  induction lines with
  | nil => rfl
  | cons line lines ih =>
    obtain ⟨side, content⟩ := line
    cases side with
    | both =>
      change replaceLines ((.both, content) :: lines)
        (content :: (oldLines lines ++ behind)) = _
      rw [replaceLines, if_pos rfl, ih]
      · rfl
      · decide
    | oldOnly =>
      change replaceLines ((.oldOnly, content) :: lines)
        (content :: (oldLines lines ++ behind)) = _
      rw [replaceLines, if_pos rfl, ih]
      · rfl
      · decide
    | newOnly =>
      change replaceLines ((.newOnly, content) :: lines) (oldLines lines ++ behind) = _
      rw [replaceLines, ih]
      rfl

/-- One section is carried out behind unchanged lines. -/
theorem replaceSections_cons {oldAt newAt : Nat} {gap shown : List SignedLine}
    {parts : List Section} {behind rest : List Bytes} (hgap : ∀ line ∈ gap, line.1 = .both)
    (hrest : replaceSections (oldAt + (oldLines gap).length + (oldLines shown).length)
      (newAt + (newLines gap).length + (newLines shown).length) parts behind = some rest) :
    replaceSections oldAt newAt
        (⟨⟨oldAt + (oldLines gap).length, (oldLines shown).length⟩,
          ⟨newAt + (newLines gap).length, (newLines shown).length⟩, shown⟩ :: parts)
        (oldLines gap ++ (oldLines shown ++ behind)) =
      some (newLines gap ++ (newLines shown ++ rest)) := by
  rw [replaceSections]
  simp only [Nat.add_sub_cancel_left]
  rw [if_pos ⟨Nat.le_add_right _ _, by simp, by rw [oldLines_eq_newLines hgap]⟩,
    List.drop_left, List.take_left, replaceLines_oldLines]
  simp only [Option.bind_eq_bind, Option.bind_some, hrest]
  rw [oldLines_eq_newLines hgap, List.append_assoc]

/-! ## Lines between positions -/

section Between

variable {start stop : Nat}

theorem take_append_between (hle : start ≤ stop) (lines : List SignedLine) :
    lines.take start ++ (lines.drop start).take (stop - start) = lines.take stop := by
  rw [← List.take_add, Nat.add_sub_cancel' hle]

theorem between_append_drop (hle : start ≤ stop) (lines : List SignedLine) :
    (lines.drop start).take (stop - start) ++ lines.drop stop = lines.drop start := by
  have hdrop : lines.drop stop = (lines.drop start).drop (stop - start) := by
    rw [List.drop_drop, Nat.add_sub_cancel' hle]
  rw [hdrop, List.take_append_drop]

theorem exists_position_of_mem_drop {lines : List SignedLine} {line : SignedLine}
    (hline : line ∈ lines.drop start) :
    ∃ position, start ≤ position ∧ lines[position]? = some line := by
  obtain ⟨index, hindex⟩ := List.mem_iff_getElem?.mp hline
  rw [List.getElem?_drop] at hindex
  exact ⟨start + index, Nat.le_add_right start index, hindex⟩

theorem exists_position_of_mem_between {lines : List SignedLine} {line : SignedLine}
    (hline : line ∈ (lines.drop start).take (stop - start)) :
    ∃ position, start ≤ position ∧ position < stop ∧ lines[position]? = some line := by
  obtain ⟨index, hlt, rfl⟩ := List.mem_take_iff_getElem.mp hline
  have hposition := List.getElem?_eq_getElem (Nat.lt_of_lt_of_le hlt (Nat.min_le_right _ _))
  rw [List.getElem?_drop] at hposition
  exact ⟨start + index, Nat.le_add_right start index, by omega, hposition⟩

end Between

/-- Sections cut out of signed lines lead from the old lines to the new ones, from any position
that no group begins before. -/
theorem replaceSections_cutSection (lines : List SignedLine) (groups : List Group) (reached : Nat)
    (hbegin : ∀ group ∈ groups, reached ≤ group.first)
    (hordered : groups.Pairwise fun earlier later => earlier.last < later.first)
    (hwithin : ∀ group ∈ groups, group.first ≤ group.last)
    (hboth : ∀ position line, reached ≤ position → lines[position]? = some line →
      (∀ group ∈ groups, group.first ≤ position → group.last < position) → line.1 = .both) :
    replaceSections (oldLines (lines.take reached)).length (newLines (lines.take reached)).length
        (groups.map (cutSection lines)) (oldLines (lines.drop reached)) =
      some (newLines (lines.drop reached)) := by
  induction groups generalizing reached with
  | nil =>
    rw [List.map_nil, replaceSections, oldLines_eq_newLines]
    intro line hline
    obtain ⟨position, hle, hposition⟩ := exists_position_of_mem_drop hline
    exact hboth position line hle hposition (List.forall_mem_nil _)
  | cons group groups ih =>
    rw [List.forall_mem_cons] at hbegin hwithin
    rw [List.pairwise_cons] at hordered
    have hgap : ∀ line ∈ (lines.drop reached).take (group.first - reached), line.1 = .both := by
      intro line hline
      obtain ⟨position, hle, hlt, hposition⟩ := exists_position_of_mem_between hline
      refine hboth position line hle hposition ?_
      rw [List.forall_mem_cons]
      refine ⟨by omega, fun later hlater hshown => ?_⟩
      have hafter := hordered.1 later hlater
      omega
    have hrest := ih (group.last + 1) hordered.1 hordered.2 hwithin.2 (by
      intro position line hle hline hothers
      refine hboth position line (by omega) hline ?_
      rw [List.forall_mem_cons]
      exact ⟨fun _ => hle, hothers⟩)
    have hshown : group.first ≤ group.last + 1 := Nat.le_succ_of_le hwithin.1
    rw [← take_append_between hshown, ← take_append_between hbegin.1] at hrest
    rw [← between_append_drop hbegin.1, ← between_append_drop hshown, List.map_cons, cutSection,
      ← take_append_between hbegin.1]
    simp only [oldLines_append, newLines_append, List.length_append] at hrest ⊢
    exact replaceSections_cons hgap hrest

end Diff

end Patchwork
