import Patchwork.Proofs.Diff.Groups
import Patchwork.Proofs.Diff.Reading
import Patchwork.Proofs.Diff.Script

/-!
# Unified diffs are read back

The sections of a diff are cut out of its script, so they lead from the lines of the old content
to those of the new one and, turned round, back again.  Main statement: `unified_roundTrip`.
-/

namespace Patchwork

namespace Diff

open Bytes

/-! ## The sections of a script -/

section Sections

variable (old new : List Bytes)

/-- The signed line that shows an edit. -/
def Edit.signedLine : Edit → SignedLine
  | .keep oldIndex _ => (.both, old[oldIndex]?.getD [])
  | .delete oldIndex => (.oldOnly, old[oldIndex]?.getD [])
  | .insert newIndex => (.newOnly, new[newIndex]?.getD [])

/-- The sections of the diff that shows a script. -/
def sections (context : Nat) (edits : List Edit) : List Section :=
  (groups context edits).map (cutSection (edits.map (Edit.signedLine old new)))

theorem formatEdit_eq (edit : Edit) :
    formatEdit old.toArray new.toArray edit = (edit.signedLine old new).printed.flatten := by
  rw [SignedLine.flatten_printed]
  cases edit <;> simp only [formatEdit, Edit.signedLine, List.getElem?_toArray] <;> rfl

theorem oldCount_eq (edits : List Edit) :
    Edit.oldCount edits = (oldLines (edits.map (Edit.signedLine old new))).length := by
  rw [oldLines, List.length_filterMap_eq_countP, List.countP_map]
  refine List.countP_congr fun edit _ => ?_
  cases edit <;> simp [Edit.oldIndex?, Edit.signedLine, SignedLine.old?]

theorem newCount_eq (edits : List Edit) :
    Edit.newCount edits = (newLines (edits.map (Edit.signedLine old new))).length := by
  rw [newLines, List.length_filterMap_eq_countP, List.countP_map]
  refine List.countP_congr fun edit _ => ?_
  cases edit <;> simp [Edit.newIndex?, Edit.signedLine, SignedLine.new?]

theorem formatGroup_eq (edits : List Edit) (group : Group) :
    formatGroup old.toArray new.toArray edits group =
      (cutSection (edits.map (Edit.signedLine old new)) group).printed.flatten := by
  have hlines : ∀ shown : List Edit,
      shown.flatMap (formatEdit old.toArray new.toArray) =
        ((shown.map (Edit.signedLine old new)).flatMap SignedLine.printed).flatten := by
    intro shown
    induction shown with
    | nil => rfl
    | cons edit shown ih =>
      rw [List.flatMap_cons, List.map_cons, List.flatMap_cons, List.flatten_append, ih,
        formatEdit_eq]
  simp only [formatGroup, Section.printed, Section.heading, cutSection, List.flatten_cons,
    ← List.map_drop, ← List.map_take, ← oldCount_eq, ← newCount_eq, hlines]

theorem flatMap_formatGroup_eq (edits : List Edit) (groups : List Group) :
    groups.flatMap (formatGroup old.toArray new.toArray edits) =
      ((groups.map (cutSection (edits.map (Edit.signedLine old new)))).flatMap
        Section.printed).flatten := by
  induction groups with
  | nil => rfl
  | cons group groups ih =>
    rw [List.flatMap_cons, List.map_cons, List.flatMap_cons, List.flatten_append, ih,
      formatGroup_eq]

theorem map_getD_range (lines : List Bytes) :
    (List.range lines.length).map (fun index => lines[index]?.getD []) = lines := by
  refine List.ext_getElem (by simp) fun index hindex _ => ?_
  rw [List.length_map, List.length_range] at hindex
  simp [hindex]

variable {old new} {edits : List Edit}

theorem oldLines_signedLine (hedits : IsScript old new edits) :
    oldLines (edits.map (Edit.signedLine old new)) = old := by
  have hlines : oldLines (edits.map (Edit.signedLine old new)) =
      (edits.filterMap Edit.oldIndex?).map fun index => old[index]?.getD [] := by
    rw [oldLines, List.filterMap_map, List.map_filterMap]
    refine List.filterMap_congr fun edit _ => ?_
    cases edit <;> rfl
  rw [hlines, hedits.oldIndices, map_getD_range]

theorem newLines_signedLine (hedits : IsScript old new edits) :
    newLines (edits.map (Edit.signedLine old new)) = new := by
  have hlines : newLines (edits.map (Edit.signedLine old new)) =
      (edits.filterMap Edit.newIndex?).map fun index => new[index]?.getD [] := by
    rw [newLines, List.filterMap_map, List.map_filterMap]
    refine List.filterMap_congr fun edit hedit => ?_
    cases edit with
    | keep oldIndex newIndex =>
      obtain ⟨line, hold, hnew⟩ := hedits.equal oldIndex newIndex hedit
      simp [Edit.signedLine, SignedLine.new?, Edit.newIndex?, hold, hnew]
    | delete => rfl
    | insert => rfl
  rw [hlines, hedits.newIndices, map_getD_range]

/-- Sections at the groups of a script lead from the old lines to the new ones, whichever way
the signed lines are read. -/
theorem replaceSections_groups (context : Nat) (edits : List Edit) (lines : List SignedLine)
    (hlines : ∀ (position : Nat) (line : SignedLine), lines[position]? = some line →
      line.1 ≠ .both → ∃ edit, edits[position]? = some edit ∧ edit.isChange = true) :
    replaceSections 0 0 ((groups context edits).map (cutSection lines)) (oldLines lines) =
      some (newLines lines) := by
  obtain ⟨hordered, hwithin, hshown⟩ := groups_showChanges context edits
  have hcut := replaceSections_cutSection lines (groups context edits) 0
    (fun _ _ => Nat.zero_le _) hordered (fun group hgroup => (hwithin group hgroup).1)
  rw [List.drop_zero] at hcut
  refine hcut fun position line _ hline houtside => ?_
  by_contra hboth
  obtain ⟨edit, hedit, hchange⟩ := hlines position line hline hboth
  obtain ⟨group, hgroup, hle, hge⟩ := hshown position edit hedit hchange
  exact absurd (houtside group hgroup hle) (Nat.not_lt.mpr hge)

theorem isChange_of_ne_both {edit : Edit} (hside : (edit.signedLine old new).1 ≠ .both) :
    edit.isChange = true := by
  cases edit with
  | keep => exact absurd rfl hside
  | delete => rfl
  | insert => rfl

theorem replaceSections_sections (context : Nat) (hedits : IsScript old new edits) :
    replaceSections 0 0 (sections old new context edits) old = some new := by
  have hreplace := replaceSections_groups context edits
    (edits.map (Edit.signedLine old new)) fun position line hline hside => by
      rw [List.getElem?_map, Option.map_eq_some_iff] at hline
      obtain ⟨edit, hedit, rfl⟩ := hline
      exact ⟨edit, hedit, isChange_of_ne_both hside⟩
  rwa [oldLines_signedLine hedits, newLines_signedLine hedits] at hreplace

theorem replaceSections_flip_sections (context : Nat) (hedits : IsScript old new edits) :
    replaceSections 0 0 ((sections old new context edits).map Section.flip) new = some old := by
  have hflip : (sections old new context edits).map Section.flip = (groups context edits).map
      (cutSection ((edits.map (Edit.signedLine old new)).map SignedLine.flip)) := by
    rw [sections, List.map_map]
    exact List.map_congr_left fun group _ => cutSection_flip _ group
  have hreplace := replaceSections_groups context edits
    ((edits.map (Edit.signedLine old new)).map SignedLine.flip) fun position line hline hside => by
      rw [List.getElem?_map, List.getElem?_map, Option.map_map, Option.map_eq_some_iff] at hline
      obtain ⟨edit, hedit, rfl⟩ := hline
      exact ⟨edit, hedit, isChange_of_ne_both (SignedLine.ne_both_of_flip hside)⟩
  rw [oldLines_flip, newLines_flip, oldLines_signedLine hedits, newLines_signedLine hedits]
    at hreplace
  rw [hflip, hreplace]

/-! ## Reading a diff -/

theorem counted_of_mem_sections {context : Nat} {part : Section}
    (hpart : part ∈ sections old new context edits) : part.Counted := by
  rw [sections, List.mem_map] at hpart
  obtain ⟨group, -, rfl⟩ := hpart
  exact ⟨rfl, rfl⟩

/-- A line feed stands at the end of a line only. -/
def NewlineLast (lines : List Bytes) : Prop :=
  ∀ line ∈ lines, newline ∉ line.dropLast

theorem NewlineLast.getD {lines : List Bytes} (hlines : NewlineLast lines) (index : Nat) :
    newline ∉ (lines[index]?.getD []).dropLast := by
  cases hline : lines[index]? with
  | none => exact List.not_mem_nil
  | some line => exact hlines line (List.mem_of_getElem? hline)

theorem ended_of_mem_printed {context : Nat} (hold : NewlineLast old) (hnew : NewlineLast new) :
    ∀ line ∈ (sections old new context edits).flatMap Section.printed, Lines.Ended line := by
  intro line hline
  obtain ⟨part, hpart, hline⟩ := List.mem_flatMap.mp hline
  rw [sections, List.mem_map] at hpart
  obtain ⟨group, -, rfl⟩ := hpart
  rw [Section.printed, List.mem_cons] at hline
  rcases hline with rfl | hline
  · exact Section.ended_heading _
  · obtain ⟨signed, hsigned, hline⟩ := List.mem_flatMap.mp hline
    have hmem := List.mem_of_mem_drop (List.mem_of_mem_take hsigned)
    obtain ⟨edit, -, rfl⟩ := List.mem_map.mp hmem
    refine SignedLine.ended_printed _ ?_ line hline
    cases edit with
    | keep oldIndex _ => exact hold.getD oldIndex
    | delete oldIndex => exact hold.getD oldIndex
    | insert newIndex => exact hnew.getD newIndex

end Sections

/-! ## The round trip -/

section RoundTrip

variable {oldName newName oldContent newContent : Bytes}

theorem ended_name {opening name : Bytes} (hopening : newline ∉ opening)
    (hname : newline ∉ name) : Lines.Ended (opening ++ name ++ [newline]) := by
  refine ⟨opening ++ name, ?_, rfl⟩
  rw [List.mem_append, not_or]
  exact ⟨hopening, hname⟩

/-- The lines of a diff: those with the names and those of its sections. -/
def diffLines (oldName newName : Bytes) (parts : List Section) : List Bytes :=
  (text "--- " ++ oldName ++ [newline]) :: (text "+++ " ++ newName ++ [newline]) ::
    parts.flatMap Section.printed

theorem unified_of_ne (hne : oldContent ≠ newContent) (context : Int) :
    unified oldName newName oldContent newContent context =
      (diffLines oldName newName (sections (Lines.withEnds oldContent)
        (Lines.withEnds newContent) context.toNat
        (script (Lines.withEnds oldContent) (Lines.withEnds newContent)))).flatten := by
  rw [unified, if_neg hne]
  generalize Lines.withEnds oldContent = old
  generalize Lines.withEnds newContent = new
  simp only []
  generalize script old new = edits
  have hsections := flatMap_formatGroup_eq old new edits (groups context.toNat edits)
  have hplus : text "\n+++ " = newline :: text "+++ " := rfl
  have hend : text "\n" = [newline] := rfl
  rw [hsections, hplus, hend, diffLines, sections]
  simp only [List.flatten_cons, List.append_assoc, List.cons_append, List.nil_append]

theorem read?_diffLines (holdName : newline ∉ oldName) (hnewName : newline ∉ newName)
    {parts : List Section} (hcounted : ∀ part ∈ parts, part.Counted)
    (hended : ∀ line ∈ parts.flatMap Section.printed, Lines.Ended line) :
    read? (diffLines oldName newName parts).flatten = some parts := by
  rw [read?, Lines.withEnds_flatten, diffLines]
  · simp only [List.append_assoc, List.isPrefixOf_iff_prefix, List.prefix_append, and_self,
      if_true]
    exact Section.readSections_printed parts hcounted _ (Section.length_le_length_printed parts)
  · rw [diffLines, List.forall_mem_cons, List.forall_mem_cons]
    exact ⟨ended_name (by decide) holdName, ended_name (by decide) hnewName, hended⟩

/-- A diff of different contents is read as the sections of its script. -/
theorem read?_unified (holdName : newline ∉ oldName) (hnewName : newline ∉ newName)
    (hne : oldContent ≠ newContent) (context : Int) :
    read? (unified oldName newName oldContent newContent context) =
      some (sections (Lines.withEnds oldContent) (Lines.withEnds newContent) context.toNat
        (script (Lines.withEnds oldContent) (Lines.withEnds newContent))) := by
  rw [unified_of_ne hne]
  refine read?_diffLines holdName hnewName (fun part => counted_of_mem_sections) ?_
  exact ended_of_mem_printed (fun line hline => Lines.newline_notMem_dropLast hline)
    (fun line hline => Lines.newline_notMem_dropLast hline)

/-- A diff is empty just for equal contents; else it leads from the old content to the new one
and back. -/
theorem unified_roundTrip (oldName newName oldContent newContent : Bytes) (context : Int)
    (holdName : newline ∉ oldName) (hnewName : newline ∉ newName) :
    (unified oldName newName oldContent newContent context = [] ↔ oldContent = newContent) ∧
      (oldContent ≠ newContent →
        applyTo (unified oldName newName oldContent newContent context) oldContent =
            some newContent ∧
          revertFrom (unified oldName newName oldContent newContent context) newContent =
            some oldContent) := by
  refine ⟨⟨fun hempty => ?_, fun heq => if_pos heq⟩, fun hne => ?_⟩
  · by_contra hne
    have hread := read?_unified holdName hnewName hne context
    rw [hempty] at hread
    cases hread
  · have hscript := script_complete (Lines.withEnds oldContent) (Lines.withEnds newContent)
    have hread := read?_unified holdName hnewName hne context
    rw [applyTo, revertFrom, hread]
    simp only [Option.bind_eq_bind, Option.bind_some]
    rw [replaceSections_sections context.toNat hscript,
      replaceSections_flip_sections context.toNat hscript]
    simp only [Option.bind_some, Lines.flatten_withEnds, and_self]

/-- A line changed, and the line feed behind it lost. -/
theorem unified_roundTrip_missingEnd :
    newline ∉ text "a/file" ∧ newline ∉ text "b/file" ∧ text "one\ntwo\n" ≠ text "one\n2" ∧
      unified (text "a/file") (text "b/file") (text "one\ntwo\n") (text "one\n2") 3 =
        text ("--- a/file\n+++ b/file\n@@ -1,2 +1,2 @@\n one\n-two\n+2\n" ++
          "\\ No newline at end of file\n") ∧
      applyTo (unified (text "a/file") (text "b/file") (text "one\ntwo\n") (text "one\n2") 3)
        (text "one\ntwo\n") = some (text "one\n2") ∧
      revertFrom (unified (text "a/file") (text "b/file") (text "one\ntwo\n") (text "one\n2") 3)
        (text "one\n2") = some (text "one\ntwo\n") :=
  ⟨by decide, by decide, by decide, by decide +kernel,
    (unified_roundTrip (text "a/file") (text "b/file") (text "one\ntwo\n") (text "one\n2") 3
      (by decide) (by decide)).2 (by decide)⟩

end RoundTrip

end Diff

end Patchwork
