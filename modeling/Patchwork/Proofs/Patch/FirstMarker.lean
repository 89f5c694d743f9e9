import Patchwork.Proofs.Patch.ErasedLine

/-!
# Leaving out the first marker

The marker that begins the first chunk of an update may be left out where the line behind it is not
taken for something else when nothing stands in front of it: for a line between chunks, for a marker,
or for the line of a move.  Otherwise the text is not read as the same patch without the marker.
Main statement: `Patch.parse_erase_marker`.
-/

namespace Patchwork

open Bytes (trim newline)

namespace Chunk

/-! ## The size of a chunk -/

/-- How many lines a chunk has on both sides. -/
def size (chunk : Chunk) : Nat :=
  chunk.oldLines.length + chunk.newLines.length

/-- How many lines of the file, before and afterwards, some lines are about. -/
def sides (changes : List Bytes) : Nat :=
  changes.countP (·.head? ≠ some LineKind.additionSign) +
    changes.countP (·.head? ≠ some LineKind.removalSign)

variable {first : Bool} {line change : Bytes} {changes more behind tail : List Bytes}
  {layout : Layout} {anchor : Option Bytes}

theorem Layout.size_chunk (layout : Layout) : layout.chunk.size = sides layout.changes := by
  simp only [size, Layout.chunk, List.length_map, ← List.countP_eq_length_filter]
  rfl

theorem sides_le_of_suffix (hsuffix : changes <:+ more) : sides changes ≤ sides more :=
  Nat.add_le_add (hsuffix.sublist.countP_le) (hsuffix.sublist.countP_le)

/-- No line is about neither side. -/
theorem sides_lt_cons (line : Bytes) (changes : List Bytes) :
    sides changes < sides (line :: changes) := by
  rw [sides, sides, List.countP_cons, List.countP_cons]
  split_ifs with hold hnew hnew
  · omega
  · omega
  · omega
  · rw [decide_eq_true_iff, not_not] at hold hnew
    rw [hold] at hnew
    cases hnew

/-! ## Chunks that begin at the same line -/

/-- The line is not read as the first one of a chunk where no marker stands in front of it.  Behind
a line that moves the file no other is taken for one. -/
def Misleads (move : Option (Bytes × Bytes)) (line : Bytes) : Prop :=
  trim line = [] ∨ (∃ anchor, Marks anchor line) ∨ (move = none ∧ Marker.moveTo <+: trim line)

/-- A line that is added or removed looks like nothing else. -/
theorem not_misleads_of_sign {move : Option (Bytes × Bytes)}
    (hsign : line.head? = some LineKind.additionSign ∨ line.head? = some LineKind.removalSign) :
    ¬ Misleads move line := by
  have hhead : (trim line).head? = line.head? ∧ line.head? ≠ some 64 ∧ line.head? ≠ some 42 := by
    rcases hsign with hsign | hsign <;> rw [hsign]
    all_goals
      obtain ⟨rest, rfl⟩ := List.head?_eq_some_iff.mp hsign
      exact ⟨Bytes.head?_trim_cons rfl rest, by decide, by decide⟩
  rintro (hempty | ⟨anchor, hmarks⟩ | ⟨-, behind, hmove⟩)
  · rw [hempty] at hhead
    rw [← hhead.1] at hsign
    rcases hsign with hsign | hsign <;> cases hsign
  · exact hhead.2.1 (hhead.1.symm.trans hmarks.head?_trim)
  · rw [← hmove] at hhead
    exact hhead.2.2 hhead.1.symm

/-- Where a run of lines about lines of the file stands, a chunk has all of them, or all but the
first one if that is its marker. -/
theorem Layout.Fits.changes_eq (hfits : layout.Fits first behind)
    (hchanges : ∀ line ∈ change :: changes, isChange line = true)
    (hlongest : ∀ line ∈ tail.head?, ¬ isChange line = true)
    (hlines : layout.lines ++ behind = change :: (changes ++ tail)) :
    (layout.marker = none ∧ layout.changes = change :: changes) ∨
      ∃ anchor, layout.marker = some (change, anchor) ∧ layout.changes = changes := by
  cases hmarker : layout.marker with
  | none =>
    rw [Layout.lines, hmarker, Option.map_none, Option.toList_none, List.nil_append,
      List.append_assoc, ← List.cons_append] at hlines
    refine .inl ⟨rfl, ?_⟩
    rw [← takeWhile_run hfits.changes hfits.longest, hlines, takeWhile_run hchanges hlongest]
  | some marker =>
    obtain ⟨line, anchor⟩ := marker
    rw [Layout.lines, hmarker, Option.map_some, Option.toList_some, List.singleton_append,
      List.cons_append, List.append_assoc] at hlines
    obtain ⟨rfl, hbehind⟩ := List.cons.inj hlines
    rw [List.forall_mem_cons] at hchanges
    refine .inr ⟨anchor, rfl, ?_⟩
    rw [← takeWhile_run hfits.changes hfits.longest, hbehind, takeWhile_run hchanges.2 hlongest]

theorem Layout.Fits.changes_suffix (hfits : layout.Fits first behind)
    (hchanges : ∀ line ∈ change :: changes, isChange line = true)
    (hlongest : ∀ line ∈ tail.head?, ¬ isChange line = true)
    (hlines : layout.lines ++ behind = change :: (changes ++ tail)) :
    layout.changes <:+ change :: changes := by
  rcases hfits.changes_eq hchanges hlongest hlines with ⟨-, hall⟩ | ⟨-, -, hbut⟩
  · rw [hall]
  · rw [hbut]
    exact List.suffix_cons change changes

/-- No chunk begins with a mark of the end of the file. -/
theorem Layout.Fits.trim_ne_endOfFile (hfits : layout.Fits first behind)
    (hlines : layout.lines ++ behind = line :: tail) : trim line ≠ Marker.endOfFile := by
  intro hmark
  cases hmarker : layout.marker with
  | none =>
    obtain ⟨change, changes, hchanges⟩ := List.exists_cons_of_ne_nil hfits.nonempty
    rw [Layout.lines, hmarker, hchanges] at hlines
    obtain ⟨rfl, -⟩ := List.cons.inj hlines
    have hchange := hfits.changes change (hchanges ▸ List.mem_cons_self)
    rw [isChange, hmark] at hchange
    cases hchange
  | some marker =>
    obtain ⟨first, anchor⟩ := marker
    rw [Layout.lines, hmarker] at hlines
    obtain ⟨rfl, -⟩ := List.cons.inj hlines
    have hhead := (hfits.marker first anchor hmarker).head?_trim
    rw [hmark] at hhead
    exact absurd hhead (by decide)

/-- Chunks behind the first one have a marker, so it does not matter whether they are the first. -/
theorem Layout.Fits.anywhere (hfits : layout.Fits false behind) (first : Bool) :
    layout.Fits first behind where
  marker := hfits.marker
  unmarked hnone := by
    obtain ⟨hfalse, -⟩ := hfits.unmarked hnone
    cases hfalse
  nonempty := hfits.nonempty
  changes := hfits.changes
  longest := hfits.longest
  endMark := hfits.endMark

end Chunk

namespace Hunk

namespace Part

variable {parts others : List Part} {behind rest changes : List Bytes} {endMark : Option Bytes}
  {chunk : Chunk} {first marker : Bytes}

theorem Fit.anywhere (hfit : Fit false parts behind) (first : Bool) : Fit first parts behind := by
  induction parts with
  | nil => exact hfit
  | cons part parts ih =>
    cases part with
    | separator blank => exact ⟨hfit.1, ih hfit.2⟩
    | chunk layout => exact ⟨hfit.1.anywhere first, hfit.2⟩

/-- No part begins with a mark of the end of the file. -/
theorem Fit.eq_nil_of_endMark {mark : Bytes} {tail : List Bytes} {isFirst : Bool}
    (hfit : Fit isFirst parts behind)
    (hmark : trim mark = Marker.endOfFile) (hlines : parts.flatMap lines ++ behind = mark :: tail) :
    parts = [] := by
  cases parts with
  | nil => rfl
  | cons part parts =>
    cases part with
    | separator blank =>
      obtain ⟨rfl, -⟩ := List.cons.inj hlines
      rw [hfit.1] at hmark
      exact absurd hmark (by decide)
    | chunk layout =>
      rw [List.flatMap_cons, List.append_assoc] at hlines
      exact absurd hmark (hfit.1.trim_ne_endOfFile hlines)

/-- Lines about lines of the file, with what stands behind them, are not read as a chunk that has
more of these lines and the same chunks behind it. -/
theorem Fit.chunks_ne (hfit : Fit true others rest)
    (hrest : ∀ line ∈ rest.head?, trim line ≠ Marker.endOfFile)
    (hparts : Fit false parts behind)
    (hbehind : ∀ line ∈ behind.head?, trim line ≠ Marker.endOfFile)
    (hchanges : ∀ line ∈ changes, Chunk.isChange line = true)
    (hlongest : ∀ line ∈ (endMark.toList ++ (parts.flatMap lines ++ behind)).head?,
      ¬ Chunk.isChange line = true)
    (hendMark : ∀ line ∈ endMark, trim line = Marker.endOfFile)
    (hlines : others.flatMap lines ++ rest =
      changes ++ (endMark.toList ++ (parts.flatMap lines ++ behind)))
    (hsize : Chunk.sides changes < chunk.size) :
    others.filterMap chunk? ≠ chunk :: parts.filterMap chunk? := by
  induction changes generalizing others with
  | nil =>
    intro hsame
    cases endMark with
    | none =>
      -- the same lines are read as the same chunks
      have hread := readAll_parts hfit hrest 0
      rw [hlines, List.nil_append, Option.toList_none, List.nil_append,
        readAll_parts (hparts.anywhere true) hbehind 0, hsame] at hread
      have hlength := congrArg List.length (Prod.mk.inj (Except.ok.inj hread)).1
      rw [List.length_cons] at hlength
      omega
    | some mark =>
      obtain rfl := hfit.eq_nil_of_endMark (hendMark mark rfl) hlines
      cases hsame
  | cons change changes ih =>
    cases others with
    | nil => rintro ⟨⟩
    | cons part others =>
      cases part with
      | separator blank =>
        obtain ⟨-, hlines⟩ := List.cons.inj hlines
        rw [List.forall_mem_cons] at hchanges
        have hne := ih hfit.2 hchanges.2 hlines ((Chunk.sides_lt_cons change changes).trans hsize)
        exact hne
      | chunk layout =>
        intro hsame
        obtain ⟨rfl, -⟩ := List.cons.inj hsame
        rw [Chunk.Layout.size_chunk] at hsize
        rw [List.flatMap_cons, List.append_assoc] at hlines
        have hsuffix := hfit.1.changes_suffix hchanges hlongest hlines
        exact absurd (Chunk.sides_le_of_suffix hsuffix) (Nat.not_le_of_lt hsize)

theorem flatMap_lines_chunk (layout : Chunk.Layout) (parts : List Part) (behind : List Bytes) :
    (Part.chunk layout :: parts).flatMap lines ++ behind =
      (layout.marker.map Prod.fst).toList ++ (layout.changes ++
        (layout.endMark.toList ++ (parts.flatMap lines ++ behind))) := by
  rw [List.flatMap_cons, lines, Chunk.Layout.lines]
  simp only [List.append_assoc]

/-- Where the lines of a chunk are read as the same chunk without the marker in front of them, the
first one looks like no separator and no marker. -/
theorem Fit.not_misleading (hfit : Fit true others rest)
    (hrest : ∀ line ∈ rest.head?, trim line ≠ Marker.endOfFile)
    (hparts : Fit false parts behind)
    (hbehind : ∀ line ∈ behind.head?, trim line ≠ Marker.endOfFile)
    (hfits : (⟨some (marker, none), first :: changes, endMark⟩ : Chunk.Layout).Fits true
      (parts.flatMap lines ++ behind))
    (hlines : others.flatMap lines ++ rest =
      first :: (changes ++ (endMark.toList ++ (parts.flatMap lines ++ behind))))
    (hchunks : others.filterMap chunk? =
      Chunk.Layout.chunk ⟨none, first :: changes, endMark⟩ :: parts.filterMap chunk?) :
    trim first ≠ [] ∧ ∀ anchor, ¬ Chunk.Marks anchor first := by
  have hlarger : Chunk.sides changes <
      (Chunk.Layout.chunk ⟨none, first :: changes, endMark⟩).size := by
    rw [Chunk.Layout.size_chunk]
    exact Chunk.sides_lt_cons first changes
  cases others with
  | nil => cases hchunks
  | cons part others =>
    cases part with
    | separator blank =>
      have hchanges := List.forall_mem_cons.mp hfits.changes
      obtain ⟨-, hlines⟩ := List.cons.inj hlines
      exact absurd hchunks (hfit.2.chunks_ne hrest hparts hbehind hchanges.2 hfits.longest
        hfits.endMark hlines hlarger)
    | chunk layout =>
      rw [List.flatMap_cons, List.append_assoc] at hlines
      rcases hfit.1.changes_eq hfits.changes hfits.longest hlines with ⟨hnone, hall⟩ | ⟨-, -, hbut⟩
      · exact (hfit.1.unmarked hnone).2 first (hall ▸ rfl)
      · rw [← (List.cons.inj hchunks).1, Chunk.Layout.size_chunk, hbut] at hlarger
        exact absurd hlarger (Nat.lt_irrefl _)

end Part

variable {number : Nat} {header path first marker line : Bytes} {changes lines behind : List Bytes}
  {move : Option (Bytes × Bytes)} {endMark : Option Bytes} {parts : List Part}
  {above below layouts rest : List Layout} {hunk : Hunk} {hunks : List Hunk}

theorem Layout.flatMap_lines_update (header path : Bytes) (move : Option (Bytes × Bytes))
    (parts : List Part) (below : List Layout) :
    (Layout.update header path move parts :: below).flatMap Layout.lines =
      header :: ((move.map Prod.fst).toList ++
        (parts.flatMap Part.lines ++ below.flatMap Layout.lines)) := by
  rw [List.flatMap_cons, Layout.lines, List.cons_append, List.append_assoc]

theorem Layout.Fits.without_marker
    (hfits : (Layout.update header path move
      (.chunk ⟨some (marker, none), first :: changes, endMark⟩ :: parts)).Fits behind)
    (hplain : ¬ Chunk.Misleads move first) :
    (Layout.update header path move
      (.chunk ⟨none, first :: changes, endMark⟩ :: parts)).Fits behind := by
  obtain ⟨hheader, hmoved, -, ⟨hchunk, hparts⟩, -⟩ := hfits
  rw [Chunk.Misleads, not_or, not_or, not_exists] at hplain
  refine ⟨hheader, hmoved, fun hnone line hline => ?_, ⟨?_, hparts⟩, _, List.mem_cons_self⟩
  · obtain rfl : first = line := Option.some.inj hline
    exact fun hmove => hplain.2.2 ⟨hnone, hmove⟩
  · exact {
      marker := by rintro _ _ ⟨⟩
      unmarked := fun _ => by
        refine ⟨rfl, fun line hline => ?_⟩
        obtain rfl : first = line := Option.some.inj hline
        exact ⟨hplain.1, hplain.2.1⟩
      nonempty := hchunk.nonempty
      changes := hchunk.changes
      longest := hchunk.longest
      endMark := hchunk.endMark }

/-- An update is read as before without the marker of its first chunk exactly if the line behind it
does not mislead. -/
theorem readAll_without_marker_iff
    (hfit : Layout.Fit (.update header path move
      (.chunk ⟨some (marker, none), first :: changes, endMark⟩ :: parts) :: below)) :
    readAll number ((Layout.update header path move
        (.chunk ⟨none, first :: changes, endMark⟩ :: parts) :: below).flatMap Layout.lines) =
      .ok ((Layout.update header path move
        (.chunk ⟨some (marker, none), first :: changes, endMark⟩ :: parts) :: below).map
          Layout.hunk) ↔
      ¬ Chunk.Misleads move first := by
  rw [readAll_eq_ok_iff]
  constructor
  · rintro ⟨layouts, hlines, hlayouts, hhunks⟩
    obtain ⟨other, others, rfl, hhunk, -⟩ := List.map_eq_cons_iff.mp hhunks
    cases other with
    | add => cases hhunk
    | delete => cases hhunk
    | update otherHeader otherPath otherMove otherParts =>
      obtain ⟨-, hmove, hchunks⟩ := Hunk.update.inj hhunk
      obtain ⟨-, -, hunmoved, hotherParts, -⟩ := hlayouts.1
      obtain ⟨-, -, -, ⟨hchunk, hparts⟩, -⟩ := hfit.1
      rw [Layout.flatMap_lines_update, Layout.flatMap_lines_update, Part.flatMap_lines_chunk] at hlines
      obtain ⟨-, hlines⟩ := List.cons.inj hlines
      -- both or neither of the updates move the file
      have hmoves : (move.map Prod.fst).toList.length = (otherMove.map Prod.fst).toList.length := by
        cases move <;> cases otherMove <;> first | rfl | cases hmove
      obtain ⟨-, hbehind⟩ := List.append_inj hlines hmoves
      obtain ⟨hblank, hmarks⟩ := hotherParts.not_misleading hlayouts.2.unmarked hparts
        hfit.2.unmarked hchunk hbehind.symm hchunks
      rintro (hempty | ⟨anchor, hmarked⟩ | ⟨rfl, hmoved⟩)
      · exact hblank hempty
      · exact hmarks anchor hmarked
      · refine hunmoved (Option.map_eq_none_iff.mp hmove) first ?_ hmoved
        rw [← hbehind]
        rfl
  · intro hplain
    exact ⟨_, rfl, ⟨hfit.1.without_marker hplain, hfit.2⟩, rfl⟩

/-! ## Hunks above -/

/-- Whether lines are read as hunks does not depend on the number of the first one. -/
theorem readAll_ok_number (hread : readAll number lines = .ok hunks) (other : Nat) :
    readAll other lines = .ok hunks := by
  rw [readAll_eq_ok_iff] at hread ⊢
  exact hread

theorem readAll_cons_iff (hread : read number line lines = .ok (hunk, behind)) :
    readAll number (line :: lines) = .ok (hunk :: hunks) ↔ readAll number behind = .ok hunks := by
  constructor
  · intro hall
    rw [readAll] at hall
    split at hall
    · cases hall
    · rename_i found left hfound
      rw [hread] at hfound
      obtain ⟨rfl, rfl⟩ := Prod.mk.inj (Except.ok.inj hfound)
      cases hrest : readAll (number + ((line :: lines).length - behind.length)) behind with
      | error problem =>
        rw [hrest] at hall
        cases hall
      | ok others =>
        rw [hrest] at hall
        obtain ⟨-, rfl⟩ := List.cons.inj (Except.ok.inj hall)
        exact readAll_ok_number hrest number
  · exact fun hrest => readAll_of_read hread (readAll_ok_number hrest)

theorem Layout.Fit.of_append (hfit : Layout.Fit (above ++ layouts)) : Layout.Fit layouts := by
  induction above with
  | nil => exact hfit
  | cons layout above ih => exact ih hfit.2

/-- The hunks above are read whatever stands behind them, if it begins with the same line. -/
theorem readAll_behind_iff (hfit : Layout.Fit (above ++ layouts))
    (halike : lines.head? = (layouts.flatMap Layout.lines).head?) :
    readAll number (above.flatMap Layout.lines ++ lines) = .ok (above.map Layout.hunk ++ hunks) ↔
      readAll number lines = .ok hunks := by
  induction above with
  | nil => rfl
  | cons layout above ih =>
    obtain ⟨hfits, hrest⟩ := hfit
    obtain ⟨header, body, hlines, hread⟩ := read_layout hfits hrest.unmarked
    obtain ⟨taken, htaken, hlocal⟩ := read_local (hread number)
    obtain rfl := List.append_cancel_right htaken
    have hbegin : Lines.BeginLike (above.flatMap Layout.lines ++ lines)
        ((above ++ layouts).flatMap Layout.lines) := by
      rw [List.flatMap_append]
      exact (Lines.beginLike_of_head? halike).append _
    rw [List.flatMap_cons, hlines, List.append_assoc, List.cons_append, List.map_cons,
      List.cons_append, readAll_cons_iff (hlocal _ hbegin number), ih hrest]

end Hunk

/-! ## Texts -/

namespace Envelope

variable {lines body : List Bytes}

/-- How many lines stand above the body. -/
def openingLines (lines : List Bytes) : Nat :=
  if isHeredoc lines then 2 else 1

/-- Whatever stands around one body may stand around another. -/
theorem Encloses.exists_frame (hencloses : Encloses body lines) :
    ∃ opening closing, lines = opening ++ (body ++ closing) ∧
      opening.length = openingLines lines ∧ closing ≠ [] ∧
      ∀ other, Encloses other (opening ++ (other ++ closing)) := by
  rcases hencloses with hdelimits | ⟨opener, inner, closer, rfl, hopener, hcloser, hdelimits⟩
  · have hplain : ¬ isHeredoc lines = true := by
      intro hheredoc
      obtain ⟨-, opener, inner, closer, rfl, hopener, -⟩ := isHeredoc_iff.mp hheredoc
      exact not_delimits_of_opener hopener hdelimits
    obtain ⟨first, last, rfl, hbegin, hend⟩ := hdelimits
    exact ⟨[first], [last], rfl, (if_neg hplain).symm, List.cons_ne_nil _ _,
      fun other => .inl ⟨first, last, rfl, hbegin, hend⟩⟩
  · have hheredoc : isHeredoc (opener :: (inner ++ [closer])) = true := by
      refine isHeredoc_iff.mpr ⟨?_, opener, inner, closer, rfl, hopener, hcloser⟩
      obtain ⟨first, last, rfl, -, -⟩ := hdelimits
      simp
    obtain ⟨first, last, rfl, hbegin, hend⟩ := hdelimits
    refine ⟨[opener, first], [last, closer], by simp, (if_pos hheredoc).symm, List.cons_ne_nil _ _,
      fun other => .inr ⟨opener, first :: (other ++ [last]), closer, by simp, hopener, hcloser, ?_⟩⟩
    exact ⟨first, last, rfl, hbegin, hend⟩

end Envelope

namespace Patch

open Hunk (Layout Part)

variable {source : Bytes} {above below : List Layout} {header path marker first : Bytes}
  {move : Option (Bytes × Bytes)} {changes : List Bytes} {endMark : Option Bytes} {parts : List Part}

/-- How many lines of a text stand above the first chunk of an update, behind the given hunks. -/
def linesAbove (source : Bytes) (above : List Layout) (move : Option (Bytes × Bytes)) : Nat :=
  Lines.skipped source + (Envelope.openingLines (Lines.ofPatch (trim source)) +
    (above.flatMap Layout.lines).length + 1 + move.toList.length)

/-- Where an update begins with a chunk behind a plain marker, the text without the line of the marker
is read as the same patch exactly if the line behind it does not mislead, so in particular if that is
a line that is added or removed. -/
theorem parse_erase_marker (hlaidOut : LaidOut (above ++ .update header path move
      (.chunk ⟨some (marker, none), first :: changes, endMark⟩ :: parts) :: below) source) :
    ∃ patch, parse source = .ok patch ∧
      (Bytes.splitAt newline source)[linesAbove source above move]?.map trim = some Marker.chunk ∧
      (parse (Lines.erase (linesAbove source above move) source) = .ok patch ↔
        ¬ Chunk.Misleads move first) ∧
      (first.head? = some LineKind.additionSign ∨ first.head? = some LineKind.removalSign →
        parse (Lines.erase (linesAbove source above move) source) = .ok patch) := by
  obtain ⟨hencloses, hfit⟩ := hlaidOut
  obtain ⟨opening, closing, hframe, hopening, hclosing, hencloses'⟩ := hencloses.exists_frame
  have hlines : Lines.ofPatch (trim source) =
      (opening ++ (above.flatMap Layout.lines ++ header :: (move.map Prod.fst).toList)) ++
        marker :: (first :: changes ++ (endMark.toList ++
          (parts.flatMap Part.lines ++ (below.flatMap Layout.lines ++ closing)))) := by
    rw [hframe, List.flatMap_append, Layout.flatMap_lines_update, Part.flatMap_lines_chunk]
    simp
  have hplace : linesAbove source above move = Lines.skipped source +
      (opening ++ (above.flatMap Layout.lines ++ header :: (move.map Prod.fst).toList)).length := by
    rw [linesAbove, ← hopening, List.length_append, List.length_append, List.length_cons]
    cases move with
    | none => rfl
    | some move => rfl
  obtain ⟨⟨raw, hraw, hmarker⟩, herased⟩ := Lines.ofPatch_trim_erase hlines (by simp) (by simp)
  rw [← hplace] at hraw herased
  have hmarked : trim marker = Marker.chunk := by
    obtain ⟨-, -, -, ⟨hchunk, -⟩, -⟩ := hfit.of_append.1
    exact hchunk.marker marker none rfl
  have hparse : parse (Lines.erase (linesAbove source above move) source) =
      Hunk.readAll 2 (above.flatMap Layout.lines ++ (.update header path move
        (.chunk ⟨none, first :: changes, endMark⟩ :: parts) :: below).flatMap Layout.lines) := by
    apply parse_of_encloses
    rw [herased, Layout.flatMap_lines_update, Part.flatMap_lines_chunk]
    simpa using hencloses' (above.flatMap Layout.lines ++ header :: ((move.map Prod.fst).toList ++
      first :: (changes ++ (endMark.toList ++
        (parts.flatMap Part.lines ++ below.flatMap Layout.lines)))))
  have hread : parse (Lines.erase (linesAbove source above move) source) = .ok (above.map Layout.hunk ++
      (.update header path move (.chunk ⟨some (marker, none), first :: changes, endMark⟩ :: parts) ::
        below).map Layout.hunk) ↔ ¬ Chunk.Misleads move first := by
    rw [hparse, Hunk.readAll_behind_iff hfit, Hunk.readAll_without_marker_iff hfit.of_append]
    rw [Layout.flatMap_lines_update, Layout.flatMap_lines_update]
    rfl
  refine ⟨_, ?_, ?_, hread, fun hsign => hread.mpr (Chunk.not_misleads_of_sign hsign)⟩
  · rw [parse_of_encloses hencloses, Hunk.readAll_eq_ok_iff, ← List.map_append]
    exact ⟨_, rfl, hfit, rfl⟩
  · rw [hraw, Option.map_some, ← Lines.trim_dropCarriageReturn, hmarker, hmarked]

/-- An update in a here-document whose first chunk begins with a line that could be a move. -/
def movedUpdate : Bytes :=
  text "\n \n<<EOF\n*** Begin Patch\n*** Add File: a\n+x\n*** Update File: f\n*** Move to: g\n@@\n *** Move to: h\n-b\n*** End of File\n\n*** Delete File: d\n*** End Patch\nEOF"

/-- The hunk above the update, and the line that moves the file. -/
def addAbove : Layout := .add (text "*** Add File: a") (text "a") [text "+x"]

def moveLine : Bytes × Bytes := (text "*** Move to: g", text "g")

theorem laidOut_movedUpdate :
    LaidOut ([addAbove] ++ .update (text "*** Update File: f") (text "f") (some moveLine)
        (.chunk ⟨some (Marker.chunk, none), text " *** Move to: h" :: [text "-b"],
          some Marker.endOfFile⟩ :: [.separator []]) ::
      [.delete (text "*** Delete File: d") (text "d")]) movedUpdate := by
  have hlines : Lines.ofPatch (trim movedUpdate) = text "<<EOF" ::
      ((Marker.beginPatch :: (([addAbove] ++ Layout.update (text "*** Update File: f") (text "f")
          (some moveLine) (.chunk ⟨some (Marker.chunk, none), text " *** Move to: h" :: [text "-b"],
            some Marker.endOfFile⟩ :: [.separator []]) ::
        [Layout.delete (text "*** Delete File: d") (text "d")]).flatMap Layout.lines ++
          [Marker.endPatch])) ++ [text "EOF"]) := by
    decide +kernel
  have hchunk : (⟨some (Marker.chunk, none), text " *** Move to: h" :: [text "-b"],
      some Marker.endOfFile⟩ : Chunk.Layout).Fits true [[], text "*** Delete File: d"] := {
    marker := by
      rintro _ _ ⟨⟩
      exact (by decide : trim Marker.chunk = Marker.chunk)
    unmarked := by rintro ⟨⟩
    nonempty := List.cons_ne_nil _ _
    changes := by decide
    longest := by decide
    endMark := by decide }
  refine ⟨.inr ⟨_, _, _, hlines, by decide, by decide, Marker.beginPatch, Marker.endPatch, rfl,
      by decide, by decide⟩,
    ⟨by decide, by decide, by decide⟩, ⟨by decide, ?_, by rintro ⟨⟩, ⟨hchunk, by decide, ?_⟩, _,
      List.mem_cons_self⟩, (by decide : trim (text "*** Delete File: d") = _), trivial⟩
  · rintro _ _ ⟨⟩
    decide
  · exact (by decide : ∀ line ∈ [text "*** Delete File: d"].head?, Marker.stop <+: line)

theorem parse_erase_marker_movedUpdate :
    linesAbove movedUpdate [addAbove] (some moveLine) = 8 ∧
      (Bytes.splitAt newline movedUpdate)[8]? = some Marker.chunk ∧
      parse (Lines.erase 8 movedUpdate) = parse movedUpdate := by
  have hplace : linesAbove movedUpdate [addAbove] (some moveLine) = 8 := by decide +kernel
  have hmarks := Chunk.header?_eq_none_iff.mp
    (show Chunk.header? (text " *** Move to: h") = none by decide)
  have hplain : ¬ Chunk.Misleads (some moveLine) (text " *** Move to: h") := by
    rintro (hempty | ⟨anchor, hmarked⟩ | ⟨hnone, -⟩)
    · exact absurd hempty (by decide)
    · exact hmarks anchor hmarked
    · cases hnone
  obtain ⟨patch, hparse, -, hread, -⟩ := parse_erase_marker laidOut_movedUpdate
  rw [hplace] at hread
  exact ⟨hplace, by decide +kernel, (hread.mpr hplain).trans hparse.symm⟩

/-- A first chunk that begins with a line of one space. -/
def blankFirst : Bytes :=
  text "*** Begin Patch\n*** Update File: f\n@@\n \n-a\n*** End Patch"

/-- Behind the marker the line of one space is an empty line of the file, without it it is none. -/
theorem parse_erase_marker_blankFirst :
    (Bytes.splitAt newline blankFirst)[2]? = some Marker.chunk ∧
      (Bytes.splitAt newline blankFirst)[3]? = some (text " ") ∧
      parse blankFirst = .ok [.update (text "f") none [⟨none, [[], text "a"], [[]], false⟩]] ∧
      parse (Lines.erase 2 blankFirst) =
        .ok [.update (text "f") none [⟨none, [text "a"], [], false⟩]] := by
  decide +kernel

end Patch

end Patchwork
