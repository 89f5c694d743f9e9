import Patchwork.Patch.Reader
import Patchwork.Proofs.Placement.AnyOrder
import Patchwork.Proofs.Placement.Cursor

/-!
# Lines that a chunk keeps

A chunk has the lines that it keeps among its old lines and among its new ones, and what it finds
gives way as a whole.  So a kept line is written as it stands in the chunk: a line of the file that
was matched verbatim is left as it is, and one that was matched loosely only if it is the same.  Main
statement: `Placement.updateContent_kept`.
-/

namespace Patchwork

namespace Replacement

/-- Replacements that are carried out apart put the new lines of each one behind what those above it
make of the lines above it. -/
theorem Replaces.exists_split {position : Nat} {lines result : List Bytes}
    {earlier later : List Replacement} {replacement : Replacement}
    (hreplaces : Replaces position lines (earlier ++ replacement :: later) result) :
    ∃ above old behind newAbove newBehind, lines = above ++ old ++ behind ∧
      result = newAbove ++ replacement.newLines ++ newBehind ∧
      replacement.start = position + above.length ∧ replacement.oldLength = old.length ∧
      Replaces position above earlier newAbove := by
  induction earlier generalizing position lines result with
  | nil =>
    cases hreplaces with
    | @cons gap old new _ behind newBehind _ _ =>
      exact ⟨gap, old, behind, gap, newBehind, rfl, rfl, rfl, rfl, .nil position gap⟩
  | cons first earlier ih =>
    cases hreplaces with
    | @cons gap taken new _ below newBelow _ hrest =>
      obtain ⟨above, old, behind, newAbove, newBehind, rfl, rfl, hstart, hlength, habove⟩ := ih hrest
      refine ⟨gap ++ taken ++ above, old, behind, gap ++ new ++ newAbove, newBehind, ?_, ?_, ?_,
        hlength, .cons gap taken new habove⟩
      · simp only [List.append_assoc]
      · simp only [List.append_assoc]
      · rw [hstart, List.length_append, List.length_append]
        omega

/-- A new line of a replacement is found behind what those above it lead to. -/
theorem Apart.getElem?_spliceAll {lines : List Bytes} {earlier later : List Replacement}
    {replacement : Replacement} {index : Nat} {line : Bytes}
    (hapart : Apart lines (earlier ++ replacement :: later))
    (hline : replacement.newLines[index]? = some line) :
    (spliceAll lines (earlier ++ replacement :: later))[
      (spliceAll (lines.take replacement.start) earlier).length + index]? = some line := by
  obtain ⟨above, old, behind, newAbove, newBehind, hlines, hresult, hstart, -, habove⟩ :=
    hapart.replaces.exists_split
  have htake : lines.take replacement.start = above := by
    rw [hstart, Nat.zero_add, hlines, List.append_assoc, List.take_left]
  rw [hresult, htake, habove.spliceAll_eq, List.append_assoc,
    List.getElem?_append_right (Nat.le_add_right _ _), Nat.add_sub_cancel_left,
    List.getElem?_append_left (List.getElem?_eq_some_iff.mp hline).1, hline]

theorem mem_of_mem_spliceAll {lines : List Bytes} {line : Bytes} {replacements : List Replacement}
    (hline : line ∈ spliceAll lines replacements) :
    line ∈ lines ∨ ∃ replacement ∈ replacements, line ∈ replacement.newLines := by
  induction replacements with
  | nil => exact .inl hline
  | cons replacement replacements ih =>
    have hsplice : line ∈ replacement.newLines ∨ line ∈ spliceAll lines replacements := by
      change line ∈ splice replacement (spliceAll lines replacements) at hline
      rw [splice, List.mem_append, List.mem_append] at hline
      rcases hline with (habove | hnew) | hbehind
      · exact .inr (List.mem_of_mem_take habove)
      · exact .inl hnew
      · exact .inr (List.mem_of_mem_drop hbehind)
    rcases hsplice with hnew | hbehind
    · exact .inr ⟨replacement, List.mem_cons_self, hnew⟩
    · rcases ih hbehind with hold | ⟨other, hother, hnew⟩
      · exact .inl hold
      · exact .inr ⟨other, List.mem_cons_of_mem _ hother, hnew⟩

end Replacement

namespace Placement

variable {content updated : Bytes} {lines : List Bytes} {line kept : Bytes} {index start : Nat}
  {chunk : Chunk} {chunks : List Chunk} {replacement : Replacement} {found : Match}
  {old new : List Bytes}

/-! ## One chunk -/

/-- Only an empty line at the end is left out. -/
theorem getElem?_dropBlankEnd (hline : lines[index]? = some line)
    (hstays : line = [] → index < (dropBlankEnd lines).length) :
    (dropBlankEnd lines)[index]? = some line := by
  rw [dropBlankEnd] at hstays ⊢
  split
  · rename_i hlast
    obtain ⟨front, rfl⟩ := List.getLast?_eq_some_iff.mp hlast
    rw [if_pos hlast, List.dropLast_concat] at hstays
    rw [List.dropLast_concat]
    by_cases hfront : index < front.length
    · rwa [List.getElem?_append_left hfront] at hline
    · have hempty : line = [] := by
        have hmem := List.mem_of_getElem? (List.getElem?_append_right (Nat.le_of_not_lt hfront) ▸ hline)
        exact List.mem_singleton.mp hmem
      exact absurd (hstays hempty) hfront
  · exact hline

theorem segment_of_oldMatch (hend : chunk.atEnd = false)
    (hfound : oldMatch lines start chunk = some (found, replacement)) :
    ∃ old, Variant chunk old replacement.newLines ∧ replacement.oldLength = old.length ∧
      found.tier.Matches lines old replacement.start := by
  obtain ⟨old, new, hvariant, hseek, rfl⟩ := exists_seek_of_oldMatch hfound
  rw [hend] at hseek
  exact ⟨old, hvariant, rfl, (seek_spec hseek).2⟩

theorem Variant.mem_new (hvariant : Variant chunk old new) (hline : line ∈ new) :
    line ∈ chunk.newLines := by
  cases hvariant with
  | whole => exact hline
  | shortened _ =>
    rw [dropBlankEnd] at hline
    split at hline
    · exact List.mem_of_mem_dropLast hline
    · exact hline

theorem Variant.getElem?_old (hvariant : Variant chunk old new)
    (hline : chunk.oldLines[index]? = some line) (hlength : index < old.length) :
    old[index]? = some line := by
  cases hvariant with
  | whole => exact hline
  | shortened hold =>
    rwa [hold, List.getElem?_append_left hlength] at hline

theorem Variant.getElem?_new (hvariant : Variant chunk old new)
    (hline : chunk.newLines[index]? = some line) (hstays : line = [] → index < new.length) :
    new[index]? = some line := by
  cases hvariant with
  | whole => exact hline
  | shortened _ => exact getElem?_dropBlankEnd hline hstays

/-- What the operations expect and leave up to a line that is kept. -/
theorem ofOperations_kept (anchor : Option Bytes) (before after : List Operation) (kept : Bytes) :
    (Chunk.ofOperations anchor (before ++ .keep kept :: after) false).oldLines[
        (before.filterMap Operation.old?).length]? = some kept ∧
      (Chunk.ofOperations anchor (before ++ .keep kept :: after) false).newLines[
        (before.filterMap Operation.new?).length]? = some kept := by
  simp only [Chunk.ofOperations, List.filterMap_append]
  rw [List.getElem?_append_right (Nat.le_refl _), List.getElem?_append_right (Nat.le_refl _),
    Nat.sub_self, Nat.sub_self]
  exact ⟨rfl, rfl⟩

theorem exists_matched (hmatch : found.tier.Matches lines old start)
    (hline : old[index]? = some line) :
    ∃ matched, lines[start + index]? = some matched ∧
      found.tier.view matched = found.tier.view line := by
  have hview : (old.map found.tier.view)[index]? = some (found.tier.view line) := by
    rw [List.getElem?_map, hline]
    rfl
  obtain ⟨behind, hbehind⟩ := hmatch
  have hsame : ((lines.drop start).map found.tier.view)[index]? = some (found.tier.view line) := by
    rw [← hbehind, List.getElem?_append_left (List.getElem?_eq_some_iff.mp hview).1, hview]
  rw [List.getElem?_map, List.getElem?_drop, Option.map_eq_some_iff] at hsame
  exact hsame

/-! ## All chunks -/

namespace Placing

/-- Where the line of the file stands that an operation behind the given ones is about. -/
def oldPlace (placing : Placing) (before : List Operation) : Nat :=
  placing.replacement.start + (before.filterMap Operation.old?).length

/-- Where the line comes to stand that an operation behind the given ones leaves: below what the
chunks above make of the lines above. -/
def newPlace (lines : List Bytes) (above : List Placing) (placing : Placing)
    (before : List Operation) : Nat :=
  (Replacement.spliceAll (lines.take placing.replacement.start)
    (above.map Placing.replacement)).length + (before.filterMap Operation.new?).length

end Placing

/-- A kept line is written in the place of a line of the file that the tier does not tell from it.
So that line is left as it is exactly if it is the same, which the strictest tier demands. -/
structure Restates (tier : Tier) (lines updated : List Bytes) (oldPlace newPlace : Nat)
    (kept : Bytes) : Prop where
  matched : ∃ line, lines[oldPlace]? = some line ∧ tier.view line = tier.view kept
  written : updated[newPlace]? = some kept
  unchanged_iff : updated[newPlace]? = lines[oldPlace]? ↔ lines[oldPlace]? = some kept
  verbatim : tier = .equal → updated[newPlace]? = lines[oldPlace]?

theorem restates_of_matched {tier : Tier} {oldPlace newPlace : Nat} {now : List Bytes}
    (hmatched : ∃ line, lines[oldPlace]? = some line ∧ tier.view line = tier.view kept)
    (hwritten : now[newPlace]? = some kept) : Restates tier lines now oldPlace newPlace kept where
  matched := hmatched
  written := hwritten
  unchanged_iff := by rw [hwritten, eq_comm]
  verbatim := by
    rintro rfl
    obtain ⟨line, hline, hsame⟩ := hmatched
    rw [hwritten, hline]
    exact congrArg some hsame.symm

/-- The lines of an updated file are those that the chunks lead to, but for an empty one at the end. -/
theorem ofFile_of_updateContent (hplain : ∀ chunk ∈ chunks, ∀ line ∈ chunk.newLines, Bytes.newline ∉ line)
    {placed : List Replacement} (hplaced : placeAll (Lines.ofFile content) 0 chunks = .ok placed)
    (hupdated : updateContent content chunks = .ok updated) :
    Lines.ofFile updated = dropBlankEnd
      (Replacement.spliceAll (Lines.ofFile content) (Replacement.sort placed)) := by
  rw [updateContent, replacements, hplaced] at hupdated
  obtain rfl : Lines.toFile _ = updated := Except.ok.inj hupdated
  rw [Lines.toFile_eq_ended, Lines.ofFile_ended]
  intro line hline
  have hspliced : line ∈ Replacement.spliceAll (Lines.ofFile content) (Replacement.sort placed) := by
    rw [dropBlankEnd] at hline
    split at hline
    · exact List.mem_of_mem_dropLast hline
    · exact hline
  rcases Replacement.mem_of_mem_spliceAll hspliced with hold | ⟨replacement, hreplacement, hnew⟩
  · exact Lines.newline_notMem_of_mem_ofFile hold
  · obtain ⟨chunk, hchunk, old, hvariant, -⟩ :=
      exists_renders_of_placeAll hplaced (Replacement.mem_sort.mp hreplacement)
    exact hplain chunk hchunk line (hvariant.mem_new hnew)

/-- Chunks of kept, removed and added lines replace what they are found at, one below the other.  A
line that a chunk keeps, if it was looked for, is written where it was found, and what stood there
was the same or, in a looser tier than equality, looked the same.  Of empty lines only those are
meant that the search and the end of the file do not leave out. -/
theorem updateContent_kept (content updated : Bytes) (chunks : List Chunk)
    (hchunks : ∀ chunk ∈ chunks, chunk.oldLines ≠ [] ∧ chunk.atEnd = false ∧
      ∀ line ∈ chunk.newLines, Bytes.newline ∉ line)
    (hupdated : updateContent content chunks = .ok updated) :
    ∃ placings : List Placing, placings.map Placing.chunk = chunks ∧
      Chained (Lines.ofFile content) 0 placings ∧
      replacements (Lines.ofFile content) chunks = .ok (placings.map Placing.replacement) ∧
      ∀ above placing below, placings = above ++ placing :: below →
        ∃ found, oldMatch (Lines.ofFile content) placing.start placing.chunk =
            some (found, placing.replacement) ∧
          ∀ before kept after,
            placing.chunk = Chunk.ofOperations placing.chunk.anchor
              (before ++ .keep kept :: after) false →
            (before.filterMap Operation.old?).length < placing.replacement.oldLength →
            (kept = [] →
              (before.filterMap Operation.new?).length < placing.replacement.newLines.length ∧
              placing.newPlace (Lines.ofFile content) above before < (Lines.ofFile updated).length) →
            Restates found.tier (Lines.ofFile content) (Lines.ofFile updated)
              (placing.oldPlace before) (placing.newPlace (Lines.ofFile content) above before)
              kept := by
  cases hplaced : placeAll (Lines.ofFile content) 0 chunks with
  | error problem =>
    rw [updateContent, replacements, hplaced] at hupdated
    cases hupdated
  | ok placed =>
    obtain ⟨reached, hfollows⟩ :=
      follows_of_placeAll (fun chunk hchunk => (hchunks chunk hchunk).2.1) (Nat.zero_le _) hplaced
    have hapart := hfollows.apart fun chunk hchunk => (hchunks chunk hchunk).1
    have hsorted := Replacement.sort_eq_self hapart.above
    have hnow := ofFile_of_updateContent (fun chunk hchunk => (hchunks chunk hchunk).2.2) hplaced
      hupdated
    rw [hsorted] at hnow
    obtain ⟨placings, rfl, rfl, hchained, -, -, hblocks⟩ :=
      exists_found_placings (Nat.zero_le _) hplaced
    refine ⟨placings, rfl, hchained, ?_, ?_⟩
    · rw [replacements, hplaced]
      exact congrArg Except.ok hsorted
    · rintro above placing below rfl
      have hmem : placing ∈ above ++ placing :: below := List.mem_append_right _ List.mem_cons_self
      obtain ⟨hblock, hend, -⟩ := hchunks placing.chunk (List.mem_map_of_mem hmem)
      obtain ⟨found, hfound⟩ := (hblocks placing hmem hblock).2
      refine ⟨found, hfound, fun before kept after hchunk hlooked hstays => ?_⟩
      obtain ⟨old, hvariant, hlength, hmatch⟩ := segment_of_oldMatch hend hfound
      obtain ⟨hkeptOld, hkeptNew⟩ := ofOperations_kept placing.chunk.anchor before after kept
      rw [← hchunk] at hkeptOld hkeptNew
      apply restates_of_matched
      · exact exists_matched hmatch (hvariant.getElem?_old hkeptOld (hlength ▸ hlooked))
      · have hwritten := hvariant.getElem?_new hkeptNew fun hempty => (hstays hempty).1
        rw [List.map_append, List.map_cons] at hapart hnow
        have hspliced := hapart.getElem?_spliceAll hwritten
        rw [hnow] at hstays ⊢
        exact getElem?_dropBlankEnd hspliced fun hempty => (hstays hempty).2

/-- Two chunks, the first of which is found loosely, and the second as it stands. -/
def keepingChunks : List Chunk :=
  [.ofOperations none [.insert (text "zero"), .keep (text "one"), .remove (text "two"), .keep []]
      false,
    .ofOperations none [.keep (text "three"), .insert (text "four")] false]

def indentedContent : Bytes := text "top\n  one\ntwo \n\nthree\n"

def unindentedContent : Bytes := text "top\nzero\none\n\nthree\nfour\n"

theorem updateContent_kept_indented :
    updateContent indentedContent keepingChunks = .ok unindentedContent ∧
      Restates .trimmed (Lines.ofFile indentedContent) (Lines.ofFile unindentedContent) 1 2
        (text "one") ∧
      Restates .trimmed (Lines.ofFile indentedContent) (Lines.ofFile unindentedContent) 3 3 [] ∧
      Restates .equal (Lines.ofFile indentedContent) (Lines.ofFile unindentedContent) 4 4
        (text "three") := by
  have hupdated : updateContent indentedContent keepingChunks = .ok unindentedContent := by
    decide +kernel
  obtain ⟨placings, hchunks, hchained, hreplacements, hkept⟩ :=
    updateContent_kept indentedContent unindentedContent keepingChunks (by decide +kernel) hupdated
  obtain ⟨⟨_, start, _⟩, placings, rfl, rfl, hplacings⟩ := List.map_eq_cons_iff.mp hchunks
  obtain ⟨⟨_, next, _⟩, rfl, rfl⟩ := List.map_eq_singleton_iff.mp hplacings
  have hplaced : replacements (Lines.ofFile indentedContent) keepingChunks =
      .ok [⟨1, 3, [text "zero", text "one", []]⟩, ⟨4, 1, [text "three", text "four"]⟩] := by
    decide +kernel
  obtain ⟨rfl, hsecond⟩ := List.cons.inj (Except.ok.inj (hreplacements.symm.trans hplaced))
  obtain rfl := (List.cons.inj hsecond).1
  obtain ⟨loose, hloose, hfirst⟩ := hkept [] _ _ rfl
  obtain ⟨plain, hplain, hsecond⟩ := hkept [_] _ [] rfl
  cases hchained with
  | cons hanchor hrest =>
    cases hrest with
    | cons hbehind _ =>
      obtain rfl : start = 0 := by
        cases (show Anchored _ 0 none start from hanchor)
        rfl
      obtain rfl : next = 4 := by
        cases (show Anchored _ 4 none next from hbehind)
        rfl
      obtain rfl : ⟨1, .trimmed⟩ = loose :=
        Option.some.inj (Eq.trans (by decide +kernel) (congrArg (Option.map Prod.fst) hloose))
      obtain rfl : ⟨4, .equal⟩ = plain :=
        Option.some.inj (Eq.trans (by decide +kernel) (congrArg (Option.map Prod.fst) hplain))
      refine ⟨hupdated, ?_, ?_, ?_⟩
      · exact hfirst [.insert (text "zero")] (text "one") [.remove (text "two"), .keep []] rfl
          (by decide) (by decide)
      · exact hfirst [.insert (text "zero"), .keep (text "one"), .remove (text "two")] [] [] rfl
          (by decide) (by decide +kernel)
      · exact hsecond [] (text "three") [.insert (text "four")] rfl (by decide) (by decide)

/-- A line that a chunk keeps loses the blank that it ends in: the chunk is found without it. -/
theorem updateContent_trailingBlank :
    updateContent (text "a \nb\n")
        [.ofOperations none [.keep (text "a"), .remove (text "b"), .insert (text "c")] false] =
        .ok (text "a\nc\n") ∧
      seek (Lines.ofFile (text "a \nb\n")) [text "a", text "b"] 0 false = some ⟨0, .trimmedEnd⟩ ∧
      (Lines.ofFile (text "a\nc\n"))[0]? ≠ (Lines.ofFile (text "a \nb\n"))[0]? := by
  decide +kernel

end Placement

end Patchwork
