import Patchwork.Placement
import Patchwork.Proofs.Search
import Patchwork.Proofs.Splice

/-!
# Where chunks are placed

Chunks that have to stand anywhere behind the cursor follow each other down the lines.  Each one
leads to one replacement, which covers lines that match the chunk's old lines.  Main statement:
`Placement.replacements_follow`.
-/

namespace Patchwork

namespace Placement

/-! ## What one chunk may lead to -/

/-- Where a chunk's anchor moves the cursor: behind a line that it matches, which stands at the
cursor or below it. -/
inductive Anchored (lines : List Bytes) (cursor : Nat) : Option Bytes → Nat → Prop
  | unmoved : Anchored lines cursor none cursor
  | behind {anchor : Bytes} {index : Nat} (tier : Tier) (hcursor : cursor ≤ index)
      (hmatch : tier.Matches lines [anchor] index) :
      Anchored lines cursor (some anchor) (index + 1)

/-- The old lines that a chunk may be found by, and the new lines that come with them: all of them,
or both without an empty line at the end if the old lines have one. -/
inductive Variant (chunk : Chunk) : List Bytes → List Bytes → Prop
  | whole : Variant chunk chunk.oldLines chunk.newLines
  | shortened {shorter : List Bytes} (hold : chunk.oldLines = shorter ++ [[]]) :
      Variant chunk shorter (dropBlankEnd chunk.newLines)

/-- A replacement covers lines, from a position on, that match a chunk's old lines under one
tier. -/
structure Covers (lines : List Bytes) (start : Nat) (chunk : Chunk) (replacement : Replacement) :
    Prop where
  start_le : start ≤ replacement.start
  within : replacement.start + replacement.oldLength ≤ lines.length
  segment : ∃ old tier, Variant chunk old replacement.newLines ∧
    replacement.oldLength = old.length ∧ Tier.Matches tier lines old replacement.start

/-- The replacement that a chunk leads to, and where the cursor stands behind it.  A chunk without
old lines inserts its new ones, and any other covers lines behind its anchor. -/
inductive Placed (lines : List Bytes) (cursor : Nat) (chunk : Chunk) : Replacement → Nat → Prop
  | insertion {start : Nat} (hanchor : Anchored lines cursor chunk.anchor start)
      (hold : chunk.oldLines = []) :
      Placed lines cursor chunk ⟨insertionIndex lines, 0, chunk.newLines⟩ start
  | block {start : Nat} {replacement : Replacement}
      (hanchor : Anchored lines cursor chunk.anchor start) (hold : chunk.oldLines ≠ [])
      (hcovers : Covers lines start chunk replacement) :
      Placed lines cursor chunk replacement (replacement.start + replacement.oldLength)

/-- Chunks and the replacements that they lead to, one each and in the same order, with the cursor
before the first and behind the last of them. -/
inductive Follows (lines : List Bytes) : Nat → List Chunk → List Replacement → Nat → Prop
  | nil (cursor : Nat) : Follows lines cursor [] [] cursor
  | cons {cursor next reached : Nat} {chunk : Chunk} {chunks : List Chunk}
      {replacement : Replacement} {replacements : List Replacement}
      (hplaced : Placed lines cursor chunk replacement next)
      (hrest : Follows lines next chunks replacements reached) :
      Follows lines cursor (chunk :: chunks) (replacement :: replacements) reached

/-- Why a chunk has no place behind the cursor: no line matches its anchor, or no lines match its
old lines. -/
inductive Unplaced (lines : List Bytes) (cursor : Nat) (chunk : Chunk) : Error → Prop
  | anchor {anchor : Bytes} (hanchor : chunk.anchor = some anchor)
      (hmissing : ∀ index tier, cursor ≤ index → ¬ Tier.Matches tier lines [anchor] index) :
      Unplaced lines cursor chunk (.anchorNotFound anchor)
  | oldLines {start : Nat} (hanchor : Anchored lines cursor chunk.anchor start)
      (hmissing : ∀ old new, Variant chunk old new →
        ∀ index tier, start ≤ index → ¬ Tier.Matches tier lines old index) :
      Unplaced lines cursor chunk (.linesNotFound chunk.oldLines)

variable {lines : List Bytes} {cursor start next reached : Nat} {chunk : Chunk}
  {chunks : List Chunk} {replacement : Replacement} {placed : List Replacement} {problem : Error}

theorem Anchored.cursor_le {anchor : Option Bytes} (hanchor : Anchored lines cursor anchor start) :
    cursor ≤ start := by
  cases hanchor with
  | unmoved => exact le_rfl
  | behind _ hcursor _ => exact Nat.le_succ_of_le hcursor

theorem Anchored.le_length {anchor : Option Bytes} (hanchor : Anchored lines cursor anchor start)
    (hcursor : cursor ≤ lines.length) : start ≤ lines.length := by
  cases hanchor with
  | unmoved => exact hcursor
  | behind _ _ hmatch => exact hmatch.within (List.cons_ne_nil _ _)

/-! ## What placing a chunk leads to -/

theorem anchored_of_searchStart (hstart : searchStart lines cursor chunk = .ok start) :
    Anchored lines cursor chunk.anchor start := by
  rw [searchStart, anchorMatch] at hstart
  cases hanchor : chunk.anchor with
  | none =>
    rw [hanchor] at hstart
    obtain rfl := Except.ok.inj hstart
    exact .unmoved
  | some anchor =>
    rw [hanchor, Option.bind_some] at hstart
    cases hseek : seek lines [anchor] cursor false with
    | none =>
      rw [hseek] at hstart
      cases hstart
    | some found =>
      rw [hseek] at hstart
      obtain rfl := Except.ok.inj hstart
      obtain ⟨hcursor, hmatch⟩ := seek_spec hseek
      exact .behind found.tier hcursor hmatch

theorem unplaced_of_searchStart (hstart : searchStart lines cursor chunk = .error problem) :
    Unplaced lines cursor chunk problem := by
  rw [searchStart, anchorMatch] at hstart
  cases hanchor : chunk.anchor with
  | none =>
    rw [hanchor] at hstart
    cases hstart
  | some anchor =>
    rw [hanchor, Option.bind_some] at hstart
    cases hseek : seek lines [anchor] cursor false with
    | none =>
      rw [hseek] at hstart
      obtain rfl := Except.error.inj hstart
      exact .anchor hanchor fun _ tier hle => not_matches_of_seek hseek hle tier
    | some found =>
      rw [hseek] at hstart
      cases hstart

/-- Old lines that end in an empty line are what stands before it, and that line. -/
theorem dropLast_append_blank {old : List Bytes} (hblank : old.getLast? = some []) :
    old.dropLast ++ [[]] = old :=
  List.dropLast_append_getLast? [] hblank

/-- What is found stands in the lines, even where it is no line at all. -/
theorem within_of_seek {pattern : List Bytes} {found : Match}
    (hfound : seek lines pattern start false = some found) (hstart : start ≤ lines.length) :
    found.index + pattern.length ≤ lines.length := by
  by_cases hpattern : pattern = []
  · subst hpattern
    rw [seek_nil] at hfound
    obtain rfl := Option.some.inj hfound
    exact hstart
  · exact (seek_spec hfound).2.within hpattern

/-- What takes the place of a chunk's old lines: the new lines that come with the variant that was
found. -/
theorem exists_seek_of_oldMatch {found : Match}
    (hfound : oldMatch lines start chunk = some (found, replacement)) :
    ∃ old new, Variant chunk old new ∧ seek lines old start chunk.atEnd = some found ∧
      replacement = ⟨found.index, old.length, new⟩ := by
  rw [oldMatch] at hfound
  split at hfound
  · rename_i whole hwhole
    obtain ⟨rfl, rfl⟩ := Prod.mk.inj (Option.some.inj hfound)
    exact ⟨_, _, .whole, hwhole, rfl⟩
  · split at hfound
    · rename_i hblank
      obtain ⟨shorter, hshorter, heq⟩ := Option.map_eq_some_iff.mp hfound
      obtain ⟨rfl, rfl⟩ := Prod.mk.inj heq
      exact ⟨_, _, .shortened (dropLast_append_blank hblank).symm, hshorter, rfl⟩
    · cases hfound

theorem covers_of_oldMatch {found : Match} (hend : chunk.atEnd = false)
    (hstart : start ≤ lines.length)
    (hfound : oldMatch lines start chunk = some (found, replacement)) :
    Covers lines start chunk replacement := by
  obtain ⟨old, new, hvariant, hseek, rfl⟩ := exists_seek_of_oldMatch hfound
  rw [hend] at hseek
  obtain ⟨hle, hmatch⟩ := seek_spec hseek
  exact ⟨hle, within_of_seek hseek hstart, old, found.tier, hvariant, rfl, hmatch⟩

theorem unplaced_of_oldMatch (hend : chunk.atEnd = false)
    (hanchor : Anchored lines cursor chunk.anchor start)
    (hnone : oldMatch lines start chunk = none) :
    Unplaced lines cursor chunk (.linesNotFound chunk.oldLines) := by
  refine .oldLines hanchor fun old new hvariant index tier hle => ?_
  rw [oldMatch, hend] at hnone
  split at hnone
  · cases hnone
  · rename_i hwhole
    cases hvariant with
    | whole => exact not_matches_of_seek hwhole hle tier
    | shortened hold =>
      rw [hold, List.getLast?_concat, if_pos rfl, List.dropLast_concat,
        Option.map_eq_none_iff] at hnone
      exact not_matches_of_seek hnone hle tier

/-- A chunk without old lines is inserted, any other one replaces what is found for it. -/
theorem exists_start_of_place (hplace : place lines cursor chunk = .ok (replacement, next)) :
    ∃ start, Anchored lines cursor chunk.anchor start ∧
      (chunk.oldLines = [] ∧ replacement = ⟨insertionIndex lines, 0, chunk.newLines⟩ ∧
          next = start ∨
        chunk.oldLines ≠ [] ∧ (∃ found, oldMatch lines start chunk = some (found, replacement)) ∧
          next = replacement.start + replacement.oldLength) := by
  rw [place] at hplace
  split at hplace
  · cases hplace
  · rename_i start hstart
    refine ⟨start, anchored_of_searchStart hstart, ?_⟩
    split at hplace
    · rename_i hold
      obtain ⟨rfl, rfl⟩ := Prod.mk.inj (Except.ok.inj hplace)
      exact .inl ⟨hold, rfl, rfl⟩
    · rename_i hold
      split at hplace
      · rename_i found other hfound
        obtain ⟨rfl, rfl⟩ := Prod.mk.inj (Except.ok.inj hplace)
        exact .inr ⟨hold, ⟨found, hfound⟩, rfl⟩
      · cases hplace

theorem placed_of_place (hend : chunk.atEnd = false) (hcursor : cursor ≤ lines.length)
    (hplace : place lines cursor chunk = .ok (replacement, next)) :
    Placed lines cursor chunk replacement next := by
  obtain ⟨start, hanchor, ⟨hold, rfl, rfl⟩ | ⟨hold, ⟨found, hfound⟩, rfl⟩⟩ :=
    exists_start_of_place hplace
  · exact .insertion hanchor hold
  · exact .block hanchor hold (covers_of_oldMatch hend (hanchor.le_length hcursor) hfound)

theorem Placed.le_length (hplaced : Placed lines cursor chunk replacement next)
    (hcursor : cursor ≤ lines.length) : next ≤ lines.length := by
  cases hplaced with
  | insertion hanchor _ => exact hanchor.le_length hcursor
  | block _ _ hcovers => exact hcovers.within

theorem unplaced_of_place (hend : chunk.atEnd = false)
    (hplace : place lines cursor chunk = .error problem) :
    Unplaced lines cursor chunk problem := by
  rw [place] at hplace
  split at hplace
  · rename_i other hstart
    obtain rfl := Except.error.inj hplace
    exact unplaced_of_searchStart hstart
  · rename_i start hstart
    split at hplace
    · cases hplace
    · split at hplace
      · cases hplace
      · rename_i hnone
        obtain rfl := Except.error.inj hplace
        exact unplaced_of_oldMatch hend (anchored_of_searchStart hstart) hnone

theorem Placed.cursor_le (hplaced : Placed lines cursor chunk replacement next) :
    cursor ≤ next := by
  cases hplaced with
  | insertion hanchor _ => exact hanchor.cursor_le
  | block hanchor _ hcovers =>
    have hstart := hanchor.cursor_le
    have hbegin := hcovers.start_le
    omega

theorem insertionIndex_le (lines : List Bytes) : insertionIndex lines ≤ lines.length := by
  rw [insertionIndex]
  split
  · exact Nat.sub_le _ _
  · exact le_rfl

/-! ## What placing all chunks leads to -/

theorem exists_of_placeAll_cons (hplaced : placeAll lines cursor (chunk :: chunks) = .ok placed) :
    ∃ replacement next rest, place lines cursor chunk = .ok (replacement, next) ∧
      placeAll lines next chunks = .ok rest ∧ placed = replacement :: rest := by
  rw [placeAll] at hplaced
  split at hplaced
  · cases hplaced
  · rename_i replacement next hplace
    cases hrest : placeAll lines next chunks with
    | error problem =>
      rw [hrest] at hplaced
      cases hplaced
    | ok rest =>
      rw [hrest] at hplaced
      exact ⟨replacement, next, rest, hplace, hrest, (Except.ok.inj hplaced).symm⟩

theorem follows_of_placeAll (hend : ∀ chunk ∈ chunks, chunk.atEnd = false)
    (hcursor : cursor ≤ lines.length) (hplaced : placeAll lines cursor chunks = .ok placed) :
    ∃ reached, Follows lines cursor chunks placed reached := by
  induction chunks generalizing cursor placed with
  | nil =>
    obtain rfl := Except.ok.inj hplaced
    exact ⟨cursor, .nil cursor⟩
  | cons chunk chunks ih =>
    rw [List.forall_mem_cons] at hend
    obtain ⟨replacement, next, rest, hplace, hrest, rfl⟩ := exists_of_placeAll_cons hplaced
    have hfirst := placed_of_place hend.1 hcursor hplace
    obtain ⟨reached, hreached⟩ := ih hend.2 (hfirst.le_length hcursor) hrest
    exact ⟨reached, .cons hfirst hreached⟩

/-- Where placing fails, some chunk has no place behind those before it, which have theirs. -/
theorem unplaced_of_placeAll (hend : ∀ chunk ∈ chunks, chunk.atEnd = false)
    (hcursor : cursor ≤ lines.length) (hplaced : placeAll lines cursor chunks = .error problem) :
    ∃ before chunk behind placed reached, chunks = before ++ chunk :: behind ∧
      Follows lines cursor before placed reached ∧ Unplaced lines reached chunk problem := by
  induction chunks generalizing cursor with
  | nil => cases hplaced
  | cons chunk chunks ih =>
    rw [List.forall_mem_cons] at hend
    rw [placeAll] at hplaced
    split at hplaced
    · rename_i other hplace
      obtain rfl := Except.error.inj hplaced
      exact ⟨[], chunk, chunks, [], cursor, rfl, .nil cursor, unplaced_of_place hend.1 hplace⟩
    · rename_i replacement next hplace
      cases hrest : placeAll lines next chunks with
      | ok replacements =>
        rw [hrest] at hplaced
        cases hplaced
      | error other =>
        rw [hrest] at hplaced
        obtain rfl := Except.error.inj hplaced
        have hfirst := placed_of_place hend.1 hcursor hplace
        obtain ⟨before, failing, behind, placed, reached, rfl, hfollows, hunplaced⟩ :=
          ih hend.2 (hfirst.le_length hcursor) hrest
        exact ⟨chunk :: before, failing, behind, replacement :: placed, reached, rfl,
          .cons hfirst hfollows, hunplaced⟩

/-- Every replacement stands in the lines.  It begins below the cursor unless it is the insertion of
a chunk without old lines. -/
theorem Follows.within (hfollows : Follows lines cursor chunks placed reached)
    (hmem : replacement ∈ placed) : replacement.start + replacement.oldLength ≤ lines.length ∧
      (cursor ≤ replacement.start ∨ ∃ chunk ∈ chunks, chunk.oldLines = [] ∧
        replacement = ⟨insertionIndex lines, 0, chunk.newLines⟩) := by
  induction hfollows with
  | nil => exact absurd hmem List.not_mem_nil
  | cons hplaced _ ih =>
    rcases List.mem_cons.mp hmem with rfl | hmem
    · cases hplaced with
      | insertion _ hold =>
        exact ⟨insertionIndex_le lines, .inr ⟨_, List.mem_cons_self, hold, rfl⟩⟩
      | block hanchor _ hcovers =>
        exact ⟨hcovers.within, .inl (Nat.le_trans hanchor.cursor_le hcovers.start_le)⟩
    · obtain ⟨hwithin, hbelow | ⟨chunk, hchunk, hinsertion⟩⟩ := ih hmem
      · exact ⟨hwithin, .inl (Nat.le_trans hplaced.cursor_le hbelow)⟩
      · exact ⟨hwithin, .inr ⟨chunk, List.mem_cons_of_mem _ hchunk, hinsertion⟩⟩

/-- Without insertions, the replacements stand one behind the other. -/
theorem Follows.apart (hfollows : Follows lines cursor chunks placed reached)
    (hold : ∀ chunk ∈ chunks, chunk.oldLines ≠ []) : Replacement.Apart lines placed := by
  refine ⟨?_, fun replacement hmem => (hfollows.within hmem).1⟩
  induction hfollows with
  | nil => exact .nil
  | cons hplaced hrest ih =>
    rw [List.forall_mem_cons] at hold
    refine List.pairwise_cons.mpr ⟨fun later hlater => ?_, ih hold.2⟩
    cases hplaced with
    | insertion _ hempty => exact absurd hempty hold.1
    | block _ _ _ =>
      rcases (hrest.within hlater).2 with hbelow | ⟨chunk, hchunk, hempty, -⟩
      · exact hbelow
      · exact absurd hempty (hold.2 chunk hchunk)

/-- What is said about a chunk without a place names the path, and the anchor or the old lines as
they stand in the chunk. -/
theorem Unplaced.message_eq (hunplaced : Unplaced lines cursor chunk problem) (path : Bytes) :
    (∃ anchor, chunk.anchor = some anchor ∧ problem.message path =
      text "failed to find context '" ++ anchor ++ text "' in " ++ path) ∨
    problem.message path = text "failed to find expected lines in " ++ path ++ text ":\n" ++
      Lines.join chunk.oldLines := by
  cases hunplaced with
  | anchor hanchor _ => exact .inl ⟨_, hanchor, rfl⟩
  | oldLines _ _ => exact .inr rfl

/-- Chunks that replace lines anywhere behind the cursor lead to one replacement each, in their
order: a cursor moves down the lines, behind the line that an anchor matches and behind the lines
that a chunk covers, and every covered segment matches the chunk's old lines.  The lines outside
these segments are kept.  If some chunk has no place, the error is about the first one: nothing
behind the cursor matches the anchor or the old lines that it names. -/
theorem replacements_follow (lines : List Bytes) (chunks : List Chunk)
    (hold : ∀ chunk ∈ chunks, chunk.oldLines ≠ [])
    (hend : ∀ chunk ∈ chunks, chunk.atEnd = false) :
    (∀ found, replacements lines chunks = .ok found →
      (∃ reached, Follows lines 0 chunks found reached) ∧ Replacement.Apart lines found ∧
        Replacement.Replaces 0 lines found (Replacement.spliceAll lines found)) ∧
    ∀ problem, replacements lines chunks = .error problem →
      ∃ before chunk behind placed reached, chunks = before ++ chunk :: behind ∧
        Follows lines 0 before placed reached ∧ Unplaced lines reached chunk problem ∧
        ∀ path, (∃ anchor, chunk.anchor = some anchor ∧ problem.message path =
            text "failed to find context '" ++ anchor ++ text "' in " ++ path) ∨
          problem.message path = text "failed to find expected lines in " ++ path ++
            text ":\n" ++ Lines.join chunk.oldLines := by
  constructor
  · intro found hfound
    rw [replacements] at hfound
    cases hplaced : placeAll lines 0 chunks with
    | error problem =>
      rw [hplaced] at hfound
      cases hfound
    | ok placed =>
      obtain ⟨reached, hfollows⟩ := follows_of_placeAll hend (Nat.zero_le _) hplaced
      have hapart := hfollows.apart hold
      rw [hplaced] at hfound
      obtain rfl : Replacement.sort placed = found := Except.ok.inj hfound
      rw [Replacement.sort_eq_self hapart.above]
      exact ⟨⟨reached, hfollows⟩, hapart, hapart.replaces⟩
  · intro problem hproblem
    rw [replacements] at hproblem
    cases hplaced : placeAll lines 0 chunks with
    | ok placed =>
      rw [hplaced] at hproblem
      cases hproblem
    | error other =>
      rw [hplaced] at hproblem
      obtain rfl := Except.error.inj hproblem
      obtain ⟨before, chunk, behind, placed, reached, hchunks, hfollows, hunplaced⟩ :=
        unplaced_of_placeAll hend (Nat.zero_le _) hplaced
      exact ⟨before, chunk, behind, placed, reached, hchunks, hfollows, hunplaced,
        hunplaced.message_eq⟩

/-- Lines that are matched under looser tiers only. -/
def looseLines : List Bytes := [text "head", text "  one", text "two ", text "tail"]

/-- An anchor, and old lines that are found only without the empty line at their end. -/
def looseChunks : List Chunk :=
  [⟨some (text "head "), [text "one"], [text "1"], false⟩,
    ⟨none, [text "two", []], [text "2", []], false⟩]

/-- Old lines that stand above the cursor only. -/
def lateChunk : Chunk := ⟨none, [text "head"], [text "HEAD"], false⟩

theorem replacements_follow_loose :
    (replacements looseLines looseChunks = .ok [⟨1, 1, [text "1"]⟩, ⟨2, 1, [text "2"]⟩] ∧
      ∃ reached, Follows looseLines 0 looseChunks [⟨1, 1, [text "1"]⟩, ⟨2, 1, [text "2"]⟩]
        reached) ∧
    replacements looseLines (looseChunks ++ [lateChunk]) = .error (.linesNotFound [text "head"]) ∧
      ∃ before chunk behind placed reached,
        looseChunks ++ [lateChunk] = before ++ chunk :: behind ∧
          Follows looseLines 0 before placed reached ∧
          Unplaced looseLines reached chunk (.linesNotFound [text "head"]) := by
  have hsuccess := (replacements_follow looseLines looseChunks (by decide) (by decide)).1
    [⟨1, 1, [text "1"]⟩, ⟨2, 1, [text "2"]⟩] (by decide)
  obtain ⟨before, chunk, behind, placed, reached, hchunks, hfollows, hunplaced, -⟩ :=
    (replacements_follow looseLines (looseChunks ++ [lateChunk]) (by decide) (by decide)).2
      (.linesNotFound [text "head"]) (by decide)
  exact ⟨⟨by decide, hsuccess.1⟩, by decide, before, chunk, behind, placed, reached, hchunks,
    hfollows, hunplaced⟩

end Placement

end Patchwork
