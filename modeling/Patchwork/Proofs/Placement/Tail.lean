import Patchwork.Proofs.Placement.Cursor

/-!
# Chunks that are bound to the end of the file

Old lines that are bound to the end are looked for in the last lines, also when an empty line at
their end is left out.  A single empty line that the file does not end in leaves nothing to look
for: then the chunk is placed at its start, which may stand anywhere above the end.  Main
statement: `Placement.replacements_atEnd`.
-/

namespace Patchwork

namespace Placement

namespace Placing

/-- The replacement ends where the lines end. -/
def EndsLines (lines : List Bytes) (placing : Placing) : Prop :=
  placing.replacement.start + placing.replacement.oldLength = lines.length

/-- The old lines are an empty line alone, and the last line does not match it under any tier. -/
def Vanishes (lines : List Bytes) (placing : Placing) : Prop :=
  placing.chunk.oldLines = [[]] ∧
    ∀ tier : Tier, ¬ tier.Matches lines [[]] (lines.length - 1)

variable {lines : List Bytes} {placing : Placing}

/-- Old lines that vanish replace no line, and the new ones go to the start. -/
theorem Found.replacement_eq (hfound : placing.Found lines) (hend : placing.chunk.atEnd = true)
    (hvanishes : placing.Vanishes lines) :
    placing.replacement = ⟨placing.start, 0, dropBlankEnd placing.chunk.newLines⟩ := by
  obtain ⟨found, hfound⟩ := hfound
  obtain ⟨hold, hunmatched⟩ := hvanishes
  rw [oldMatch, hold, hend] at hfound
  split at hfound
  · rename_i whole hwhole
    obtain ⟨hlast, hmatch⟩ := seek_atEnd_spec (List.cons_ne_nil _ _) hwhole
    have hindex : whole.index = lines.length - 1 := Nat.eq_sub_of_add_eq hlast
    exact absurd (hindex ▸ hmatch) (hunmatched whole.tier)
  · obtain ⟨-, heq⟩ := Prod.mk.inj (Option.some.inj hfound)
    exact heq.symm

/-- Old lines that do not vanish are found in the last lines. -/
theorem Found.endsLines (hfound : placing.Found lines) (hend : placing.chunk.atEnd = true)
    (hblock : placing.IsBlock) (hstays : ¬ placing.Vanishes lines) : placing.EndsLines lines := by
  obtain ⟨found, hfound⟩ := hfound
  rw [oldMatch, hend] at hfound
  rw [EndsLines]
  split at hfound
  · rename_i whole hwhole
    rw [← (Prod.mk.inj (Option.some.inj hfound)).2]
    exact (seek_atEnd_spec hblock hwhole).1
  · rename_i hwhole
    split at hfound
    · rename_i hblank
      obtain ⟨shorter, hshorter, heq⟩ := Option.map_eq_some_iff.mp hfound
      rw [← (Prod.mk.inj heq).2]
      refine (seek_atEnd_spec (fun hnil => hstays ?_) hshorter).1
      -- nothing is left of the old lines without the empty one
      have hold : placing.chunk.oldLines = [[]] := by
        rw [← dropLast_append_blank hblank, hnil, List.nil_append]
      rw [hold] at hwhole
      exact ⟨hold, not_matches_of_seek_atEnd hwhole⟩
    · cases hfound

end Placing

/-- Every chunk that replaces lines and is bound to the end of the file replaces its last lines,
unless its old lines vanish: then it inserts its new lines at its start, behind its anchor and the
chunks before it, and these stand at the end of the file only if the start does. -/
theorem replacements_atEnd (lines : List Bytes) (chunks : List Chunk) (found : List Replacement)
    (hfound : replacements lines chunks = .ok found) :
    ∃ placings : List Placing, placings.map Placing.chunk = chunks ∧
      found = Replacement.sort (placings.map Placing.replacement) ∧
      Chained lines 0 placings ∧
      ∀ placing ∈ placings, placing.IsBlock → placing.chunk.atEnd = true →
        (placing.EndsLines lines ↔
          ¬ placing.Vanishes lines ∨ placing.start = lines.length) ∧
        (placing.Vanishes lines → placing.replacement =
          ⟨placing.start, 0, dropBlankEnd placing.chunk.newLines⟩) := by
  rw [replacements] at hfound
  cases hplaced : placeAll lines 0 chunks with
  | error problem =>
    rw [hplaced] at hfound
    cases hfound
  | ok placed =>
    rw [hplaced] at hfound
    obtain rfl : Replacement.sort placed = found := Except.ok.inj hfound
    obtain ⟨placings, hchunks, rfl, hchained, -, -, hblocks⟩ :=
      exists_found_placings (Nat.zero_le _) hplaced
    refine ⟨placings, hchunks, rfl, hchained, fun placing hplacing hblock hend => ?_⟩
    have hfound := (hblocks placing hplacing hblock).2
    refine ⟨?_, hfound.replacement_eq hend⟩
    by_cases hvanishes : placing.Vanishes lines
    · rw [Placing.EndsLines, hfound.replacement_eq hend hvanishes]
      simp [hvanishes]
    · exact iff_of_true (hfound.endsLines hend hblock hvanishes) (.inl hvanishes)

/-- A chunk at the end of the file, behind an anchor, whose old lines are found there only without
their empty line. -/
def retriedChunk : Chunk :=
  ⟨some (text "a"), [text "c", []], [text "z", []], true⟩

theorem replacements_atEnd_retried :
    replacements [text "a", text "b", text "c"] [retriedChunk] = .ok [⟨2, 1, [text "z"]⟩] ∧
      ∃ placing : Placing, placing.chunk = retriedChunk ∧
        placing.EndsLines [text "a", text "b", text "c"] := by
  have hfound : replacements [text "a", text "b", text "c"] [retriedChunk] =
      .ok [⟨2, 1, [text "z"]⟩] := by decide
  obtain ⟨placings, hchunks, -, -, hends⟩ := replacements_atEnd _ _ _ hfound
  obtain ⟨placing, rfl, hchunk⟩ := List.map_eq_singleton_iff.mp hchunks
  have hblock : placing.IsBlock := by
    rw [Placing.IsBlock, hchunk]
    decide
  have hend : placing.chunk.atEnd = true := by
    rw [hchunk]
    rfl
  have hstays : ¬ placing.Vanishes [text "a", text "b", text "c"] := by
    rw [Placing.Vanishes, hchunk]
    exact fun hvanishes => absurd hvanishes.1 (by decide)
  have hplacing := hends placing (List.mem_singleton_self placing) hblock hend
  exact ⟨hfound, placing, hchunk, hplacing.1.mpr (.inl hstays)⟩

/-- An empty line that the file does not end in: the chunk that it stands in is bound to the end,
and its new lines go above the first line. -/
theorem replacements_vanishing :
    replacements [text "a"] [⟨none, [[]], [[], text "x"], true⟩] =
        .ok [⟨0, 0, [[], text "x"]⟩] ∧
      Replacement.spliceAll [text "a"] [⟨0, 0, [[], text "x"]⟩] =
        [[], text "x", text "a"] := by
  decide

end Placement

end Patchwork
