import Patchwork.Proofs.Placement.Soundness

/-!
# How the cursor advances

The cursor only moves down the lines, and old lines that may stand anywhere are found at the
cursor or below it.  Old lines that are bound to the end of the file are looked for there, also
if the cursor has passed that place; then a chunk replaces lines that an earlier one replaced, or
that stand above its own anchor.  Main statement: `Placement.replacements_advance`, which says
exactly when a chunk stays below the cursor.
-/

namespace Patchwork

namespace Placement

/-- A chunk, the position behind its anchor from which its old lines are looked for, and the
replacement that it leads to. -/
structure Placing where
  chunk : Chunk
  start : Nat
  replacement : Replacement

namespace Placing

/-- The chunk replaces lines: it does not only insert some. -/
def IsBlock (placing : Placing) : Prop :=
  placing.chunk.oldLines ≠ []

/-- Where the cursor stands behind the chunk. -/
def next (placing : Placing) : Nat :=
  if placing.chunk.oldLines = [] then placing.start
  else placing.replacement.start + placing.replacement.oldLength

/-- There are as many lines behind the start as the chunk replaces. -/
def HasRoom (lines : List Bytes) (placing : Placing) : Prop :=
  placing.start + placing.replacement.oldLength ≤ lines.length

/-- The replacement comes from the match of the chunk's old lines. -/
def Found (lines : List Bytes) (placing : Placing) : Prop :=
  ∃ found, oldMatch lines placing.start placing.chunk = some (found, placing.replacement)

end Placing

/-- Chunks are placed one after another: the anchor of each one is looked for at the cursor that
the chunks before it leave, and its old lines behind the anchor. -/
inductive Chained (lines : List Bytes) : Nat → List Placing → Prop
  | nil (cursor : Nat) : Chained lines cursor []
  | cons {cursor : Nat} {placing : Placing} {placings : List Placing}
      (hanchor : Anchored lines cursor placing.chunk.anchor placing.start)
      (hrest : Chained lines placing.next placings) :
      Chained lines cursor (placing :: placings)

/-- A block stands in the lines, at its start or below it unless it is bound to the end and ends
there. -/
structure Lands (lines : List Bytes) (placing : Placing) : Prop where
  start_le : placing.start ≤ lines.length
  within : placing.replacement.start + placing.replacement.oldLength ≤ lines.length
  below : placing.start ≤ placing.replacement.start ∨ placing.chunk.atEnd = true ∧
    placing.replacement.start + placing.replacement.oldLength = lines.length

section Blocks

variable {lines : List Bytes} {start : Nat} {chunk : Chunk} {placing : Placing}
  {replacement : Replacement} {found : Match}

/-- Any of the old lines' variants that is found stands in the lines, and ends them if it is bound
to the end and found above the start. -/
theorem lands_of_seek {pattern new : List Bytes} (hstart : start ≤ lines.length)
    (hfound : seek lines pattern start chunk.atEnd = some found) :
    Lands lines ⟨chunk, start, ⟨found.index, pattern.length, new⟩⟩ := by
  by_cases hpattern : pattern = []
  · subst hpattern
    rw [seek_nil] at hfound
    obtain rfl := Option.some.inj hfound
    exact ⟨hstart, hstart, .inl le_rfl⟩
  · cases hend : chunk.atEnd with
    | false =>
      rw [hend] at hfound
      obtain ⟨hbelow, hmatch⟩ := seek_spec hfound
      exact ⟨hstart, hmatch.within hpattern, .inl hbelow⟩
    | true =>
      rw [hend] at hfound
      obtain ⟨hlast, -⟩ := seek_atEnd_spec hpattern hfound
      exact ⟨hstart, hlast.le, .inr ⟨hend, hlast⟩⟩

theorem lands_of_oldMatch (hstart : start ≤ lines.length)
    (hfound : oldMatch lines start chunk = some (found, replacement)) :
    Lands lines ⟨chunk, start, replacement⟩ := by
  obtain ⟨old, new, -, hseek, rfl⟩ := exists_seek_of_oldMatch hfound
  exact lands_of_seek hstart hseek

theorem Lands.start_le_iff (hlands : Lands lines placing) :
    placing.start ≤ placing.replacement.start ↔ placing.HasRoom lines := by
  have hwithin := hlands.within
  rw [Placing.HasRoom]
  constructor
  · intro hbelow
    omega
  · intro hroom
    rcases hlands.below with hbelow | ⟨-, hlast⟩
    · exact hbelow
    · omega

theorem Lands.start_le_next (hlands : Lands lines placing) : placing.start ≤ placing.next := by
  rw [Placing.next]
  split
  · exact le_rfl
  · rcases hlands.below with hbelow | ⟨-, hlast⟩
    · exact Nat.le_add_right_of_le hbelow
    · rw [hlast]
      exact hlands.start_le

end Blocks

section Runs

variable {lines : List Bytes} {cursor next : Nat} {chunk : Chunk} {chunks : List Chunk}
  {replacement : Replacement} {placed : List Replacement} {placings : List Placing}

theorem exists_placing_of_place (hcursor : cursor ≤ lines.length)
    (hplace : place lines cursor chunk = .ok (replacement, next)) :
    ∃ start, Anchored lines cursor chunk.anchor start ∧
      (⟨chunk, start, replacement⟩ : Placing).next = next ∧ start ≤ next ∧ next ≤ lines.length ∧
      (chunk.oldLines ≠ [] → Lands lines ⟨chunk, start, replacement⟩ ∧
        (⟨chunk, start, replacement⟩ : Placing).Found lines) := by
  obtain ⟨start, hanchor, ⟨hold, rfl, rfl⟩ | ⟨hold, ⟨found, hfound⟩, rfl⟩⟩ :=
    exists_start_of_place hplace
  · exact ⟨next, hanchor, if_pos hold, le_rfl, hanchor.le_length hcursor,
      fun hne => absurd hold hne⟩
  · have hlands := lands_of_oldMatch (hanchor.le_length hcursor) hfound
    have hnext : (⟨chunk, start, replacement⟩ : Placing).next =
        replacement.start + replacement.oldLength := if_neg hold
    exact ⟨start, hanchor, hnext, hnext ▸ hlands.start_le_next, hlands.within,
      fun _ => ⟨hlands, found, hfound⟩⟩

theorem exists_found_placings (hcursor : cursor ≤ lines.length)
    (hplaced : placeAll lines cursor chunks = .ok placed) :
    ∃ placings : List Placing, placings.map Placing.chunk = chunks ∧
      placings.map Placing.replacement = placed ∧ Chained lines cursor placings ∧
      (∀ placing ∈ placings, cursor ≤ placing.start) ∧
      placings.Pairwise (fun earlier later => earlier.next ≤ later.start) ∧
      ∀ placing ∈ placings, placing.IsBlock → Lands lines placing ∧ placing.Found lines := by
  induction chunks generalizing cursor placed with
  | nil =>
    obtain rfl := Except.ok.inj hplaced
    exact ⟨[], rfl, rfl, .nil cursor, List.forall_mem_nil _, .nil, List.forall_mem_nil _⟩
  | cons chunk chunks ih =>
    obtain ⟨replacement, next, rest, hplace, hrest, rfl⟩ := exists_of_placeAll_cons hplaced
    obtain ⟨start, hanchor, rfl, hnext, hlength, hlands⟩ := exists_placing_of_place hcursor hplace
    obtain ⟨placings, hchunks, hreplacements, hchained, hbelow, hpairwise, hblocks⟩ :=
      ih hlength hrest
    have hcursor_le : ∀ placing ∈ placings, cursor ≤ placing.start := by
      intro placing hplacing
      calc cursor ≤ start := hanchor.cursor_le
        _ ≤ _ := hnext
        _ ≤ placing.start := hbelow placing hplacing
    refine ⟨⟨chunk, start, replacement⟩ :: placings, ?_, ?_, .cons hanchor hchained, ?_, ?_, ?_⟩
    · rw [List.map_cons, hchunks]
    · rw [List.map_cons, hreplacements]
    · exact List.forall_mem_cons.mpr ⟨hanchor.cursor_le, hcursor_le⟩
    · exact List.pairwise_cons.mpr ⟨hbelow, hpairwise⟩
    · exact List.forall_mem_cons.mpr ⟨hlands, hblocks⟩

theorem exists_placings_of_placeAll (hcursor : cursor ≤ lines.length)
    (hplaced : placeAll lines cursor chunks = .ok placed) :
    ∃ placings : List Placing, placings.map Placing.chunk = chunks ∧
      placings.map Placing.replacement = placed ∧ Chained lines cursor placings ∧
      (∀ placing ∈ placings, cursor ≤ placing.start) ∧
      placings.Pairwise (fun earlier later => earlier.next ≤ later.start) ∧
      ∀ placing ∈ placings, placing.IsBlock → Lands lines placing := by
  obtain ⟨placings, hchunks, hreplacements, hchained, hbelow, hpairwise, hblocks⟩ :=
    exists_found_placings hcursor hplaced
  exact ⟨placings, hchunks, hreplacements, hchained, hbelow, hpairwise,
    fun placing hplacing hblock => (hblocks placing hplacing hblock).1⟩

end Runs

/-- The chunks of an update are placed one after another, and the cursor never moves back: none is
looked for above the place at which an earlier one left it.  Old lines that may stand anywhere are
found at their start or below it; old lines that are bound to the end stay below their start
exactly if there is room for them.  A chunk with room does not touch the lines of an earlier one. -/
theorem replacements_advance (lines : List Bytes) (chunks : List Chunk) (found : List Replacement)
    (hfound : replacements lines chunks = .ok found) :
    ∃ placings : List Placing, placings.map Placing.chunk = chunks ∧
      found = Replacement.sort (placings.map Placing.replacement) ∧
      Chained lines 0 placings ∧
      placings.Pairwise (fun earlier later =>
        earlier.next ≤ later.start ∧
          (earlier.IsBlock → later.IsBlock → later.HasRoom lines →
            earlier.replacement.Above later.replacement)) ∧
      ∀ placing ∈ placings, placing.IsBlock →
        placing.start ≤ placing.next ∧
        (placing.chunk.atEnd = false → placing.start ≤ placing.replacement.start) ∧
        (placing.start ≤ placing.replacement.start ↔ placing.HasRoom lines) := by
  rw [replacements] at hfound
  cases hplaced : placeAll lines 0 chunks with
  | error problem =>
    rw [hplaced] at hfound
    cases hfound
  | ok placed =>
    rw [hplaced] at hfound
    obtain rfl : Replacement.sort placed = found := Except.ok.inj hfound
    obtain ⟨placings, hchunks, rfl, hchained, -, hpairwise, hblocks⟩ :=
      exists_placings_of_placeAll (Nat.zero_le _) hplaced
    refine ⟨placings, hchunks, rfl, hchained, ?_, ?_⟩
    · apply hpairwise.imp_of_mem
      intro earlier later _ hlater hnext
      refine ⟨hnext, fun hearlier hblock hroom => ?_⟩
      have hstop : earlier.next = earlier.replacement.start + earlier.replacement.oldLength :=
        if_neg hearlier
      calc earlier.replacement.start + earlier.replacement.oldLength
          = earlier.next := hstop.symm
        _ ≤ later.start := hnext
        _ ≤ later.replacement.start := (hblocks later hlater hblock).start_le_iff.mpr hroom
    · intro placing hplacing hblock
      have hlands := hblocks placing hplacing hblock
      refine ⟨hlands.start_le_next, fun hend => ?_, hlands.start_le_iff⟩
      rcases hlands.below with hbelow | ⟨hbound, -⟩
      · exact hbelow
      · rw [hend] at hbound
        cases hbound

/-- A chunk behind an anchor and one that is bound to the end of the file. -/
def anchoredThenLast : List Chunk :=
  [⟨some (text "c"), [text "a"], [text "x"], false⟩, ⟨none, [text "b"], [text "y"], true⟩]

theorem replacements_advance_withRoom :
    ∃ placings : List Placing, placings.map Placing.chunk = anchoredThenLast ∧
      [⟨1, 1, [text "x"]⟩, ⟨2, 1, [text "y"]⟩] =
        Replacement.sort (placings.map Placing.replacement) ∧
      Chained [text "c", text "a", text "b"] 0 placings ∧
      placings.Pairwise (fun earlier later =>
        earlier.next ≤ later.start ∧
          (earlier.IsBlock → later.IsBlock → later.HasRoom [text "c", text "a", text "b"] →
            earlier.replacement.Above later.replacement)) ∧
      ∀ placing ∈ placings, placing.IsBlock →
        placing.start ≤ placing.next ∧
        (placing.chunk.atEnd = false → placing.start ≤ placing.replacement.start) ∧
        (placing.start ≤ placing.replacement.start ↔
          placing.HasRoom [text "c", text "a", text "b"]) :=
  replacements_advance [text "c", text "a", text "b"] anchoredThenLast
    [⟨1, 1, [text "x"]⟩, ⟨2, 1, [text "y"]⟩] (by decide)

/-- Of the lines `a` and `b`, a chunk replaces `b` and leaves the cursor behind it.  The next one
has no room there; it is bound to the end, is found above the cursor and replaces `b` again. -/
theorem replacements_lastTwice :
    place [text "a", text "b"] 0 ⟨none, [text "b"], [text "x"], false⟩ =
        .ok (⟨1, 1, [text "x"]⟩, 2) ∧
      place [text "a", text "b"] 2 ⟨none, [text "b"], [text "y"], true⟩ =
        .ok (⟨1, 1, [text "y"]⟩, 2) ∧
      replacements [text "a", text "b"]
          [⟨none, [text "b"], [text "x"], false⟩, ⟨none, [text "b"], [text "y"], true⟩] =
        .ok [⟨1, 1, [text "x"]⟩, ⟨1, 1, [text "y"]⟩] := by
  decide

end Placement

end Patchwork
