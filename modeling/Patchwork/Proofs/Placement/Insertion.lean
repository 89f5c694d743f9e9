import Patchwork.Proofs.Placement.Soundness

/-!
# Insertions among other replacements

An insertion goes in front of an empty line that ends the file.  A replacement that takes away
this line reaches below the insertion's place, and then the two may overlap: carrying them out
removes what was inserted.  Main statement: `Placement.replacements_apart_iff`, which says exactly
when no two replacements overlap.
-/

namespace Patchwork

namespace Placement

open Replacement (Apart Above RelatesInOrder)

/-- A replacement takes away the line in front of which insertions go. -/
def TakesEnd (lines : List Bytes) (replacement : Replacement) : Prop :=
  replacement.start ≤ insertionIndex lines ∧
    insertionIndex lines < replacement.start + replacement.oldLength

/-- Chunks and their replacements, in the order of the chunks, where no insertion comes behind a
replacement that takes away the empty line at the end, nor in front of one that takes away this
line together with lines above it. -/
def SparesInsertions (lines : List Bytes) : List Chunk → List Replacement → Prop
  | chunk :: chunks, replacement :: replacements =>
    (if chunk.oldLines = [] then
      ∀ later ∈ replacements, TakesEnd lines later → later.start = insertionIndex lines
    else TakesEnd lines replacement → ∀ later ∈ chunks, later.oldLines ≠ []) ∧
      SparesInsertions lines chunks replacements
  | _, _ => True

variable {lines : List Bytes} {cursor next reached : Nat} {chunks : List Chunk} {chunk : Chunk}
  {replacement later : Replacement} {placed : List Replacement}

/-- Every chunk without old lines has its insertion among the replacements. -/
theorem Follows.insertion_mem (hfollows : Follows lines cursor chunks placed reached)
    (hchunk : chunk ∈ chunks) (hold : chunk.oldLines = []) :
    ⟨insertionIndex lines, 0, chunk.newLines⟩ ∈ placed := by
  induction hfollows with
  | nil => exact absurd hchunk List.not_mem_nil
  | cons hplaced _ ih =>
    rcases List.mem_cons.mp hchunk with rfl | hchunk
    · cases hplaced with
      | insertion _ _ => exact List.mem_cons_self
      | block _ hne _ => exact absurd hold hne
    · exact List.mem_cons_of_mem _ (ih hchunk)

/-- An insertion may come in front of a replacement unless that one begins above its place and
takes away the line behind it. -/
theorem insertion_relates_iff (new : List Bytes) :
    RelatesInOrder Above ⟨insertionIndex lines, 0, new⟩ later ↔
      (TakesEnd lines later → later.start = insertionIndex lines) := by
  by_cases hle : Replacement.NoLater ⟨insertionIndex lines, 0, new⟩ later
  · rw [RelatesInOrder, if_pos hle]
    exact iff_of_true hle fun htaken => Nat.le_antisymm htaken.1 hle
  · rw [RelatesInOrder, if_neg hle]
    simp only [Replacement.NoLater, Above, TakesEnd] at hle ⊢
    omega

/-- An insertion may come behind a replacement unless that one takes away the line behind it. -/
theorem relates_insertion_iff (new : List Bytes) :
    RelatesInOrder Above replacement ⟨insertionIndex lines, 0, new⟩ ↔
      ¬ TakesEnd lines replacement := by
  by_cases hle : Replacement.NoLater replacement ⟨insertionIndex lines, 0, new⟩
  · rw [RelatesInOrder, if_pos hle, TakesEnd, not_and, not_lt]
    exact ⟨fun habove _ => habove, fun hnot => hnot hle⟩
  · rw [RelatesInOrder, if_neg hle]
    exact iff_of_true (Nat.le_of_not_le hle) fun htaken => hle htaken.1

/-- What comes behind a block of old lines begins below it or is an insertion. -/
theorem block_relates_iff
    (hfollows : Follows lines (replacement.start + replacement.oldLength) chunks placed reached) :
    (∀ later ∈ placed, RelatesInOrder Above replacement later) ↔
      (TakesEnd lines replacement → ∀ later ∈ chunks, later.oldLines ≠ []) := by
  constructor
  · intro hrelates htakes chunk hchunk hold
    exact (relates_insertion_iff _).mp (hrelates _ (hfollows.insertion_mem hchunk hold)) htakes
  · intro hspares later hlater
    rcases (hfollows.within hlater).2 with hbelow | ⟨chunk, hchunk, hold, rfl⟩
    · rw [RelatesInOrder, if_pos (Above.noLater hbelow)]
      exact hbelow
    · exact (relates_insertion_iff _).mpr fun htakes => hspares htakes chunk hchunk hold

theorem pairwise_relates_iff (hfollows : Follows lines cursor chunks placed reached) :
    placed.Pairwise (RelatesInOrder Above) ↔ SparesInsertions lines chunks placed := by
  induction hfollows with
  | nil => exact iff_of_true .nil trivial
  | cons hplaced hrest ih =>
    rw [List.pairwise_cons, SparesInsertions, ih]
    refine and_congr_left fun _ => ?_
    cases hplaced with
    | insertion _ hold =>
      rw [if_pos hold]
      exact forall₂_congr fun later _ => insertion_relates_iff _
    | block _ hold _ =>
      rw [if_neg hold]
      exact block_relates_iff hrest

/-- Nothing takes away the end of lines that do not end in an empty line. -/
theorem sparesInsertions_of_getLast?_ne (hlast : lines.getLast? ≠ some [])
    (hfollows : Follows lines cursor chunks placed reached) :
    SparesInsertions lines chunks placed := by
  have htakes : ∀ {replacement : Replacement},
      replacement.start + replacement.oldLength ≤ lines.length →
        ¬ TakesEnd lines replacement := by
    intro replacement hwithin ⟨_, hbelow⟩
    rw [insertionIndex, if_neg hlast] at hbelow
    omega
  induction hfollows with
  | nil => trivial
  | cons hplaced hrest ih =>
    refine ⟨?_, ih⟩
    split
    · exact fun later hlater htaken => absurd htaken (htakes (hrest.within hlater).1)
    · have hall := Follows.cons hplaced hrest
      exact fun htaken => absurd htaken (htakes (hall.within List.mem_cons_self).1)

/-- The replacements of chunks that may stand anywhere behind the cursor do not overlap exactly if
the insertions among them are spared.  Then carrying them out keeps every other line and puts all
new lines, inserted ones included, where the replacements stand.  If the lines do not end in an
empty line, insertions are always spared. -/
theorem replacements_apart_iff (lines : List Bytes) (chunks : List Chunk)
    (hend : ∀ chunk ∈ chunks, chunk.atEnd = false) (found : List Replacement)
    (hfound : replacements lines chunks = .ok found) :
    ∃ placed, placeAll lines 0 chunks = .ok placed ∧ found = Replacement.sort placed ∧
      (Apart lines found ↔ SparesInsertions lines chunks placed) ∧
      (Apart lines found → Replacement.Replaces 0 lines found (Replacement.spliceAll lines found)) ∧
      (lines.getLast? ≠ some [] → Apart lines found) := by
  rw [replacements] at hfound
  cases hplaced : placeAll lines 0 chunks with
  | error problem =>
    rw [hplaced] at hfound
    cases hfound
  | ok placed =>
    rw [hplaced] at hfound
    obtain rfl : Replacement.sort placed = found := Except.ok.inj hfound
    obtain ⟨reached, hfollows⟩ := follows_of_placeAll hend (Nat.zero_le _) hplaced
    have hwithin : ∀ replacement ∈ Replacement.sort placed,
        replacement.start + replacement.oldLength ≤ lines.length :=
      fun replacement hmem => (hfollows.within (Replacement.mem_sort.mp hmem)).1
    have hiff : Apart lines (Replacement.sort placed) ↔ SparesInsertions lines chunks placed := by
      rw [← pairwise_relates_iff hfollows, ← Replacement.pairwise_sort_iff]
      exact ⟨Apart.above, fun habove => ⟨habove, hwithin⟩⟩
    exact ⟨placed, rfl, rfl, hiff, Apart.replaces,
      fun hlast => hiff.mpr (sparesInsertions_of_getLast?_ne hlast hfollows)⟩

/-- Lines that end in an empty one. -/
def blankEnded : List Bytes := [text "a", []]

/-- Puts a line in the place of the empty one. -/
def fillBlank : Chunk := ⟨none, [[]], [text "z"], false⟩

/-- Only inserts a line. -/
def insertLine : Chunk := ⟨none, [], [text "x"], false⟩

/-- An insertion in front of the replacement of the empty line. -/
theorem replacements_apart_insertLine_fillBlank :
    replacements blankEnded [insertLine, fillBlank] =
        .ok [⟨1, 0, [text "x"]⟩, ⟨1, 1, [text "z"]⟩] ∧
      Replacement.Replaces 0 blankEnded [⟨1, 0, [text "x"]⟩, ⟨1, 1, [text "z"]⟩]
        [text "a", text "x", text "z"] := by
  have hfound : replacements blankEnded [insertLine, fillBlank] =
      .ok [⟨1, 0, [text "x"]⟩, ⟨1, 1, [text "z"]⟩] := by decide
  obtain ⟨_, _, _, _, hreplaces, _⟩ :=
    replacements_apart_iff blankEnded [insertLine, fillBlank] (by decide) _ hfound
  exact ⟨hfound, hreplaces (by decide)⟩

/-- The same chunks the other way round: the replacements overlap, and what was inserted is lost
with the new line in its place, while the empty line stays. -/
theorem not_apart_fillBlank_insertLine :
    (∀ chunk ∈ [fillBlank, insertLine], chunk.atEnd = false) ∧ insertLine.oldLines = [] ∧
      replacements blankEnded [fillBlank, insertLine] =
        .ok [⟨1, 1, [text "z"]⟩, ⟨1, 0, [text "x"]⟩] ∧
      ¬ Apart blankEnded [⟨1, 1, [text "z"]⟩, ⟨1, 0, [text "x"]⟩] ∧
      Replacement.spliceAll blankEnded [⟨1, 1, [text "z"]⟩, ⟨1, 0, [text "x"]⟩] =
        [text "a", text "z", []] := by
  decide

end Placement

end Patchwork
