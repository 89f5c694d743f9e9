import Patchwork.Placement
import Patchwork.Proofs.Search
import Patchwork.Proofs.Splice

/-!
# Old lines that are found where they are meant

Lines are cut into passages, each with a gap that stays and old lines that give way to new ones.
If the first verbatim occurrence of the old lines behind the passage above is their own place,
chunks with these old and new lines change the lines exactly there.  Main statement:
`Passage.replacements_original`.
-/

namespace Patchwork

/-- Lines that stay, and behind them lines that give way to new ones. -/
structure Passage where
  gap : List Bytes
  old : List Bytes
  new : List Bytes
  deriving DecidableEq, Repr

namespace Passage

/-- The chunk that changes a passage. -/
def chunk (passage : Passage) : Chunk :=
  { anchor := none, oldLines := passage.old, newLines := passage.new, atEnd := false }

/-- Passages and the lines behind them, before the change. -/
def original (passages : List Passage) (tail : List Bytes) : List Bytes :=
  passages.flatMap (fun passage => passage.gap ++ passage.old) ++ tail

/-- Passages and the lines behind them, after the change. -/
def updated (passages : List Passage) (tail : List Bytes) : List Bytes :=
  passages.flatMap (fun passage => passage.gap ++ passage.new) ++ tail

/-- Every passage has old lines, which do not occur verbatim in the lines between the end of the
passage above, or the given position, and their own place. -/
def Unambiguous (lines : List Bytes) (position : Nat) : List Passage → Prop
  | [] => True
  | passage :: rest =>
    passage.old ≠ [] ∧
      (∀ offset < passage.gap.length, ¬ passage.old <+: lines.drop (position + offset)) ∧
      Unambiguous lines (position + passage.gap.length + passage.old.length) rest

instance decidableUnambiguous (lines : List Bytes) (position : Nat) :
    (passages : List Passage) → Decidable (Unambiguous lines position passages)
  | [] => .isTrue trivial
  | passage :: rest =>
    have := decidableUnambiguous lines (position + passage.gap.length + passage.old.length) rest
    inferInstanceAs (Decidable (_ ∧ _ ∧ _))

/-- The replacements of the passages' old lines. -/
def cuts (position : Nat) : List Passage → List Replacement
  | [] => []
  | passage :: rest =>
    ⟨position + passage.gap.length, passage.old.length, passage.new⟩ ::
      cuts (position + passage.gap.length + passage.old.length) rest

variable {passages : List Passage} {tail : List Bytes} {position : Nat}

theorem replaces_cuts (passages : List Passage) (tail : List Bytes) (position : Nat) :
    Replacement.Replaces position (original passages tail) (cuts position passages)
      (updated passages tail) := by
  induction passages generalizing position with
  | nil => exact .nil position tail
  | cons passage passages ih =>
    have hcons := Replacement.Replaces.cons passage.gap passage.old passage.new
      (ih (position + passage.gap.length + passage.old.length))
    rw [original, updated, List.flatMap_cons, List.flatMap_cons, List.append_assoc,
      List.append_assoc _ _ tail]
    exact hcons

theorem le_start_of_mem_cuts {replacement : Replacement}
    (hmem : replacement ∈ cuts position passages) : position ≤ replacement.start := by
  induction passages generalizing position with
  | nil => exact absurd hmem List.not_mem_nil
  | cons passage passages ih =>
    rcases List.mem_cons.mp hmem with rfl | hmem
    · exact Nat.le_add_right _ _
    · have hbelow := ih hmem
      omega

theorem pairwise_cuts (passages : List Passage) (position : Nat) :
    (cuts position passages).Pairwise Replacement.Above := by
  induction passages generalizing position with
  | nil => exact .nil
  | cons passage passages ih =>
    exact List.pairwise_cons.mpr ⟨fun _ hmem => le_start_of_mem_cuts hmem, ih _⟩

/-- One chunk is placed where its passage has its old lines. -/
theorem place_chunk {lines rest : List Bytes} {passage : Passage} (hold : passage.old ≠ [])
    (hlines : lines.drop position = passage.gap ++ (passage.old ++ rest))
    (hfirst : ∀ offset < passage.gap.length, ¬ passage.old <+: lines.drop (position + offset)) :
    Placement.place lines position passage.chunk =
      .ok (⟨position + passage.gap.length, passage.old.length, passage.new⟩,
        position + passage.gap.length + passage.old.length) := by
  have hopens : passage.old <+: lines.drop (position + passage.gap.length) := by
    rw [← List.drop_drop, hlines, List.drop_left]
    exact List.prefix_append _ _
  have hbefore : ∀ earlier, position ≤ earlier → earlier < position + passage.gap.length →
      ¬ passage.old <+: lines.drop earlier := by
    intro earlier hle hlt
    obtain ⟨offset, rfl⟩ := Nat.exists_eq_add_of_le hle
    exact hfirst offset (by omega)
  have hseek := seek_of_first hold (Nat.le_add_right position _) hopens hbefore
  rw [Placement.place]
  simp only [Placement.searchStart, Placement.oldMatch, chunk, hseek, if_neg hold]

theorem placeAll_chunks {lines : List Bytes}
    (hlines : lines.drop position = original passages tail)
    (hfirst : Unambiguous lines position passages) :
    Placement.placeAll lines position (passages.map chunk) = .ok (cuts position passages) := by
  induction passages generalizing position with
  | nil => rfl
  | cons passage passages ih =>
    obtain ⟨hold, hbefore, hrest⟩ := hfirst
    have hsplit : lines.drop position =
        passage.gap ++ (passage.old ++ original passages tail) := by
      rw [hlines, original, List.flatMap_cons, List.append_assoc, List.append_assoc]
      rfl
    have hbehind : lines.drop (position + passage.gap.length + passage.old.length) =
        original passages tail := by
      rw [← List.drop_drop, ← List.drop_drop, hsplit, List.drop_left, List.drop_left]
    rw [List.map_cons, Placement.placeAll, place_chunk hold hsplit hbefore]
    simp only [ih hbehind hrest]
    rfl

/-- Chunks whose old lines first occur, verbatim and behind the chunk above, where they are meant
all have their place, and they change exactly the passages that they are made for. -/
theorem replacements_original (passages : List Passage) (tail : List Bytes)
    (hfirst : Unambiguous (original passages tail) 0 passages) :
    ∃ found, Placement.replacements (original passages tail) (passages.map chunk) = .ok found ∧
      Replacement.spliceAll (original passages tail) found = updated passages tail := by
  have hplaced := placeAll_chunks List.drop_zero hfirst
  refine ⟨cuts 0 passages, ?_, (replaces_cuts passages tail 0).spliceAll_eq⟩
  rw [Placement.replacements, hplaced]
  exact congrArg Except.ok (Replacement.sort_eq_self (pairwise_cuts passages 0))

/-- Adjacent old lines, some with an empty line at their end, below lines that they match under
looser tiers. -/
def adjacentPassages : List Passage :=
  [⟨[text "a ", []], [text "a", []], [text "b"]⟩, ⟨[], [[]], []⟩,
    ⟨[text " a"], [text "a", text "a"], [text "c", []]⟩]

theorem replacements_original_adjacent :
    Unambiguous (original adjacentPassages [[]]) 0 adjacentPassages ∧
      ∃ found,
        Placement.replacements (original adjacentPassages [[]]) (adjacentPassages.map chunk) =
          .ok found ∧
        Replacement.spliceAll (original adjacentPassages [[]]) found =
          [text "a ", [], text "b", text " a", text "c", [], []] :=
  ⟨by decide, replacements_original adjacentPassages [[]] (by decide)⟩

end Passage

end Patchwork
