import Patchwork.Proofs.Lines
import Patchwork.Proofs.Placement.Soundness

/-!
# Rebuilding a file from its lines

An updated file has every line of the spliced ones, each with a line feed behind it, but for one
empty line at their end, which is left out.  So replacements that put down the lines they take away
restore a file of whole lines exactly if it does not end in an empty one.  Main statement:
`Placement.updateContent_rebuilds`.
-/

namespace Patchwork

namespace Lines

/-- Every line, with a line feed behind it. -/
def ended (lines : List Bytes) : Bytes :=
  lines.flatMap fun line => line ++ [Bytes.newline]

theorem ended_concat (lines : List Bytes) (last : Bytes) :
    ended (lines ++ [last]) = ended lines ++ (last ++ [Bytes.newline]) := by
  rw [ended, List.flatMap_append, List.flatMap_singleton]
  rfl

/-- Joined with an empty line behind them, lines end in line feeds. -/
theorem join_concat_blank (lines : List Bytes) : join (lines ++ [[]]) = ended lines := by
  have hended : ended (lines ++ [[]]) = join (lines ++ [[]]) ++ [Bytes.newline] :=
    flatMap_concat_eq_intercalate Bytes.newline (List.append_ne_nil_of_right_ne_nil lines (by simp))
  rw [ended_concat, List.nil_append] at hended
  exact (List.append_cancel_right hended).symm

theorem toFile_eq_ended (lines : List Bytes) :
    toFile lines = ended (Placement.dropBlankEnd lines) := by
  rw [toFile, Placement.dropBlankEnd]
  split
  · rename_i byte rest hlast
    rw [hlast, if_neg (by simp)]
    exact join_concat_blank lines
  · rename_i hlast
    rw [hlast, if_neg (by simp)]
    exact join_concat_blank lines
  · rename_i hlast
    rw [if_pos hlast, ← join_concat_blank, Placement.dropLast_append_blank hlast]

/-- An empty line at the end that is left out is missed. -/
theorem ended_dropBlankEnd_eq_iff (lines : List Bytes) :
    ended (Placement.dropBlankEnd lines) = ended lines ↔ lines.getLast? ≠ some [] := by
  rw [Placement.dropBlankEnd]
  split
  · rename_i hlast
    have hended : ended lines = ended lines.dropLast ++ [Bytes.newline] := by
      rw [← List.nil_append [Bytes.newline], ← ended_concat, Placement.dropLast_append_blank hlast]
    rw [hended]
    simp [hlast]
  · rename_i hlast
    exact iff_of_true rfl hlast

end Lines

namespace Replacement

/-- The replacement puts down the very lines that it takes away. -/
def Restores (lines : List Bytes) (replacement : Replacement) : Prop :=
  (lines.drop replacement.start).take replacement.oldLength = replacement.newLines

theorem Restores.splice_eq {lines : List Bytes} {replacement : Replacement}
    (hrestores : replacement.Restores lines) : replacement.splice lines = lines := by
  rw [splice, ← hrestores, List.append_assoc, ← drop_eq_take_append_drop, List.take_append_drop]

theorem spliceAll_of_restores {lines : List Bytes} {replacements : List Replacement}
    (hrestores : ∀ replacement ∈ replacements, replacement.Restores lines) :
    spliceAll lines replacements = lines := by
  induction replacements with
  | nil => rfl
  | cons replacement replacements ih =>
    rw [List.forall_mem_cons] at hrestores
    change replacement.splice (spliceAll lines replacements) = lines
    rw [ih hrestores.2, hrestores.1.splice_eq]

end Replacement

namespace Placement

/-- The replacement takes away as many lines as one variant of the chunk's old lines has, and puts
down the new lines that come with them. -/
def Renders (chunk : Chunk) (replacement : Replacement) : Prop :=
  ∃ old, Variant chunk old replacement.newLines ∧ replacement.oldLength = old.length

section Runs

variable {lines : List Bytes} {cursor next : Nat} {chunk : Chunk} {chunks : List Chunk}
  {replacement : Replacement} {placed : List Replacement}

theorem renders_of_place (hplace : place lines cursor chunk = .ok (replacement, next)) :
    Renders chunk replacement := by
  obtain ⟨start, -, ⟨hold, rfl, -⟩ | ⟨-, ⟨found, hfound⟩, -⟩⟩ := exists_start_of_place hplace
  · exact ⟨chunk.oldLines, .whole, (List.length_eq_zero_iff.mpr hold).symm⟩
  · obtain ⟨old, new, hvariant, -, rfl⟩ := exists_seek_of_oldMatch hfound
    exact ⟨old, hvariant, rfl⟩

theorem exists_renders_of_placeAll (hplaced : placeAll lines cursor chunks = .ok placed)
    (hmem : replacement ∈ placed) : ∃ chunk ∈ chunks, Renders chunk replacement := by
  induction chunks generalizing cursor placed with
  | nil =>
    obtain rfl := Except.ok.inj hplaced
    cases hmem
  | cons first chunks ih =>
    obtain ⟨other, next, others, hplace, hrest, rfl⟩ := exists_of_placeAll_cons hplaced
    rcases List.mem_cons.mp hmem with rfl | hmem
    · exact ⟨first, List.mem_cons_self, renders_of_place hplace⟩
    · obtain ⟨chunk, hchunk, hrenders⟩ := ih hrest hmem
      exact ⟨chunk, List.mem_cons_of_mem first hchunk, hrenders⟩

/-- A chunk whose new lines are its old ones, found where these stand verbatim, changes nothing. -/
theorem Renders.restores (hrenders : Renders chunk replacement)
    (hsame : chunk.newLines = chunk.oldLines)
    (hverbatim : replacement.newLines <+: lines.drop replacement.start) :
    replacement.Restores lines := by
  obtain ⟨old, hvariant, hlength⟩ := hrenders
  have hnew : replacement.newLines = old := by
    generalize replacement.newLines = new at hvariant
    cases hvariant with
    | whole => exact hsame
    | shortened hold =>
      rw [hsame, hold, dropBlankEnd, List.getLast?_concat, if_pos rfl, List.dropLast_concat]
  rw [Replacement.Restores, hlength, ← hnew]
  exact (List.prefix_iff_eq_take.mp hverbatim).symm

end Runs

/-- The updated content has every line that carrying out the replacements leads to, each with a
line feed behind it, except for an empty line at the end.  If every chunk's new lines are its old
ones, and they stand verbatim where it is placed, a file of whole lines is left as it is exactly if
its last line is not empty. -/
theorem updateContent_rebuilds (content updated : Bytes) (chunks : List Chunk)
    (hupdated : updateContent content chunks = .ok updated) :
    ∃ found, replacements (Lines.ofFile content) chunks = .ok found ∧
      updated = Lines.ended
        (dropBlankEnd (Replacement.spliceAll (Lines.ofFile content) found)) ∧
      (updated = Lines.ended (Replacement.spliceAll (Lines.ofFile content) found) ↔
        (Replacement.spliceAll (Lines.ofFile content) found).getLast? ≠ some []) ∧
      ((∀ chunk ∈ chunks, chunk.newLines = chunk.oldLines) →
        (∀ replacement ∈ found,
          replacement.newLines <+: (Lines.ofFile content).drop replacement.start) →
        (content = [] ∨ content.getLast? = some Bytes.newline) →
        (updated = content ↔ (Lines.ofFile content).getLast? ≠ some [])) := by
  rw [updateContent] at hupdated
  cases hplaced : placeAll (Lines.ofFile content) 0 chunks with
  | error problem =>
    rw [replacements, hplaced] at hupdated
    cases hupdated
  | ok placed =>
    have hfound : replacements (Lines.ofFile content) chunks = .ok (Replacement.sort placed) := by
      rw [replacements, hplaced]
      rfl
    rw [hfound] at hupdated
    obtain rfl : Lines.toFile _ = updated := Except.ok.inj hupdated
    rw [Lines.toFile_eq_ended]
    refine ⟨_, hfound, rfl, Lines.ended_dropBlankEnd_eq_iff _, fun hsame hverbatim hwhole => ?_⟩
    have hrestores : ∀ replacement ∈ Replacement.sort placed,
        replacement.Restores (Lines.ofFile content) := by
      intro replacement hmem
      obtain ⟨chunk, hchunk, hrenders⟩ :=
        exists_renders_of_placeAll hplaced (Replacement.mem_sort.mp hmem)
      exact hrenders.restores (hsame chunk hchunk) (hverbatim replacement hmem)
    have hcontent : Lines.ended (Lines.ofFile content) = content := Lines.flatMap_ofFile hwhole
    rw [Replacement.spliceAll_of_restores hrestores, ← Lines.ended_dropBlankEnd_eq_iff, hcontent]

/-- Chunks that repeat what they find; the last one finds its old lines without the empty one. -/
def repeatingChunks : List Chunk :=
  [⟨none, [text "a", []], [text "a", []], false⟩, ⟨none, [text "b", []], [text "b", []], false⟩]

theorem updateContent_rebuilds_repeating :
    updateContent (text "a\n\nb\n") repeatingChunks = .ok (text "a\n\nb\n") ∧
      (Lines.ofFile (text "a\n\nb\n")).getLast? ≠ some [] ∧
      text "a\n\nb\n" = Lines.ended (Lines.ofFile (text "a\n\nb\n")) := by
  have hupdated : updateContent (text "a\n\nb\n") repeatingChunks = .ok (text "a\n\nb\n") := by
    decide
  obtain ⟨found, hfound, hended, -, hrestored⟩ := updateContent_rebuilds _ _ _ hupdated
  obtain rfl : [⟨0, 2, [text "a", []]⟩, ⟨2, 1, [text "b"]⟩] = found :=
    Except.ok.inj (Eq.trans (by decide) hfound)
  exact ⟨hupdated, (hrestored (by decide) (by decide) (by decide)).mp rfl, hended⟩

/-- A line that gives way to an empty one leaves nothing behind, not even a line feed, and a chunk
that changes nothing takes an empty line at the end of the file away. -/
theorem updateContent_blankEnd :
    replacements (Lines.ofFile (text "a\n")) [⟨none, [text "a"], [[]], false⟩] =
        .ok [⟨0, 1, [[]]⟩] ∧
      Lines.ended (Replacement.spliceAll (Lines.ofFile (text "a\n")) [⟨0, 1, [[]]⟩]) =
        text "\n" ∧
      updateContent (text "a\n") [⟨none, [text "a"], [[]], false⟩] = .ok [] ∧
      updateContent (text "a\n\n") [⟨none, [text "a"], [text "a"], false⟩] =
        .ok (text "a\n") := by
  decide

end Placement

end Patchwork
