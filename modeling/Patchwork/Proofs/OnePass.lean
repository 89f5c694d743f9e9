import Mathlib.Algebra.GroupWithZero.Nat
import Patchwork.Proofs.Splice
import Patchwork.Utf8

/-!
# Replacements in one pass

Carrying out replacements from the last to the first edits a list that grows and shrinks.  Where
they stand apart, it leads to what one pass from the first line to the last writes: no edit moves
a line that is still to be replaced.  Main statement: `Replacement.spliceAll_eq_copyAround`.
-/

namespace Patchwork

namespace Replacement

instance : IsTrans Replacement Above :=
  ⟨fun _ _ _ hfirst hsecond =>
    Nat.le_trans hfirst (Nat.le_trans (Nat.le_add_right _ _) hsecond)⟩

variable {lines result : List Bytes} {replacement : Replacement}
  {replacements before run behind : List Replacement} {position index : Nat}

/-- One pass writes the gaps and the new lines, and skips the segments. -/
theorem Replaces.copyAround_eq (hreplaces : Replaces position lines replacements result) :
    copyAround position lines replacements = result := by
  induction hreplaces with
  | nil => rfl
  | @cons gap old new position lines result replacements _ ih =>
    have hgap : position + gap.length - position = gap.length := Nat.add_sub_cancel_left _ _
    have hahead : (gap ++ old ++ lines).take gap.length = gap := by
      rw [List.append_assoc, List.take_left]
    have hbehind : (gap ++ old ++ lines).drop (gap.length + old.length) = lines := by
      rw [← List.length_append, List.drop_left]
    simp only [copyAround, hgap, hahead, hbehind, ih]

/-- A pass may stop anywhere between two replacements and go on from there. -/
theorem copyAround_append (hposition : position ≤ index)
    (hbefore : before.Pairwise Above) (hbegin : ∀ replacement ∈ before, position ≤ replacement.start)
    (hstop : ∀ replacement ∈ before, replacement.start + replacement.oldLength ≤ index)
    (hbehind : ∀ replacement ∈ behind, index ≤ replacement.start) :
    copyAround position lines (before ++ behind) =
      copyAround position (lines.take (index - position)) before ++
        copyAround index (lines.drop (index - position)) behind := by
  induction before generalizing position lines with
  | nil =>
    cases behind with
    | nil => exact (List.take_append_drop _ _).symm
    | cons next behind =>
      have hnext := hbehind next List.mem_cons_self
      have hgap : next.start - position = (index - position) + (next.start - index) := by omega
      simp only [List.nil_append, copyAround, hgap, List.take_add, List.drop_drop,
        List.append_assoc, Nat.add_assoc]
  | cons first before ih =>
    rw [List.pairwise_cons] at hbefore
    rw [List.forall_mem_cons] at hbegin hstop
    have hrest : ∀ left, copyAround (first.start + first.oldLength) left (before ++ behind) =
        copyAround (first.start + first.oldLength)
            (left.take (index - (first.start + first.oldLength))) before ++
          copyAround index (left.drop (index - (first.start + first.oldLength))) behind :=
      fun _ => ih hstop.1 hbefore.2 hbefore.1 hstop.2
    have htake : min (first.start - position) (index - position) = first.start - position := by
      have := hstop.1
      omega
    have hskip : first.start - position + first.oldLength +
        (index - (first.start + first.oldLength)) = index - position := by
      have := hbegin.1
      have := hstop.1
      omega
    have hleft : index - position - (first.start - position + first.oldLength) =
        index - (first.start + first.oldLength) := by
      omega
    simp only [List.cons_append, copyAround, hrest, List.take_take, htake, List.drop_take, hleft,
      List.drop_drop, hskip, List.append_assoc]

/-- What is written for a replacement that the pass has reached. -/
theorem copyAround_here (oldLength : Nat) (new : List Bytes) :
    copyAround index lines (⟨index, oldLength, new⟩ :: behind) =
      new ++ copyAround (index + oldLength) (lines.drop oldLength) behind := by
  simp only [copyAround, Nat.sub_self, List.take_zero, List.nil_append, Nat.zero_add]

/-- Replacements at one place write their new lines one behind the other, in their order. -/
theorem copyAround_run (hrun : ∀ replacement ∈ run, replacement.start = index)
    (habove : run.Pairwise Above) :
    copyAround index lines (run ++ behind) =
      run.flatMap newLines ++ copyAround (index + (run.map oldLength).sum)
        (lines.drop (run.map oldLength).sum) behind := by
  induction run with
  | nil => rfl
  | cons first run ih =>
    rw [List.pairwise_cons] at habove
    rw [List.forall_mem_cons] at hrun
    obtain ⟨start, oldLength, new⟩ := first
    obtain rfl : start = index := hrun.1
    rw [List.cons_append, copyAround_here, List.flatMap_cons, List.map_cons, List.sum_cons,
      List.append_assoc]
    cases run with
    | nil => simp
    | cons next run =>
      -- only the last one at a place may replace lines
      have hnext : start + oldLength ≤ next.start := habove.1 next List.mem_cons_self
      have hsame := hrun.2 next List.mem_cons_self
      obtain rfl : oldLength = 0 := by omega
      rw [Nat.add_zero, List.drop_zero, Nat.zero_add, ih hrun.2 habove.2]

/-- Replacements that are in order and do not overlap, each one ending at or above the beginning of
the next, are carried out from the last to the first as in one pass over the lines.  Those at one
place come out in their order: insertions one behind the other, and behind them the new lines of a
segment that is replaced there. -/
theorem spliceAll_eq_copyAround (lines : List Bytes) (replacements : List Replacement)
    (hchain : replacements.IsChain Above)
    (hwithin : ∀ replacement ∈ replacements,
      replacement.start + replacement.oldLength ≤ lines.length) :
    spliceAll lines replacements = copyAround 0 lines replacements ∧
      ∀ before run behind index, replacements = before ++ run ++ behind → run ≠ [] →
        (∀ replacement ∈ run, replacement.start = index) →
        spliceAll lines replacements =
          copyAround 0 (lines.take index) before ++ run.flatMap newLines ++
            copyAround (index + (run.map oldLength).sum)
              (lines.drop (index + (run.map oldLength).sum)) behind := by
  have hapart : Apart lines replacements := ⟨List.isChain_iff_pairwise.mp hchain, hwithin⟩
  have hpass : spliceAll lines replacements = copyAround 0 lines replacements :=
    hapart.replaces.copyAround_eq.symm
  refine ⟨hpass, fun before run behind index hsplit hne hrun => ?_⟩
  have habove := hapart.above
  obtain ⟨first, hfirst⟩ := List.exists_mem_of_ne_nil run hne
  rw [hsplit, List.append_assoc, List.pairwise_append, List.pairwise_append] at habove
  obtain ⟨hbefore, ⟨hruns, -, hbehind⟩, hstop⟩ := habove
  have hends : ∀ replacement ∈ before, replacement.start + replacement.oldLength ≤ index := by
    intro replacement hmem
    rw [← hrun first hfirst]
    exact hstop replacement hmem first (List.mem_append_left _ hfirst)
  have hbegins : ∀ replacement ∈ run ++ behind, index ≤ replacement.start := by
    intro replacement hmem
    rcases List.mem_append.mp hmem with hmem | hmem
    · exact (hrun replacement hmem).ge
    · rw [← hrun first hfirst]
      exact Above.noLater (hbehind first hfirst replacement hmem)
  calc spliceAll lines replacements = copyAround 0 lines (before ++ (run ++ behind)) := by
        rw [hpass, hsplit, List.append_assoc]
    _ = copyAround 0 (lines.take index) before ++
          copyAround index (lines.drop index) (run ++ behind) :=
        copyAround_append (Nat.zero_le _) hbefore (fun _ _ => Nat.zero_le _) hends hbegins
    _ = _ := by rw [copyAround_run hrun hruns, List.drop_drop, List.append_assoc]

/-- Two insertions and a segment at one place, and an insertion behind the last line. -/
def crowded : List Replacement :=
  [⟨1, 0, [text "x"]⟩, ⟨1, 0, [text "y"]⟩, ⟨1, 1, [text "z"]⟩, ⟨3, 0, [text "w"]⟩]

theorem spliceAll_eq_copyAround_crowded :
    crowded.IsChain Above ∧
      spliceAll [text "a", text "b", text "c"] crowded =
        copyAround 0 [text "a", text "b", text "c"] crowded ∧
      spliceAll [text "a", text "b", text "c"] crowded =
        [text "a", text "x", text "y", text "z", text "c", text "w"] := by
  have hchain : crowded.IsChain Above := by decide
  obtain ⟨hpass, hruns⟩ :=
    spliceAll_eq_copyAround [text "a", text "b", text "c"] crowded hchain (by decide)
  refine ⟨hchain, hpass, ?_⟩
  rw [hruns [] _ _ 1 (List.take_append_drop 3 crowded).symm (by decide) (by decide)]
  decide

end Replacement

end Patchwork
