import Patchwork.Proofs.Diff.Heading
import Patchwork.Proofs.Diff.Sections

/-!
# Reading printed sections

A section is printed as its heading and its signed lines, each with a mark behind it if no line
feed ends it.  The reader finds the sections again, however many lines follow.
-/

namespace Patchwork

namespace Diff

open Bytes

/-! ## Signed lines -/

namespace Side

/-- The sign that says on which sides a line stands. -/
def sign : Side → UInt8
  | both => keptSign
  | oldOnly => deletedSign
  | newOnly => insertedSign

theorem ofSign?_sign (side : Side) : ofSign? side.sign = some side := by
  cases side <;> rfl

theorem sign_ne_newline (side : Side) : side.sign ≠ newline := by
  cases side <;> decide

/-- A signed line cannot be taken for a mark. -/
theorem sign_ne_mark (side : Side) : side.sign ≠ 92 := by
  cases side <;> decide

end Side

theorem missingEndLine_eq : missingEndLine = 92 :: missingEndLine.tail := by decide

namespace SignedLine

/-- The lines of the text that show a signed line. -/
def printed (line : SignedLine) : List Bytes :=
  if line.2.getLast? = some newline then [line.1.sign :: line.2]
  else [line.1.sign :: (line.2 ++ [newline]), missingEndLine]

theorem flatten_printed (line : SignedLine) :
    line.printed.flatten = formatLine line.1.sign line.2 := by
  rw [printed, formatLine]
  by_cases hended : line.2.getLast? = some newline
  · rw [if_pos hended, if_pos hended, List.append_nil, List.flatten_singleton]
  · have hmark : missingEnd = newline :: missingEndLine := by decide
    rw [if_neg hended, if_neg hended, hmark]
    simp

theorem ended_printed (line : SignedLine) (hline : newline ∉ line.2.dropLast) :
    ∀ shown ∈ line.printed, Lines.Ended shown := by
  have hsign := line.1.sign_ne_newline.symm
  rw [printed]
  by_cases hended : line.2.getLast? = some newline
  · rw [if_pos hended, List.forall_mem_singleton]
    refine ⟨line.1.sign :: line.2.dropLast,
      List.not_mem_cons_of_ne_of_not_mem hsign hline, ?_⟩
    rw [List.cons_append, List.dropLast_append_getLast? newline hended]
  · rw [if_neg hended, List.forall_mem_cons, List.forall_mem_singleton]
    refine ⟨⟨line.1.sign :: line.2, List.not_mem_cons_of_ne_of_not_mem hsign ?_, rfl⟩,
      missingEndLine.dropLast, by decide, by decide⟩
    intro hmem
    have hne := List.ne_nil_of_mem hmem
    rw [← List.dropLast_append_getLast hne, List.mem_append, List.mem_singleton] at hmem
    rw [List.getLast?_eq_some_getLast hne, Option.some.injEq] at hended
    rcases hmem with hmem | heq
    · exact hline hmem
    · exact hended heq.symm

/-- What the reader is left with behind a line that it takes one of both counts for. -/
theorem counts_of_sides (side : Side) (content : Bytes) (old new : Nat) :
    ¬ ((oldLines [(side, content)]).length + old = 0 ∧
        (newLines [(side, content)]).length + new = 0) ∧
      ¬ ((side ≠ .newOnly ∧ (oldLines [(side, content)]).length + old = 0) ∨
        (side ≠ .oldOnly ∧ (newLines [(side, content)]).length + new = 0)) ∧
      (if side = .newOnly then (oldLines [(side, content)]).length + old
        else (oldLines [(side, content)]).length + old - 1) = old ∧
      (if side = .oldOnly then (newLines [(side, content)]).length + new
        else (newLines [(side, content)]).length + new - 1) = new := by
  cases side <;> simp [oldLines, newLines, old?, new?]

/-- The reader finds a signed line at the lines that show it. -/
theorem readLines_printed (line : SignedLine) (old new : Nat) (rest : List Bytes)
    (hrest : rest.head? ≠ some missingEndLine) :
    readLines ((oldLines [line]).length + old) ((newLines [line]).length + new)
        (line.printed ++ rest) =
      (readLines old new rest).bind fun (lines, behind) => some (line :: lines, behind) := by
  obtain ⟨side, content⟩ := line
  obtain ⟨hsome, hroom, hold, hnew⟩ := counts_of_sides side content old new
  rw [printed]
  by_cases hended : content.getLast? = some newline
  · rw [if_pos hended, List.singleton_append, readLines, if_neg hsome]
    simp only [Side.ofSign?_sign, Option.bind_eq_bind, Option.bind_some]
    rw [if_neg hroom]
    simp only [hold, hnew]
    cases rest with
    | nil => rfl
    | cons next behind =>
      have hnext : next ≠ missingEndLine := fun heq => hrest (by rw [heq]; rfl)
      simp only [if_neg hnext]
  · rw [if_neg hended, List.cons_append, readLines, if_neg hsome]
    simp only [Side.ofSign?_sign, Option.bind_eq_bind, Option.bind_some]
    rw [if_neg hroom]
    simp only [hold, hnew, List.singleton_append, if_true, List.dropLast_concat]

theorem head?_printed_ne (line : SignedLine) (rest : List Bytes) :
    (line.printed ++ rest).head? ≠ some missingEndLine := by
  have hsign : ∀ content, some (line.1.sign :: content) ≠ some missingEndLine := by
    intro content heq
    rw [missingEndLine_eq, Option.some.injEq, List.cons.injEq] at heq
    exact line.1.sign_ne_mark heq.1
  rw [printed]
  split
  · exact hsign _
  · exact hsign _

end SignedLine

/-- The reader finds all signed lines of a section, and leaves what is behind them. -/
theorem readLines_flatMap_printed (lines : List SignedLine) (rest : List Bytes)
    (hrest : rest.head? ≠ some missingEndLine) :
    readLines (oldLines lines).length (newLines lines).length
        (lines.flatMap SignedLine.printed ++ rest) = some (lines, rest) := by
  induction lines with
  | nil =>
    cases rest with
    | nil => rfl
    | cons line rest =>
      change readLines 0 0 (line :: rest) = _
      rw [readLines.eq_def]
      rfl
  | cons line lines ih =>
    have hhead : (lines.flatMap SignedLine.printed ++ rest).head? ≠ some missingEndLine := by
      cases lines with
      | nil => exact hrest
      | cons next lines =>
        rw [List.flatMap_cons, List.append_assoc]
        exact next.head?_printed_ne _
    rw [List.flatMap_cons, List.append_assoc, ← List.singleton_append, oldLines_append,
      newLines_append, List.length_append, List.length_append,
      line.readLines_printed _ _ _ hhead, ih]
    rfl

/-! ## Sections -/

namespace Section

/-- The lines of the text that show a section. -/
def printed (part : Section) : List Bytes :=
  part.heading :: part.lines.flatMap SignedLine.printed

/-- The lengths in the heading are those of the lines under it. -/
def Counted (part : Section) : Prop :=
  part.old.count = (oldLines part.lines).length ∧ part.new.count = (newLines part.lines).length

theorem heading_ne_missingEndLine (part : Section) : part.heading ≠ missingEndLine := by
  intro heq
  rw [heading_eq, missingEndLine_eq] at heq
  have hhead : (64 : UInt8) = 92 := List.head_eq_of_cons_eq heq
  exact absurd hhead (by decide)

/-- Every section has a line of its own, its heading. -/
theorem length_le_length_printed (parts : List Section) :
    parts.length ≤ (parts.flatMap printed).length := by
  induction parts with
  | nil => exact Nat.le_refl 0
  | cons part parts ih =>
    rw [List.flatMap_cons, printed, List.length_append, List.length_cons, List.length_cons]
    omega

/-- The reader finds sections at the lines that show them. -/
theorem readSections_printed (parts : List Section) (hcounted : ∀ part ∈ parts, part.Counted)
    (most : Nat) (hmost : parts.length ≤ most) :
    readSections most (parts.flatMap printed) = some parts := by
  induction parts generalizing most with
  | nil =>
    rw [List.flatMap_nil, readSections]
  | cons part parts ih =>
    rw [List.forall_mem_cons] at hcounted
    have hhead : (parts.flatMap printed).head? ≠ some missingEndLine := by
      cases parts with
      | nil =>
        intro heq
        cases heq
      | cons next parts => exact fun heq => next.heading_ne_missingEndLine (Option.some.inj heq)
    obtain ⟨fewer, rfl⟩ := Nat.exists_eq_succ_of_ne_zero (Nat.ne_zero_of_lt hmost)
    rw [List.length_cons] at hmost
    rw [List.flatMap_cons, printed, List.cons_append, readSections, part.heading?_heading]
    simp only [Option.bind_eq_bind, Option.bind_some]
    rw [hcounted.1.1, hcounted.1.2, readLines_flatMap_printed _ _ hhead]
    simp only [Option.bind_some]
    rw [ih hcounted.2 fewer (Nat.le_of_succ_le_succ hmost)]
    rfl

end Section

end Diff

end Patchwork
