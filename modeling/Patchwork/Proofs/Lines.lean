import Mathlib.Data.List.Infix
import Patchwork.Lines

/-!
# Splitting text into lines

Splitting at a separator is the splitting of the standard library.  A content is its lines one
behind the other, and lines that a line feed ends are found again in the text they make up.
-/

namespace Patchwork

namespace Bytes

theorem splitAt_eq_splitOn (separator : UInt8) (bytes : Bytes) :
    splitAt separator bytes = bytes.splitOn separator := by
  induction bytes with
  | nil => rfl
  | cons byte bytes ih =>
    rw [List.splitOn_cons_eq_if_modifyHead, ← ih]
    change splitAt.step separator byte (splitAt separator bytes) = _
    cases hparts : splitAt separator bytes with
    | nil =>
      rw [ih] at hparts
      exact absurd hparts (List.splitOn_ne_nil separator bytes)
    | cons part parts => rfl

/-- A separator does not stand inside a part. -/
theorem notMem_of_mem_splitAt {separator : UInt8} {bytes part : Bytes}
    (hpart : part ∈ splitAt separator bytes) : separator ∉ part := by
  induction bytes generalizing part with
  | nil =>
    obtain rfl : part = [] := by simpa [splitAt] using hpart
    exact List.not_mem_nil
  | cons byte bytes ih =>
    change part ∈ splitAt.step separator byte (splitAt separator bytes) at hpart
    cases hparts : splitAt separator bytes with
    | nil =>
      rw [splitAt_eq_splitOn] at hparts
      exact absurd hparts (List.splitOn_ne_nil separator bytes)
    | cons first rest =>
      rw [hparts] at ih hpart
      rw [splitAt.step] at hpart
      by_cases hbyte : (byte == separator) = true
      · rw [if_pos hbyte, List.mem_cons] at hpart
        rcases hpart with rfl | hpart
        · exact List.not_mem_nil
        · exact ih hpart
      · rw [if_neg hbyte, List.mem_cons] at hpart
        rcases hpart with rfl | hpart
        · rw [List.mem_cons, not_or]
          exact ⟨fun heq => hbyte (by simp [heq]), ih List.mem_cons_self⟩
        · exact ih (List.mem_cons_of_mem first hpart)

end Bytes

namespace Lines

open Bytes

/-! ## Lines with their ends -/

/-- A line feed ends the line, and only that. -/
def Ended (line : Bytes) : Prop :=
  ∃ body, newline ∉ body ∧ line = body ++ [newline]

theorem withEnds_cons (byte : UInt8) (content : Bytes) :
    withEnds (byte :: content) = withEnds.step byte (withEnds content) := rfl

theorem flatten_step (byte : UInt8) (lines : List Bytes) :
    (withEnds.step byte lines).flatten = byte :: lines.flatten := by
  cases lines with
  | nil => rfl
  | cons line lines =>
    rw [withEnds.step]
    split <;> rfl

/-- A content is its lines one behind the other. -/
theorem flatten_withEnds (content : Bytes) : (withEnds content).flatten = content := by
  induction content with
  | nil => rfl
  | cons byte content ih => rw [withEnds_cons, flatten_step, ih]

theorem withEnds_append_newline {body : Bytes} (hbody : newline ∉ body) (content : Bytes) :
    withEnds (body ++ newline :: content) = (body ++ [newline]) :: withEnds content := by
  induction body with
  | nil =>
    rw [List.nil_append, withEnds_cons]
    cases withEnds content <;> rfl
  | cons byte body ih =>
    rw [List.mem_cons, not_or] at hbody
    rw [List.cons_append, withEnds_cons, ih hbody.2, withEnds.step,
      if_neg (by simpa using Ne.symm hbody.1)]
    rfl

/-- Lines that line feeds end are found again in the text that they make up. -/
theorem withEnds_flatten {lines : List Bytes} (hlines : ∀ line ∈ lines, Ended line) :
    withEnds lines.flatten = lines := by
  induction lines with
  | nil => rfl
  | cons line lines ih =>
    rw [List.forall_mem_cons] at hlines
    obtain ⟨⟨body, hbody, rfl⟩, hrest⟩ := hlines
    rw [List.flatten_cons, List.append_assoc, List.singleton_append,
      withEnds_append_newline hbody, ih hrest]

/-- A line has no line feed but the one that ends it. -/
theorem newline_notMem_dropLast {content line : Bytes} (hline : line ∈ withEnds content) :
    newline ∉ line.dropLast := by
  induction content generalizing line with
  | nil => cases hline
  | cons byte content ih =>
    rw [withEnds_cons] at hline
    cases hrest : withEnds content with
    | nil =>
      obtain rfl : line = [byte] := by simpa [hrest, withEnds.step] using hline
      exact List.not_mem_nil
    | cons first rest =>
      rw [hrest] at ih hline
      rw [withEnds.step] at hline
      by_cases hbyte : (byte == newline) = true
      · rw [if_pos hbyte, List.mem_cons] at hline
        rcases hline with rfl | hline
        · exact List.not_mem_nil
        · exact ih hline
      · rw [if_neg hbyte, List.mem_cons] at hline
        rcases hline with rfl | hline
        · cases hfirst : first with
          | nil => exact List.not_mem_nil
          | cons next last =>
            have hnext := ih (List.mem_cons_self (a := first))
            rw [hfirst] at hnext
            rw [List.dropLast_cons_cons, List.mem_cons, not_or]
            exact ⟨fun heq => hbyte (by simp [heq]), hnext⟩
        · exact ih (List.mem_cons_of_mem first hline)

/-! ## The lines of a patch -/

theorem dropCarriageReturn_concat (line : Bytes) :
    dropCarriageReturn (line ++ [carriageReturn]) = line := by
  rw [dropCarriageReturn, List.getLast?_concat, if_pos (by decide), List.dropLast_concat]

theorem newline_notMem_of_mem_ofPatch {patch line : Bytes} (hline : line ∈ ofPatch patch) :
    newline ∉ line := by
  obtain ⟨part, hpart, rfl⟩ := List.mem_map.mp hline
  have hnewline := notMem_of_mem_splitAt hpart
  rw [dropCarriageReturn]
  split
  · exact fun hmem => hnewline (List.mem_of_mem_dropLast hmem)
  · exact hnewline

/-- Lines written with a carriage return and a line feed are read as they are. -/
theorem ofPatch_concat {lines : List Bytes} {last : Bytes}
    (hlines : ∀ line ∈ lines, newline ∉ line) (hlast : newline ∉ last)
    (hend : last.getLast? ≠ some carriageReturn) :
    ofPatch (lines.flatMap (fun line => line ++ [carriageReturn, newline]) ++ last) =
      lines ++ [last] := by
  rw [ofPatch, splitAt_eq_splitOn]
  induction lines with
  | nil =>
    rw [List.flatMap_nil, List.nil_append, List.splitOn_eq_singleton hlast, List.map_singleton,
      dropCarriageReturn, if_neg (by simpa using hend)]
    rfl
  | cons line lines ih =>
    rw [List.forall_mem_cons] at hlines
    have hbody : newline ∉ line ++ [carriageReturn] := by
      rw [List.mem_append, not_or]
      exact ⟨hlines.1, by decide⟩
    have htext : (line :: lines).flatMap (fun line => line ++ [carriageReturn, newline]) ++ last =
        (line ++ [carriageReturn]) ++ newline ::
          (lines.flatMap (fun line => line ++ [carriageReturn, newline]) ++ last) := by
      simp only [List.flatMap_cons, List.append_assoc, List.cons_append, List.nil_append]
    rw [htext, List.splitOn_append_cons_self_of_not_mem hbody, List.map_cons,
      dropCarriageReturn_concat, ih hlines.2]
    rfl

/-! ## The lines of a file -/

theorem newline_notMem_of_mem_ofFile {content line : Bytes} (hline : line ∈ ofFile content) :
    newline ∉ line := by
  rw [ofFile] at hline
  split at hline
  · exact notMem_of_mem_splitAt (List.mem_of_mem_dropLast hline)
  · exact notMem_of_mem_splitAt hline

theorem flatMap_concat_eq_intercalate (separator : UInt8) {lines : List Bytes}
    (hne : lines ≠ []) :
    lines.flatMap (fun line => line ++ [separator]) =
      [separator].intercalate lines ++ [separator] := by
  induction lines with
  | nil => exact absurd rfl hne
  | cons line lines ih =>
    cases lines with
    | nil => simp
    | cons next lines =>
      rw [List.flatMap_cons, ih (List.cons_ne_nil next lines), List.intercalate_cons_cons]
      simp only [List.append_assoc]

/-- A content made of whole lines is its lines with the line feeds that end them. -/
theorem flatMap_ofFile {content : Bytes}
    (hcontent : content = [] ∨ content.getLast? = some newline) :
    (ofFile content).flatMap (fun line => line ++ [newline]) = content := by
  rcases hcontent with rfl | hlast
  · rfl
  · obtain ⟨body, rfl⟩ : ∃ body, content = body ++ [newline] :=
      ⟨content.dropLast, (List.dropLast_append_getLast? newline hlast).symm⟩
    have hsplit : splitAt newline (body ++ [newline]) = splitAt newline body ++ [[]] := by
      rw [splitAt_eq_splitOn, splitAt_eq_splitOn, List.splitOn_append_cons_self]
      rfl
    rw [ofFile, hsplit]
    simp only [List.getLast?_concat, beq_self_eq_true, if_true, List.dropLast_concat]
    rw [splitAt_eq_splitOn, flatMap_concat_eq_intercalate _ (List.splitOn_ne_nil newline body),
      List.intercalate_splitOn]

end Lines

end Patchwork
