import Patchwork.Proofs.Patch.Packaging

/-!
# Erasing a line of a patch text

A line inside a text, counted with the lines of blanks in front of it, is erased from the lines that
are read, and nothing else changes: neither the first nor the last line moves, so what is trimmed
stays the same.  Main statement: `Lines.ofPatch_trim_erase`.
-/

namespace Patchwork

open Bytes (trim newline isBlank splitAt)

namespace Bytes

theorem splitAt_append_cons (separator : UInt8) (above below : Bytes) :
    splitAt separator (above ++ separator :: below) =
      splitAt separator above ++ splitAt separator below := by
  rw [splitAt_eq_splitOn, splitAt_eq_splitOn, splitAt_eq_splitOn, List.splitOn_append_cons_self]

theorem splitAt_of_notMem {separator : UInt8} {part : Bytes} (hpart : separator ∉ part) :
    splitAt separator part = [part] := by
  rw [splitAt_eq_splitOn, List.splitOn_eq_singleton hpart]

/-- There is one part more than there are separators. -/
theorem length_splitAt (separator : UInt8) (bytes : Bytes) :
    (splitAt separator bytes).length = bytes.count separator + 1 := by
  induction bytes with
  | nil => rfl
  | cons byte bytes ih =>
    rw [splitAt_eq_splitOn] at ih ⊢
    rw [List.splitOn_cons_eq_if_modifyHead, List.count_cons]
    split
    · rw [List.length_cons, ih]
    · rw [List.length_modifyHead, ih]

end Bytes

namespace Lines

/-- The text without one of its lines; they are counted from zero. -/
def erase (index : Nat) (content : Bytes) : Bytes :=
  join ((splitAt newline content).eraseIdx index)

/-- How many line feeds stand among the blanks in front of a text. -/
def skipped (content : Bytes) : Nat :=
  (content.takeWhile isBlank).count newline

variable {content source line : Bytes} {lines above below : List Bytes}

theorem join_splitAt (content : Bytes) : join (splitAt newline content) = content := by
  rw [Bytes.splitAt_eq_splitOn]
  exact List.intercalate_splitOn newline

theorem splitAt_join (hlines : ∀ line ∈ lines, newline ∉ line) (hne : lines ≠ []) :
    splitAt newline (join lines) = lines := by
  rw [Bytes.splitAt_eq_splitOn]
  exact List.splitOn_intercalate newline hlines hne

/-- A text is cut at a line feed wherever its lines are cut. -/
theorem exists_cut (hcontent : splitAt newline content = above ++ below) (habove : above ≠ [])
    (hbelow : below ≠ []) : ∃ front back, content = front ++ newline :: back ∧
      splitAt newline front = above ∧ splitAt newline back = below := by
  have hplain : ∀ line ∈ above ++ below, newline ∉ line := by
    rw [← hcontent]
    exact fun line hline => Bytes.notMem_of_mem_splitAt hline
  rw [List.forall_mem_append] at hplain
  have hfront := splitAt_join hplain.1 habove
  have hback := splitAt_join hplain.2 hbelow
  refine ⟨join above, join below, ?_, hfront, hback⟩
  rw [← join_splitAt (join above ++ newline :: join below), Bytes.splitAt_append_cons, hfront, hback,
    ← hcontent, join_splitAt]

/-- A line feed goes with the line that is erased. -/
theorem erase_length_splitAt (front : Bytes) {raw : Bytes} (hraw : newline ∉ raw) (back : Bytes) :
    erase (splitAt newline front).length (front ++ newline :: (raw ++ newline :: back)) =
      front ++ newline :: back := by
  rw [erase, Bytes.splitAt_append_cons, Bytes.splitAt_append_cons, Bytes.splitAt_of_notMem hraw,
    List.eraseIdx_append_of_length_le (Nat.le_refl _), Nat.sub_self, List.singleton_append,
    List.eraseIdx_zero, List.tail_cons, ← Bytes.splitAt_append_cons, join_splitAt]

theorem getElem?_splitAt (front : Bytes) {raw : Bytes} (hraw : newline ∉ raw) (back : Bytes) :
    (splitAt newline (front ++ newline :: (raw ++ newline :: back)))[
      (splitAt newline front).length]? = some raw := by
  rw [Bytes.splitAt_append_cons, Bytes.splitAt_append_cons, Bytes.splitAt_of_notMem hraw,
    List.getElem?_append_right (Nat.le_refl _), Nat.sub_self]
  rfl

/-- Where the raw form of a line inside the lines of a patch text is cut out of the text. -/
theorem exists_raw (hlines : ofPatch content = above ++ line :: below) (habove : above ≠ [])
    (hbelow : below ≠ []) :
    ∃ front raw back, content = front ++ newline :: (raw ++ newline :: back) ∧ newline ∉ raw ∧
      dropCarriageReturn raw = line ∧ ofPatch front = above ∧ ofPatch back = below := by
  rw [ofPatch] at hlines
  obtain ⟨rawAbove, rest, hraws, rfl, hrest⟩ := List.map_eq_append_iff.mp hlines
  obtain ⟨raw, rawBelow, rfl, rfl, rfl⟩ := List.map_eq_cons_iff.mp hrest
  obtain ⟨front, behind, rfl, hfront, hbehind⟩ :=
    exists_cut hraws (mt List.map_eq_nil_iff.mpr habove) (List.cons_ne_nil _ _)
  rw [← List.singleton_append] at hbehind
  obtain ⟨part, back, rfl, hpart, hback⟩ :=
    exists_cut hbehind (List.cons_ne_nil _ _) (mt List.map_eq_nil_iff.mpr hbelow)
  obtain rfl : raw = part := by
    rw [← join_splitAt part, hpart, join, List.intercalate_singleton]
  exact ⟨front, raw, back, rfl, Bytes.notMem_of_mem_splitAt (hpart ▸ List.mem_singleton_self raw),
    rfl, by rw [ofPatch, hfront], by rw [ofPatch, hback]⟩

/-- The lines of a patch text stand behind the lines of blanks in front of the whole text. -/
theorem skipped_add_length_ofPatch (content front : Bytes) :
    skipped content + (ofPatch front).length =
      (splitAt newline (content.takeWhile isBlank ++ front)).length := by
  rw [ofPatch, List.length_map, Bytes.length_splitAt, Bytes.length_splitAt, List.count_append,
    skipped, Nat.add_assoc]

/-- A trimmed text stays trimmed when a line inside it is erased: its ends are the same. -/
theorem trim_of_trim_with {front raw back : Bytes}
    (htrim : trim content = front ++ newline :: (raw ++ newline :: back)) :
    trim (front ++ newline :: back) = front ++ newline :: back := by
  have hfirst : (front ++ newline :: back).head? = (trim content).head? := by
    rw [htrim]
    cases front <;> rfl
  have hlast : (front ++ newline :: back).getLast? = (trim content).getLast? := by
    rw [htrim, ← List.cons_append, ← List.append_assoc,
      List.getLast?_append_of_ne_nil _ (List.cons_ne_nil _ _),
      List.getLast?_append_of_ne_nil _ (List.cons_ne_nil _ _)]
  apply Bytes.trim_eq_self
  · rw [hfirst]
    exact Bytes.head?_trim content
  · rw [hlast]
    exact Bytes.getLast?_trim content

/-- A line inside the lines of a patch text stands as deep in the whole text, behind the lines of
blanks in front, and when it is erased the other lines are left. -/
theorem ofPatch_trim_erase (hlines : ofPatch (trim source) = above ++ line :: below)
    (habove : above ≠ []) (hbelow : below ≠ []) :
    (∃ raw, (splitAt newline source)[skipped source + above.length]? = some raw ∧
      dropCarriageReturn raw = line) ∧
      ofPatch (trim (erase (skipped source + above.length) source)) = above ++ below := by
  obtain ⟨front, raw, back, htext, hraw, hline, rfl, rfl⟩ := exists_raw hlines habove hbelow
  obtain ⟨ending, hsource, hending⟩ := Bytes.exists_eq_takeWhile_append_trim source
  have hblank : ∀ byte ∈ source.takeWhile isBlank, isBlank byte = true :=
    fun byte hbyte => List.mem_takeWhile_imp hbyte
  rw [skipped_add_length_ofPatch]
  generalize source.takeWhile isBlank = opening at hsource hblank ⊢
  have hwhole : source = (opening ++ front) ++ newline :: (raw ++ newline :: (back ++ ending)) := by
    rw [hsource, htext]
    simp only [List.append_assoc, List.cons_append]
  constructor
  · refine ⟨raw, ?_, hline⟩
    rw [hwhole, getElem?_splitAt _ hraw]
  · have herased : trim (erase (splitAt newline (opening ++ front)).length source) =
        front ++ newline :: back := by
      rw [hwhole, erase_length_splitAt _ hraw, ← List.cons_append, ← List.append_assoc,
        Bytes.trim_append_blank hending, List.append_assoc, Bytes.trim_blank_append hblank,
        trim_of_trim_with htext]
    rw [herased, ofPatch_append_newline]

end Lines

end Patchwork
