import Patchwork.Proofs.Patch.FirstFault

/-!
# Patch texts in other packagings

Blanks around a patch text, carriage returns in front of its line feeds and a here-document around
it make no difference: the same hunks are read, or the text is refused with the same error.  Main
statement: `Patch.parse_packaged`.
-/

namespace Patchwork

open Bytes (trim newline carriageReturn isBlank)

namespace Lines

/-- The text with a carriage return in front of every line feed. -/
def withCarriageReturns (text : Bytes) : Bytes :=
  text.flatMap fun byte => if byte = newline then [carriageReturn, newline] else [byte]

variable {text line : Bytes}

theorem withCarriageReturns_append (front back : Bytes) :
    withCarriageReturns (front ++ back) =
      withCarriageReturns front ++ withCarriageReturns back :=
  List.flatMap_append

theorem withCarriageReturns_eq_self (hline : newline ∉ line) : withCarriageReturns line = line := by
  induction line with
  | nil => rfl
  | cons byte line ih =>
    rw [List.mem_cons, not_or] at hline
    have hrest := ih hline.2
    rw [withCarriageReturns] at hrest ⊢
    rw [List.flatMap_cons, hrest, if_neg (Ne.symm hline.1)]
    rfl

theorem withCarriageReturns_flatMap {lines : List Bytes} (hlines : ∀ line ∈ lines, newline ∉ line) :
    withCarriageReturns (lines.flatMap fun line => line ++ [newline]) =
      lines.flatMap fun line => line ++ [carriageReturn, newline] := by
  induction lines with
  | nil => rfl
  | cons line lines ih =>
    rw [List.forall_mem_cons] at hlines
    rw [List.flatMap_cons, List.flatMap_cons, withCarriageReturns_append,
      withCarriageReturns_append, withCarriageReturns_eq_self hlines.1, ih hlines.2]
    rfl

theorem head?_withCarriageReturns (hvisible : ¬ text.head?.any isBlank) :
    ¬ (withCarriageReturns text).head?.any isBlank := by
  cases text with
  | nil => exact hvisible
  | cons byte rest =>
    have hbyte : byte ≠ newline := by
      rintro rfl
      exact hvisible rfl
    rwa [withCarriageReturns, List.flatMap_cons, if_neg hbyte]

theorem getLast?_withCarriageReturns (text : Bytes) :
    (withCarriageReturns text).getLast? = text.getLast? := by
  induction text using List.reverseRecOn with
  | nil => rfl
  | append_singleton front byte _ =>
    rw [withCarriageReturns_append, List.getLast?_concat]
    by_cases hbyte : byte = newline
    · subst hbyte
      exact List.getLast?_append_of_ne_nil _ (List.cons_ne_nil _ _)
    · rw [withCarriageReturns_eq_self (mt List.mem_singleton.mp (Ne.symm hbyte)),
        List.getLast?_concat]

theorem trim_withCarriageReturns (text : Bytes) :
    trim (withCarriageReturns text) = withCarriageReturns (trim text) := by
  have hblanks : ∀ {blanks : Bytes}, (∀ byte ∈ blanks, isBlank byte = true) →
      ∀ byte ∈ withCarriageReturns blanks, isBlank byte = true := by
    intro blanks hblank byte hbyte
    obtain ⟨other, hother, hmem⟩ := List.mem_flatMap.mp hbyte
    split at hmem
    · rcases List.mem_pair.mp hmem with rfl | rfl <;> rfl
    · rw [List.mem_singleton.mp hmem]
      exact hblank other hother
  have hinner : trim (withCarriageReturns (trim text)) = withCarriageReturns (trim text) := by
    apply Bytes.trim_eq_self
    · exact head?_withCarriageReturns (Bytes.head?_trim text)
    · rw [getLast?_withCarriageReturns]
      exact Bytes.getLast?_trim text
  obtain ⟨opening, ending, htext, hopening, hending⟩ := Bytes.exists_eq_append_trim text
  calc trim (withCarriageReturns text)
      = trim (withCarriageReturns opening ++ withCarriageReturns (trim text) ++
          withCarriageReturns ending) := by
        rw [← withCarriageReturns_append, ← withCarriageReturns_append, ← htext]
    _ = trim (withCarriageReturns (trim text)) := by
        rw [Bytes.trim_append_blank (hblanks hending), Bytes.trim_blank_append (hblanks hopening)]
    _ = withCarriageReturns (trim text) := hinner

/-- Every line feed ends a line, and what stands behind the last one is a line as well. -/
theorem exists_lines (text : Bytes) :
    ∃ (lines : List Bytes) (last : Bytes), text = lines.flatMap (fun line => line ++ [newline]) ++ last ∧
      (∀ line ∈ lines, newline ∉ line) ∧ newline ∉ last := by
  induction text with
  | nil => exact ⟨[], [], rfl, List.forall_mem_nil _, List.not_mem_nil⟩
  | cons byte text ih =>
    obtain ⟨lines, last, rfl, hlines, hlast⟩ := ih
    by_cases hbyte : byte = newline
    · subst hbyte
      exact ⟨[] :: lines, last, rfl, List.forall_mem_cons.mpr ⟨List.not_mem_nil, hlines⟩, hlast⟩
    · have hcons : ∀ {line : Bytes}, newline ∉ line → newline ∉ byte :: line :=
        List.not_mem_cons_of_ne_of_not_mem (Ne.symm hbyte)
      cases lines with
      | nil => exact ⟨[], byte :: last, rfl, hlines, hcons hlast⟩
      | cons line lines =>
        rw [List.forall_mem_cons] at hlines
        exact ⟨(byte :: line) :: lines, last, rfl,
          List.forall_mem_cons.mpr ⟨hcons hlines.1, hlines.2⟩, hlast⟩

theorem dropCarriageReturn_eq_self (hend : line.getLast? ≠ some carriageReturn) :
    dropCarriageReturn line = line :=
  if_neg (by simpa using hend)

/-- The carriage return at the end of a line is a blank. -/
theorem trim_dropCarriageReturn (line : Bytes) : trim (dropCarriageReturn line) = trim line := by
  rw [dropCarriageReturn]
  split
  · rename_i hend
    obtain ⟨front, rfl⟩ := List.getLast?_eq_some_iff.mp (beq_iff_eq.mp hend)
    rw [List.dropLast_concat, Bytes.trim_append_blank (List.forall_mem_singleton.mpr rfl)]
  · rfl

/-- A line feed ends the lines in front of it. -/
theorem ofPatch_append_newline (above below : Bytes) :
    ofPatch (above ++ newline :: below) = ofPatch above ++ ofPatch below := by
  rw [ofPatch, ofPatch, ofPatch, Bytes.splitAt_eq_splitOn, Bytes.splitAt_eq_splitOn,
    Bytes.splitAt_eq_splitOn, List.splitOn_append_cons_self, List.map_append]

theorem ofPatch_of_notMem (hline : newline ∉ line) : ofPatch line = [dropCarriageReturn line] := by
  rw [ofPatch, Bytes.splitAt_eq_splitOn, List.splitOn_eq_singleton hline]
  rfl

/-- Lines that do not end in a carriage return are read as they are. -/
theorem ofPatch_plain {lines : List Bytes} {last : Bytes}
    (hlines : ∀ line ∈ lines, newline ∉ line ∧ line.getLast? ≠ some carriageReturn)
    (hlast : newline ∉ last) (hend : last.getLast? ≠ some carriageReturn) :
    ofPatch (lines.flatMap (fun line => line ++ [newline]) ++ last) = lines ++ [last] := by
  induction lines with
  | nil => exact (ofPatch_of_notMem hlast).trans (by rw [dropCarriageReturn_eq_self hend]; rfl)
  | cons line lines ih =>
    rw [List.forall_mem_cons] at hlines
    rw [List.flatMap_cons, List.append_assoc, List.append_assoc, List.singleton_append,
      ofPatch_append_newline, ofPatch_of_notMem hlines.1.1,
      dropCarriageReturn_eq_self hlines.1.2, ih hlines.2]
    rfl

/-- Carriage returns in front of the line feeds are no part of the lines, where there were none. -/
theorem ofPatch_withCarriageReturns (hplain : ¬ [carriageReturn, newline] <:+: text)
    (hend : text.getLast? ≠ some carriageReturn) :
    ofPatch (withCarriageReturns text) = ofPatch text := by
  obtain ⟨lines, last, rfl, hlines, hlast⟩ := exists_lines text
  have hlastEnd : last.getLast? ≠ some carriageReturn := by
    by_cases hempty : last = []
    · rw [hempty]
      rintro ⟨⟩
    · rwa [List.getLast?_append_of_ne_nil _ hempty] at hend
  have hlinesEnd : ∀ line ∈ lines, line.getLast? ≠ some carriageReturn := by
    intro line hline hreturn
    obtain ⟨front, rfl⟩ := List.getLast?_eq_some_iff.mp hreturn
    obtain ⟨above, below, rfl⟩ := List.append_of_mem hline
    refine hplain ⟨above.flatMap (fun line => line ++ [newline]) ++ front,
      below.flatMap (fun line => line ++ [newline]) ++ last, ?_⟩
    simp only [List.flatMap_append, List.flatMap_cons, List.append_assoc, List.cons_append,
      List.nil_append]
  rw [withCarriageReturns_append, withCarriageReturns_flatMap hlines,
    withCarriageReturns_eq_self hlast, ofPatch_concat hlines hlast hlastEnd,
    ofPatch_plain (fun line hline => ⟨hlines line hline, hlinesEnd line hline⟩) hlast hlastEnd]

end Lines

namespace Patch

variable {source other opener closer : Bytes} {body : List Bytes}

/-- Only what trimming leaves of a text is read. -/
theorem parse_eq_of_trim_eq (htrim : trim source = trim other) : parse source = parse other := by
  rw [parse, parse, htrim]

theorem parse_of_encloses (hencloses : Envelope.Encloses body (Lines.ofPatch (trim source))) :
    parse source = Hunk.readAll 2 body := by
  obtain ⟨inner, hunwrap, rfl⟩ := Envelope.encloses_iff.mp hencloses
  rw [parse_of_unwrap hunwrap, readBody]

theorem parse_withCarriageReturns (hplain : ¬ [carriageReturn, newline] <:+: source) :
    parse (Lines.withCarriageReturns source) = parse source := by
  have htrimmed : ¬ [carriageReturn, newline] <:+: trim source := by
    obtain ⟨opening, ending, hsource, -⟩ := Bytes.exists_eq_append_trim source
    intro hinside
    exact hplain (hinside.trans ⟨opening, ending, hsource.symm⟩)
  have hend : (trim source).getLast? ≠ some carriageReturn := by
    intro hreturn
    have hlast := Bytes.getLast?_trim source
    rw [hreturn] at hlast
    exact hlast rfl
  have hempty : Lines.withCarriageReturns (trim source) = [] ↔ trim source = [] := by
    rw [← List.getLast?_eq_none_iff, Lines.getLast?_withCarriageReturns, List.getLast?_eq_none_iff]
  rw [parse, parse, Lines.trim_withCarriageReturns,
    Lines.ofPatch_withCarriageReturns htrimmed hend]
  simp only [hempty]

/-- The lines of a text in a here-document are an opener, the lines of the text, and a closer. -/
theorem ofPatch_hereDocument (hopener : opener ∈ Envelope.openers) (hcloser : newline ∉ closer)
    (hend : text "EOF" <:+ trim closer) (source : Bytes) :
    ∃ last, Lines.ofPatch (trim (opener ++ newline :: (source ++ newline :: closer))) =
      opener :: (Lines.ofPatch source ++ [last]) ∧ trim last = trim closer := by
  have hopeners : ∀ opener ∈ Envelope.openers,
      Lines.ofPatch opener = [opener] ∧ ¬ opener.head?.any isBlank ∧ opener ≠ [] := by decide
  obtain ⟨hline, hvisible, hne⟩ := hopeners opener hopener
  have hclosed : trim closer ≠ [] := by
    intro hnil
    rw [hnil] at hend
    exact absurd (List.suffix_nil.mp hend) (by decide)
  obtain ⟨last, ending, rfl, htrim, hlast, hsame⟩ := Bytes.exists_trim_append hclosed
  have hfree : newline ∉ last := fun hmem => hcloser (List.mem_append_left _ hmem)
  have hreturn : last.getLast? ≠ some carriageReturn := by
    intro hreturn
    rw [hreturn] at hlast
    exact hlast rfl
  have hwhole : opener ++ newline :: (source ++ newline :: (last ++ ending)) =
      opener ++ (newline :: (source ++ [newline])) ++ (last ++ ending) := by
    simp only [List.append_assoc, List.cons_append, List.nil_append]
  have hfront : ¬ (opener ++ (newline :: (source ++ [newline]))).head?.any isBlank := by
    rwa [List.head?_append_of_ne_nil _ hne]
  refine ⟨last, ?_, hsame⟩
  rw [hwhole, htrim (List.append_ne_nil_of_left_ne_nil hne _) hfront, List.append_assoc,
    List.cons_append, List.append_assoc, List.singleton_append, Lines.ofPatch_append_newline,
    Lines.ofPatch_append_newline, hline, Lines.ofPatch_of_notMem hfree,
    Lines.dropCarriageReturn_eq_self hreturn]
  rfl

/-- A here-document around a text with both markers makes no difference. -/
theorem parse_hereDocument (hsource : trim source = source)
    (hdelimits : Envelope.Delimits body (Lines.ofPatch source)) (hopener : opener ∈ Envelope.openers)
    (hcloser : newline ∉ closer) (hend : text "EOF" <:+ trim closer) :
    parse (opener ++ newline :: (source ++ newline :: closer)) = parse source := by
  have hopeners : ∀ opener ∈ Envelope.openers, trim opener ∈ Envelope.openers := by decide
  obtain ⟨last, hlines, hlast⟩ := ofPatch_hereDocument hopener hcloser hend source
  have hplain : Envelope.Encloses body (Lines.ofPatch (trim source)) := by
    rw [hsource]
    exact .inl hdelimits
  have hwrapped : Envelope.Encloses body
      (Lines.ofPatch (trim (opener ++ newline :: (source ++ newline :: closer)))) := by
    rw [hlines]
    refine .inr ⟨opener, Lines.ofPatch source, last, rfl, hopeners opener hopener, ?_, hdelimits⟩
    rwa [hlast]
  rw [parse_of_encloses hwrapped, parse_of_encloses hplain]

/-- How a text is packaged makes no difference: blanks around it, a carriage return in front of every
line feed where there was none, and a here-document around a text with both markers.  The same hunks
are read, or the same error is given. -/
theorem parse_packaged (source : Bytes) :
    (∀ before after : Bytes, (∀ byte ∈ before, isBlank byte = true) →
      (∀ byte ∈ after, isBlank byte = true) →
      parse (before ++ source ++ after) = parse source) ∧
    (¬ [carriageReturn, newline] <:+: source →
      parse (Lines.withCarriageReturns source) = parse source) ∧
    (trim source = source → (∃ body, Envelope.Delimits body (Lines.ofPatch source)) →
      ∀ opener ∈ Envelope.openers, ∀ closer : Bytes, newline ∉ closer →
        text "EOF" <:+ trim closer →
        parse (opener ++ newline :: (source ++ newline :: closer)) = parse source) := by
  refine ⟨fun before after hbefore hafter => ?_, parse_withCarriageReturns, ?_⟩
  · apply parse_eq_of_trim_eq
    rw [Bytes.trim_append_blank hafter, Bytes.trim_blank_append hbefore]
  · rintro hsource ⟨body, hdelimits⟩ opener hopener closer hcloser hend
    exact parse_hereDocument hsource hdelimits hopener hcloser hend

/-- Behind two chunks and an empty line stands a line that begins no chunk. -/
def unmarkedThird : Bytes :=
  text "*** Begin Patch\n*** Update File: f\n\n b\n@@ c\n+d\n*** End of File\n\nx\n*** End Patch"

theorem parse_packaged_unmarkedThird :
    parse unmarkedThird = .error (.missingContextMarker 9 (text "x")) ∧
      parse (text "\t\n\n " ++ unmarkedThird ++ text "\r\n") = parse unmarkedThird ∧
      parse (Lines.withCarriageReturns unmarkedThird) = parse unmarkedThird ∧
      parse (text "<<'EOF'" ++ newline :: (unmarkedThird ++ newline :: text "\tno EOF\r")) =
        parse unmarkedThird := by
  obtain ⟨hblanks, hreturns, hwrapped⟩ := parse_packaged unmarkedThird
  have hdelimits := Envelope.check_eq_ok_iff.mp
    (show Envelope.check (Lines.ofPatch unmarkedThird) = .ok () by decide +kernel)
  refine ⟨by decide +kernel, ?_, ?_, ?_⟩
  · exact hblanks _ _ (by decide +kernel) (by decide +kernel)
  · exact hreturns (by decide +kernel)
  · exact hwrapped (by decide +kernel) hdelimits _ (by decide) _ (by decide) (by decide)

end Patch

end Patchwork
