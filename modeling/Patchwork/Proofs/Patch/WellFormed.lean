import Patchwork.Patch.Reader
import Patchwork.Proofs.Patch.Marker

/-!
# Patches that are read are well-formed

Every reader takes lines from the front and leaves the rest, and what it makes of them is
well-formed as long as no line holds a line feed.  Main statement: `Patch.wellFormed_of_parse`.
-/

namespace Patchwork

open Bytes (trim newline EndsLine)

/-- No line feed stands inside a line. -/
def Lines.Unbroken (lines : List Bytes) : Prop :=
  ∀ line ∈ lines, newline ∉ line

theorem Lines.Unbroken.of_suffix {lines rest : List Bytes} (hlines : Lines.Unbroken lines)
    (hrest : rest <:+ lines) : Lines.Unbroken rest :=
  fun line hline => hlines line (hrest.subset hline)

/-! ## Operations -/

namespace Operation

/-- The line that an operation is about. -/
def line : Operation → Bytes
  | keep line | insert line | remove line => line

theorem line_of_old? {operation : Operation} {line : Bytes} (hline : operation.old? = some line) :
    operation.line = line := by
  cases operation <;> cases hline <;> rfl

theorem line_of_new? {operation : Operation} {line : Bytes} (hline : operation.new? = some line) :
    operation.line = line := by
  cases operation <;> cases hline <;> rfl

/-- Every operation stands on one of the two sides. -/
theorem old?_or_new? (operation : Operation) :
    operation.old? = some operation.line ∨ operation.new? = some operation.line := by
  cases operation with
  | keep => exact .inl rfl
  | insert => exact .inr rfl
  | remove => exact .inl rfl

theorem notMem_line_of_ofLine? {marked : Bytes} {operation : Operation}
    (hmarked : newline ∉ marked) (hoperation : ofLine? marked = some operation) :
    newline ∉ operation.line := by
  have hdrop : newline ∉ marked.drop 1 := fun hmem => hmarked (List.mem_of_mem_drop hmem)
  rw [ofLine?] at hoperation
  split at hoperation <;> cases hoperation
  · exact hdrop
  · exact List.not_mem_nil
  · exact hdrop
  · exact hdrop

theorem takeRun_spec {lines : List Bytes} (hlines : Lines.Unbroken lines) :
    (takeRun lines).2 <:+ lines ∧ ∀ operation ∈ (takeRun lines).1, newline ∉ operation.line := by
  induction lines with
  | nil => exact ⟨List.suffix_refl [], List.forall_mem_nil _⟩
  | cons marked lines ih =>
    obtain ⟨hrest, hoperations⟩ := ih (hlines.of_suffix (List.suffix_cons marked lines))
    rw [takeRun]
    cases hoperation : ofLine? marked with
    | none => exact ⟨List.suffix_refl _, List.forall_mem_nil _⟩
    | some operation =>
      refine ⟨hrest.trans (List.suffix_cons marked lines), ?_⟩
      rw [List.forall_mem_cons]
      exact ⟨notMem_line_of_ofLine? (hlines marked List.mem_cons_self) hoperation, hoperations⟩

end Operation

/-! ## Chunks -/

namespace Chunk

variable {anchor : Option Bytes} {operations : List Operation} {lines rest : List Bytes}
  {chunk : Chunk}

theorem endsLine_of_header? {line : Bytes} (hline : newline ∉ line)
    (hheader : header? line = some anchor) : ∀ content ∈ anchor, content.EndsLine := by
  intro content hcontent
  rw [header?] at hheader
  split at hheader
  · cases hheader
    cases hcontent
  · obtain ⟨found, hafter, rfl⟩ := Option.map_eq_some_iff.mp hheader
    cases hcontent
    exact Marker.opens_anchoredChunk.endsLine hline hafter

theorem ofOperations_wellFormed (hanchor : ∀ content ∈ anchor, content.EndsLine)
    (hne : operations ≠ []) (hoperations : ∀ operation ∈ operations, newline ∉ operation.line)
    (atEnd : Bool) : (ofOperations anchor operations atEnd).WellFormed := by
  refine ⟨?_, ?_, ?_, hanchor⟩
  · obtain ⟨operation, hoperation⟩ := List.exists_mem_of_ne_nil operations hne
    rcases operation.old?_or_new? with hold | hnew
    · exact .inl (List.ne_nil_of_mem (List.mem_filterMap.mpr ⟨operation, hoperation, hold⟩))
    · exact .inr (List.ne_nil_of_mem (List.mem_filterMap.mpr ⟨operation, hoperation, hnew⟩))
  · intro line hline
    obtain ⟨operation, hoperation, hold⟩ := List.mem_filterMap.mp hline
    rw [← Operation.line_of_old? hold]
    exact hoperations operation hoperation
  · intro line hline
    obtain ⟨operation, hoperation, hnew⟩ := List.mem_filterMap.mp hline
    rw [← Operation.line_of_new? hnew]
    exact hoperations operation hoperation

theorem close_spec (anchor : Option Bytes) (operations : List Operation) (lines : List Bytes) :
    (∃ atEnd, (close anchor operations lines).1 = ofOperations anchor operations atEnd) ∧
      (close anchor operations lines).2 <:+ lines := by
  cases lines with
  | nil => exact ⟨⟨false, rfl⟩, List.suffix_refl []⟩
  | cons line lines =>
    rw [close]
    split
    · exact ⟨⟨true, rfl⟩, List.suffix_cons line lines⟩
    · exact ⟨⟨false, rfl⟩, List.suffix_refl _⟩

theorem readBody_spec {number : Nat} (hlines : Lines.Unbroken lines)
    (hanchor : ∀ content ∈ anchor, content.EndsLine)
    (hread : readBody anchor number lines = .ok (chunk, rest)) :
    chunk.WellFormed ∧ rest <:+ lines := by
  obtain ⟨hsuffix, hoperations⟩ := Operation.takeRun_spec hlines
  rw [readBody] at hread
  split at hread
  · rename_i operation operations behind hrun
    rw [hrun] at hsuffix hoperations
    obtain ⟨⟨atEnd, hclosed⟩, hrest⟩ := close_spec anchor (operation :: operations) behind
    rw [Except.ok.injEq] at hread
    rw [hread] at hclosed hrest
    obtain rfl : chunk = ofOperations anchor (operation :: operations) atEnd := hclosed
    exact ⟨ofOperations_wellFormed hanchor (List.cons_ne_nil _ _) hoperations atEnd,
      hrest.trans hsuffix⟩
  · cases hread
  · split at hread <;> cases hread

theorem read_spec {markerOptional : Bool} {number : Nat} (hlines : Lines.Unbroken lines)
    (hread : read markerOptional number lines = .ok (chunk, rest)) :
    chunk.WellFormed ∧ rest <:+ lines := by
  cases lines with
  | nil => cases hread
  | cons line lines =>
    rw [read] at hread
    have hbehind := List.suffix_cons line lines
    split at hread
    · rename_i anchor hheader
      have hanchor := endsLine_of_header? (hlines line List.mem_cons_self) hheader
      obtain ⟨hchunk, hrest⟩ := readBody_spec (hlines.of_suffix hbehind) hanchor hread
      exact ⟨hchunk, hrest.trans hbehind⟩
    · split at hread
      · exact readBody_spec hlines
          (fun content hcontent => absurd hcontent (Option.not_mem_none content)) hread
      · cases hread

theorem readAll_spec {first : Bool} {number : Nat} {chunks : List Chunk}
    (hlines : Lines.Unbroken lines) (hread : readAll first number lines = .ok (chunks, rest)) :
    (∀ chunk ∈ chunks, chunk.WellFormed) ∧ rest <:+ lines := by
  fun_induction readAll first number lines generalizing chunks rest with
  | case1 =>
    cases hread
    exact ⟨List.forall_mem_nil _, List.suffix_refl []⟩
  | case2 first number line behind hblank ih =>
    have hbehind := List.suffix_cons line behind
    obtain ⟨hchunks, hrest⟩ := ih (hlines.of_suffix hbehind) hread
    exact ⟨hchunks, hrest.trans hbehind⟩
  | case3 =>
    cases hread
    exact ⟨List.forall_mem_nil _, List.suffix_refl _⟩
  | case4 => cases hread
  | case5 => cases hread
  | case6 first number line behind hblank hstop chunk left hchunk hlength chunks last hrest ih =>
    cases hread
    obtain ⟨hfirst, hleft⟩ := read_spec hlines hchunk
    obtain ⟨hothers, hlast⟩ := ih (hlines.of_suffix hleft) hrest
    rw [List.forall_mem_cons]
    exact ⟨⟨hfirst, hothers⟩, hlast.trans hleft⟩

end Chunk

/-! ## Hunks -/

namespace Hunk

variable {number : Nat} {lines rest : List Bytes} {hunk : Hunk}

theorem endsLine_of_destination? (hlines : Lines.Unbroken lines) :
    ∀ moved ∈ lines.head?.bind destination?, moved.EndsLine := by
  intro moved hmoved
  obtain ⟨line, hline, hmoved⟩ := Option.bind_eq_some_iff.mp hmoved
  exact Marker.opens_moveTo.endsLine (hlines line (List.mem_of_mem_head? hline)) hmoved

theorem readUpdate_spec {path : Bytes} (hpath : path.EndsLine) (hlines : Lines.Unbroken lines)
    (hread : readUpdate path number lines = .ok (hunk, rest)) :
    hunk.WellFormed ∧ rest <:+ lines := by
  have hmoved := endsLine_of_destination? hlines
  simp only [readUpdate] at hread
  generalize lines.head?.bind destination? = destination at *
  split at hread
  · cases hread
  · cases hread
  · rename_i chunks left hne hchunks
    have hdrop := List.drop_suffix (if destination.isSome = true then 1 else 0) lines
    obtain ⟨hall, hleft⟩ := Chunk.readAll_spec (hlines.of_suffix hdrop) hchunks
    cases hread
    exact ⟨⟨hpath, hmoved, hne, hall⟩, hleft.trans hdrop⟩

/-- Contents read line by line are made of whole lines. -/
theorem contentsOf_ends (lines : List Bytes) :
    contentsOf lines = [] ∨ (contentsOf lines).getLast? = some newline := by
  induction lines with
  | nil => exact .inl rfl
  | cons line lines ih =>
    right
    have hcons : contentsOf (line :: lines) =
        line.drop 1 ++ [newline] ++ contentsOf lines := List.flatMap_cons
    rw [hcons]
    rcases ih with hempty | hlast
    · rw [hempty, List.append_nil, List.getLast?_concat]
    · rw [List.getLast?_append, hlast]
      rfl

theorem read_spec {line : Bytes} (hline : newline ∉ line) (hlines : Lines.Unbroken lines)
    (hread : read number line lines = .ok (hunk, rest)) : hunk.WellFormed ∧ rest <:+ lines := by
  simp only [read] at hread
  split at hread
  · rename_i path hpath
    cases hread
    exact ⟨⟨Marker.opens_addFile.endsLine hline hpath, contentsOf_ends _⟩,
      List.dropWhile_suffix isAddition⟩
  · split at hread
    · rename_i path hpath
      cases hread
      exact ⟨Marker.opens_deleteFile.endsLine hline hpath, List.suffix_refl lines⟩
    · split at hread
      · rename_i path hpath
        exact readUpdate_spec (Marker.opens_updateFile.endsLine hline hpath) hlines hread
      · cases hread

theorem readAll_spec {hunks : List Hunk} (hlines : Lines.Unbroken lines)
    (hread : readAll number lines = .ok hunks) : ∀ hunk ∈ hunks, hunk.WellFormed := by
  fun_induction readAll number lines generalizing hunks with
  | case1 =>
    cases hread
    exact List.forall_mem_nil _
  | case2 => cases hread
  | case3 => cases hread
  | case4 number line behind hunk left hhunk hlength hunks hrest ih =>
    cases hread
    have hbehind := hlines.of_suffix (List.suffix_cons line behind)
    obtain ⟨hfirst, hleft⟩ := read_spec (hlines line List.mem_cons_self) hbehind hhunk
    rw [List.forall_mem_cons]
    exact ⟨hfirst, ih (hbehind.of_suffix hleft) hrest⟩

end Hunk

/-! ## Patches -/

/-- The lines of a patch are some of those that it may be wrapped in. -/
theorem Envelope.mem_of_unwrap {lines inner : List Bytes} (hunwrap : unwrap lines = .ok inner) :
    ∀ line ∈ inner, line ∈ lines := by
  intro line hline
  rw [unwrap] at hunwrap
  split at hunwrap
  · cases hunwrap
    exact hline
  · split at hunwrap
    · obtain rfl : lines.tail.dropLast = inner := by
        simp only [] at hunwrap
        cases hcheck : check lines.tail.dropLast with
        | error problem =>
          rw [hcheck] at hunwrap
          cases hunwrap
        | ok =>
          rw [hcheck] at hunwrap
          cases hunwrap
          rfl
      exact List.mem_of_mem_tail (List.mem_of_mem_dropLast hline)
    · cases hunwrap

/-- A patch that is read from a text is well-formed. -/
theorem Patch.wellFormed_of_parse {source : Bytes} {patch : Patch}
    (hparse : parse source = .ok patch) : patch.WellFormed := by
  rw [parse] at hparse
  split at hparse
  · cases hparse
  · split at hparse
    · cases hparse
    · rename_i lines hunwrap
      have hlines : Lines.Unbroken lines.tail.dropLast := fun line hline =>
        Lines.newline_notMem_of_mem_ofPatch (Envelope.mem_of_unwrap hunwrap line
          (List.mem_of_mem_tail (List.mem_of_mem_dropLast hline)))
      exact Hunk.readAll_spec hlines hparse

end Patchwork
