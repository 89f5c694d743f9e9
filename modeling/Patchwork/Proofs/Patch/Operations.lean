import Patchwork.Proofs.Patch.RoundTrip

/-!
# Lines that mean what their signs say

Operations are written behind a chunk marker, every text behind the sign of its operation.  They
are read back as they were meant, whatever the texts are, up to a line that stays in the file and
looks like the end-of-file mark: the mark wins over the sign, so the chunk ends there.  Main
statement: `Chunk.read_operations`.
-/

namespace Patchwork

open Bytes (trim)

namespace Operation

/-- The operation keeps a line that is the end-of-file mark, apart from blanks around it. -/
def keepsEndMark : Operation → Bool
  | keep text => trim text == Marker.endOfFile
  | insert _ | remove _ => false

/-- The sign of a kept line is a blank itself. -/
theorem trim_toLine_keep (text : Bytes) : trim (toLine (keep text)) = trim text := by
  have hblank : ∀ byte ∈ [LineKind.contextSign], Bytes.isBlank byte = true := by
    rw [List.forall_mem_singleton]
    rfl
  exact Bytes.trim_blank_append hblank text

variable {operation : Operation}

theorem ofLine?_toLine (hsigned : ¬ operation.keepsEndMark = true) :
    ofLine? operation.toLine = some operation := by
  cases operation with
  | insert text => exact ofLine?_insert text
  | remove text => exact ofLine?_remove text
  | keep text =>
    have hmark : trim (toLine (keep text)) ≠ Marker.endOfFile := by
      rw [trim_toLine_keep]
      exact fun heq => hsigned (beq_iff_eq.mpr heq)
    rw [toLine] at hmark ⊢
    rw [ofLine?, LineKind.ofLine, if_neg hmark]
    rfl

theorem ofLine_toLine (hmasked : operation.keepsEndMark = true) :
    LineKind.ofLine operation.toLine = .endOfFile := by
  cases operation with
  | insert | remove => cases hmasked
  | keep text =>
    have hmark : trim (toLine (keep text)) = Marker.endOfFile := by
      rw [trim_toLine_keep]
      exact beq_iff_eq.mp hmasked
    rw [LineKind.ofLine.eq_def, if_pos hmark]

end Operation

namespace Chunk

open Operation (toLine)

/-- A line at which the next chunk or the next hunk begins. -/
def BeginsPart (line : Bytes) : Prop :=
  ∃ marker ∈ [Marker.chunk, Marker.addFile, Marker.deleteFile, Marker.updateFile], marker <+: line

instance : DecidablePred BeginsPart := fun line =>
  inferInstanceAs (Decidable (∃ marker ∈ _, marker <+: line))

variable {markerOptional : Bool} {number : Nat} {operations before after : List Operation}
  {operation : Operation} {rest : List Bytes}

/-- The first byte of every such marker is visible and no sign, and no line that begins with the
marker is the mark of the end of the file. -/
theorem closes_of_beginsPart (hrest : ∀ line ∈ rest.head?, BeginsPart line) : Closes rest := by
  have hmarkers : ∀ marker ∈ [Marker.chunk, Marker.addFile, Marker.deleteFile, Marker.updateFile],
      (marker.head? = some 64 ∨ marker.head? = some 42) ∧ ¬ marker <+: Marker.endOfFile ∧
        ¬ Marker.endOfFile <+: marker := by decide
  intro line hline
  obtain ⟨marker, hmarker, hopens⟩ := hrest line hline
  obtain ⟨hfirst, hshorter, hlonger⟩ := hmarkers marker hmarker
  have hhead : line.head? = some 64 ∨ line.head? = some 42 := by
    obtain ⟨tail, rfl⟩ := hopens
    cases marker with
    | nil => simp at hfirst
    | cons sign marker => exact hfirst
  obtain ⟨sign, tail, rfl, hblank, hsign⟩ : ∃ sign tail, line = sign :: tail ∧
      Bytes.isBlank sign = false ∧ sign ≠ LineKind.contextSign ∧ sign ≠ LineKind.additionSign ∧
        sign ≠ LineKind.removalSign := by
    cases line with
    | nil => simp at hhead
    | cons sign tail =>
      simp only [List.head?_cons, Option.some.injEq] at hhead
      rcases hhead with rfl | rfl
      · exact ⟨_, tail, rfl, by decide⟩
      · exact ⟨_, tail, rfl, by decide⟩
  refine closes_cons (fun heq => ?_) hsign [] (sign :: tail) rfl
  have hmark : Marker.endOfFile <+: sign :: tail := by
    have htrimmed := Bytes.trim_isPrefix (sign :: tail)
    rwa [heq, Bytes.dropWhile_isBlank_cons hblank] at htrimmed
  rcases List.prefix_or_prefix_of_prefix hopens hmark with hprefix | hprefix
  · exact hshorter hprefix
  · exact hlonger hprefix

/-- Behind a plain marker the body of a chunk without an anchor is read. -/
theorem read_chunk (lines : List Bytes) :
    read markerOptional number (Marker.chunk :: lines) = readBody none (number + 1) lines := by
  have hheader : header? Marker.chunk = some none := by decide
  rw [read, hheader]

/-- Operations none of which keeps the end-of-file mark are read as they were meant. -/
theorem readBody_signed (hsigned : ∀ operation ∈ operations, ¬ operation.keepsEndMark = true)
    (hne : operations ≠ []) (hrest : Closes rest) :
    readBody none number (operations.map toLine ++ rest) =
      .ok (ofOperations none operations false, rest) := by
  have hrun : Operation.takeRun (operations.map toLine ++ rest) = (operations, rest) := by
    refine Operation.takeRun_toLine (fun operation hoperation =>
      Operation.ofLine?_toLine (hsigned operation hoperation)) fun line hline => ?_
    rw [Operation.ofLine?, hrest line hline]
  have hclose : close none operations rest = (ofOperations none operations false, rest) := by
    cases rest with
    | nil => rfl
    | cons line rest =>
      have hkind : LineKind.ofLine line = .other := hrest line rfl
      rw [close, if_neg (by rw [hkind]; decide)]
  obtain ⟨first, others, rfl⟩ := List.exists_cons_of_ne_nil hne
  rw [readBody, hrun]
  exact congrArg Except.ok hclose

/-- The first operation that keeps the end-of-file mark ends the chunk. -/
theorem readBody_masked (hsigned : ∀ operation ∈ before, ¬ operation.keepsEndMark = true)
    (hmasked : operation.keepsEndMark = true) (behind : List Bytes) :
    readBody none number (before.map toLine ++ operation.toLine :: behind) =
      if before = [] then .error (.emptyChunk number)
      else .ok (ofOperations none before true, behind) := by
  have hkind := Operation.ofLine_toLine hmasked
  have hrun : Operation.takeRun (before.map toLine ++ operation.toLine :: behind) =
      (before, operation.toLine :: behind) := by
    refine Operation.takeRun_toLine (fun operation hoperation =>
      Operation.ofLine?_toLine (hsigned operation hoperation)) fun line hline => ?_
    obtain rfl : operation.toLine = line := Option.some.inj hline
    rw [Operation.ofLine?, hkind]
  rw [readBody, hrun]
  cases before with
  | nil => simp only [hkind, if_true]
  | cons first others =>
    rw [if_neg (List.cons_ne_nil first others)]
    simp only [close, hkind, if_true]

/-- Operations behind a marker, in front of the next chunk or hunk or of nothing, are read as they
were meant, with nothing but their lines taken, exactly if none of them keeps the end-of-file mark.
The first one that does is read as that mark: it ends the chunk, whose end is then the end of the
file, and what stands behind it is left, or there is no chunk if nothing stands before it. -/
theorem read_operations (markerOptional : Bool) (number : Nat) (operations : List Operation)
    (rest : List Bytes) (hne : operations ≠ [])
    (hrest : ∀ line ∈ rest.head?, BeginsPart line) :
    (read markerOptional number (Marker.chunk :: (operations.map toLine ++ rest)) =
        .ok (⟨none, operations.filterMap Operation.old?, operations.filterMap Operation.new?,
          false⟩, rest) ↔
      ∀ operation ∈ operations, ¬ operation.keepsEndMark = true) ∧
    ∀ before operation after, operations = before ++ operation :: after →
      (∀ earlier ∈ before, ¬ earlier.keepsEndMark = true) → operation.keepsEndMark = true →
      read markerOptional number (Marker.chunk :: (operations.map toLine ++ rest)) =
        if before = [] then .error (.emptyChunk (number + 1))
        else .ok (⟨none, before.filterMap Operation.old?, before.filterMap Operation.new?, true⟩,
          after.map toLine ++ rest) := by
  have hmasked : ∀ before operation after, operations = before ++ operation :: after →
      (∀ earlier ∈ before, ¬ earlier.keepsEndMark = true) → operation.keepsEndMark = true →
      read markerOptional number (Marker.chunk :: (operations.map toLine ++ rest)) =
        if before = [] then .error (.emptyChunk (number + 1))
        else .ok (ofOperations none before true, after.map toLine ++ rest) := by
    rintro before operation after rfl hsigned hmasked
    rw [read_chunk, List.map_append, List.map_cons, List.append_assoc, List.cons_append]
    exact readBody_masked hsigned hmasked _
  refine ⟨⟨fun hread => ?_, fun hsigned => ?_⟩, hmasked⟩
  · by_contra hnot
    obtain ⟨found, hfound⟩ := Option.isSome_iff_exists.mp
      (List.find?_isSome.mpr (by simpa only [not_forall, not_not, exists_prop] using hnot))
    obtain ⟨hkeeps, before, after, hsplit, hsigned⟩ := List.find?_eq_some_iff_append.mp hfound
    rw [hmasked before found after hsplit (by simpa using hsigned) hkeeps] at hread
    split at hread
    · cases hread
    · have hends := congrArg (Chunk.atEnd ∘ Prod.fst) (Except.ok.inj hread)
      cases hends
  · rw [read_chunk]
    exact readBody_signed hsigned hne (closes_of_beginsPart hrest)

/-- Texts that look like marks and markers behind every sign. -/
def markedOperations : List Operation :=
  [.keep (text "@@"), .insert (text "*** End of File"), .remove (text " *** End of File"),
    .keep (text "+*** End of File"), .insert [], .keep (text "*** Add File: f")]

theorem read_operations_marked :
    markedOperations ≠ [] ∧
      (∀ line ∈ [text "*** Add File: "].head?, BeginsPart line) ∧
      read false 7 (Marker.chunk :: (markedOperations.map toLine ++ [text "*** Add File: "])) =
        .ok (⟨none, [text "@@", text " *** End of File", text "+*** End of File",
            text "*** Add File: f"],
          [text "@@", text "*** End of File", text "+*** End of File", [],
            text "*** Add File: f"], false⟩, [text "*** Add File: "]) := by
  have hne : markedOperations ≠ [] := List.cons_ne_nil _ _
  have hrest : ∀ line ∈ [text "*** Add File: "].head?, BeginsPart line := by decide
  have hread := (read_operations false 7 markedOperations [text "*** Add File: "] hne hrest).1
  exact ⟨hne, hrest, hread.mpr (by decide)⟩

/-- A kept line that is the end-of-file mark ends the chunk, which loses what stands behind it. -/
theorem read_keptEndMark :
    read false 1 [text "@@", text " a", text " *** End of File", text "-b"] =
      .ok (⟨none, [text "a"], [text "a"], true⟩, [text "-b"]) := by
  decide

end Chunk

end Patchwork
