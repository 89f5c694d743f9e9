import Patchwork.Proofs.Patch.WellFormed

/-!
# Well-formed patches are read back

The readers of a part find it at its canonical lines, whatever stops them behind it.  Main
statement: `Patch.parse_roundTrip`.
-/

namespace Patchwork

open Bytes (trim newline isBlank EndsLine)

/-! ## What lines mean inside a chunk -/

/-- A line that begins with another visible byte is no end-of-file mark. -/
theorem LineKind.trim_ne_endOfFile (sign : UInt8) (hblank : isBlank sign = false)
    (hsign : sign ≠ 42) (line : Bytes) : trim (sign :: line) ≠ Marker.endOfFile := by
  intro heq
  have hfirst := Bytes.head?_trim_cons hblank line
  rw [heq] at hfirst
  exact hsign (Option.some.inj hfirst).symm

/-- Lines behind a chunk at which its operations stop. -/
def Chunk.Closes (rest : List Bytes) : Prop :=
  ∀ line ∈ rest.head?, LineKind.ofLine line = .other

namespace Operation

/-- An operation as a line of a chunk. -/
def toLine : Operation → Bytes
  | keep line => LineKind.contextSign :: line
  | insert line => LineKind.additionSign :: line
  | remove line => LineKind.removalSign :: line

theorem ofLine?_insert (line : Bytes) : ofLine? (toLine (insert line)) = some (insert line) := by
  have hmark := LineKind.trim_ne_endOfFile LineKind.additionSign rfl (by decide) line
  rw [toLine, ofLine?, LineKind.ofLine, if_neg hmark]
  rfl

theorem ofLine?_remove (line : Bytes) : ofLine? (toLine (remove line)) = some (remove line) := by
  have hmark := LineKind.trim_ne_endOfFile LineKind.removalSign rfl (by decide) line
  rw [toLine, ofLine?, LineKind.ofLine, if_neg hmark]
  rfl

theorem takeRun_toLine {operations : List Operation} {rest : List Bytes}
    (hoperations : ∀ operation ∈ operations, ofLine? operation.toLine = some operation)
    (hrest : ∀ line ∈ rest.head?, ofLine? line = none) :
    takeRun (operations.map toLine ++ rest) = (operations, rest) := by
  induction operations with
  | nil =>
    cases rest with
    | nil => rfl
    | cons line rest =>
      rw [List.map_nil, List.nil_append, takeRun, hrest line rfl]
  | cons operation operations ih =>
    rw [List.forall_mem_cons] at hoperations
    rw [List.map_cons, List.cons_append, takeRun, hoperations.1, ih hoperations.2]

end Operation

/-! ## Chunks -/

namespace Chunk

/-- What a chunk does: it removes its old lines and inserts its new ones. -/
def operations (chunk : Chunk) : List Operation :=
  chunk.oldLines.map Operation.remove ++ chunk.newLines.map Operation.insert

/-- The mark that stands behind a chunk at the end of a file. -/
def endLines (chunk : Chunk) : List Bytes :=
  if chunk.atEnd then [Marker.endOfFile] else []

theorem toLines_eq (chunk : Chunk) :
    chunk.toLines =
      chunk.markerLine :: (chunk.operations.map Operation.toLine ++ chunk.endLines) := by
  rw [toLines, operations, List.map_append, List.map_map, List.map_map]
  rfl

theorem ofLine?_of_mem_operations (chunk : Chunk) :
    ∀ operation ∈ chunk.operations, Operation.ofLine? operation.toLine = some operation := by
  intro operation hoperation
  rw [operations, List.mem_append, List.mem_map, List.mem_map] at hoperation
  rcases hoperation with ⟨line, -, rfl⟩ | ⟨line, -, rfl⟩
  · exact Operation.ofLine?_remove line
  · exact Operation.ofLine?_insert line

theorem ofOperations_operations (chunk : Chunk) :
    ofOperations chunk.anchor chunk.operations chunk.atEnd = chunk := by
  have hold : chunk.operations.filterMap Operation.old? = chunk.oldLines := by
    have hinserts : (chunk.newLines.map Operation.insert).filterMap Operation.old? = [] := by
      rw [List.filterMap_map, List.filterMap_eq_nil_iff]
      exact fun _ _ => rfl
    rw [operations, List.filterMap_append, hinserts, List.append_nil, List.filterMap_map]
    exact List.filterMap_some
  have hnew : chunk.operations.filterMap Operation.new? = chunk.newLines := by
    have hremoves : (chunk.oldLines.map Operation.remove).filterMap Operation.new? = [] := by
      rw [List.filterMap_map, List.filterMap_eq_nil_iff]
      exact fun _ _ => rfl
    rw [operations, List.filterMap_append, hremoves, List.nil_append, List.filterMap_map]
    exact List.filterMap_some
  rw [ofOperations, hold, hnew]

theorem close_operations (chunk : Chunk) {rest : List Bytes} (hrest : Closes rest) :
    close chunk.anchor chunk.operations (chunk.endLines ++ rest) = (chunk, rest) := by
  have hchunk := chunk.ofOperations_operations
  rw [endLines]
  cases hend : chunk.atEnd with
  | false =>
    rw [hend] at hchunk
    rw [if_neg Bool.false_ne_true, List.nil_append]
    cases rest with
    | nil => rw [close, hchunk]
    | cons line rest =>
      have hkind : LineKind.ofLine line = .other := hrest line rfl
      rw [close, if_neg (by rw [hkind]; decide), hchunk]
  | true =>
    rw [hend] at hchunk
    rw [if_pos rfl, List.singleton_append, close, if_pos (by decide), hchunk]

/-- The operations of a chunk stop at its end-of-file mark or at the lines behind it. -/
theorem ofLine?_eq_none_of_closes (chunk : Chunk) {rest : List Bytes} (hrest : Closes rest) :
    ∀ line ∈ (chunk.endLines ++ rest).head?, Operation.ofLine? line = none := by
  intro line hline
  rw [endLines] at hline
  cases hend : chunk.atEnd with
  | false =>
    rw [hend, if_neg Bool.false_ne_true, List.nil_append] at hline
    rw [Operation.ofLine?, hrest line hline]
  | true =>
    rw [hend, if_pos rfl] at hline
    obtain rfl : Marker.endOfFile = line := Option.some.inj hline
    decide

theorem header?_markerLine {chunk : Chunk} (hanchor : ∀ content ∈ chunk.anchor, content.EndsLine) :
    header? chunk.markerLine = some chunk.anchor := by
  rw [header?, markerLine]
  cases hcase : chunk.anchor with
  | none => decide
  | some content =>
    have hafter := Marker.opens_anchoredChunk.after?_trim (hanchor content hcase)
    have hne : trim (Marker.anchoredChunk ++ content) ≠ Marker.chunk := by
      have hnone : Marker.after? Marker.anchoredChunk Marker.chunk = none := by decide
      intro heq
      rw [heq, hnone] at hafter
      cases hafter
    simp only []
    rw [if_neg hne, hafter]
    rfl

theorem read_toLines {chunk : Chunk} (hchunk : chunk.WellFormed) {rest : List Bytes}
    (hrest : Closes rest) (first : Bool) (number : Nat) :
    read first number (chunk.toLines ++ rest) = .ok (chunk, rest) := by
  have hrun := Operation.takeRun_toLine chunk.ofLine?_of_mem_operations
    (chunk.ofLine?_eq_none_of_closes hrest)
  have hclose := chunk.close_operations hrest
  have hne : chunk.operations ≠ [] := by
    rw [operations, ne_eq, List.append_eq_nil_iff, List.map_eq_nil_iff, List.map_eq_nil_iff]
    rcases hchunk.1 with hold | hnew
    · exact fun hempty => hold hempty.1
    · exact fun hempty => hnew hempty.2
  rw [toLines_eq, List.cons_append, List.append_assoc, read, header?_markerLine hchunk.2.2.2]
  simp only []
  rw [readBody, hrun]
  obtain ⟨operation, operations, hoperations⟩ := List.exists_cons_of_ne_nil hne
  rw [hoperations] at hclose ⊢
  simp only []
  rw [hclose]

/-- Lines at which the chunks of an update stop. -/
def Halts (rest : List Bytes) : Prop :=
  ∀ line ∈ rest.head?, Marker.stop <+: line ∧ trim line ≠ Marker.endOfFile

theorem closes_cons {sign : UInt8} {line : Bytes} (hmark : trim (sign :: line) ≠ Marker.endOfFile)
    (hsign : sign ≠ LineKind.contextSign ∧ sign ≠ LineKind.additionSign ∧
      sign ≠ LineKind.removalSign) (rest : List Bytes) : Closes ((sign :: line) :: rest) := by
  intro found hfound
  obtain rfl : sign :: line = found := Option.some.inj hfound
  rw [LineKind.ofLine, if_neg hmark, if_neg hsign.1, if_neg hsign.2.1,
    if_neg hsign.2.2]

theorem halts_nil : Halts [] :=
  fun line hline => absurd hline (Option.not_mem_none line)

theorem closes_nil : Closes [] :=
  fun line hline => absurd hline (Option.not_mem_none line)

theorem Halts.closes {rest : List Bytes} (hrest : Halts rest) : Closes rest := by
  cases rest with
  | nil => exact closes_nil
  | cons line rest =>
    obtain ⟨⟨tail, rfl⟩, hmark⟩ := hrest line rfl
    exact closes_cons hmark (by decide) rest

theorem markerLine_eq (chunk : Chunk) : ∃ tail, chunk.markerLine = 64 :: tail := by
  rw [markerLine]
  cases chunk.anchor with
  | none => exact ⟨[64], by decide⟩
  | some content => exact ⟨[64, 32] ++ content, by rfl⟩

theorem closes_toLines (chunk : Chunk) (rest : List Bytes) : Closes (chunk.toLines ++ rest) := by
  obtain ⟨tail, hmarker⟩ := chunk.markerLine_eq
  rw [toLines_eq, List.cons_append, hmarker]
  exact closes_cons (LineKind.trim_ne_endOfFile 64 rfl (by decide) tail) (by decide) _

theorem readAll_halts {rest : List Bytes} (hrest : Halts rest) (first : Bool) (number : Nat) :
    readAll first number rest = .ok ([], rest) := by
  cases rest with
  | nil => rw [readAll]
  | cons line rest =>
    obtain ⟨hstop, -⟩ := hrest line rfl
    have hblank : trim line ≠ [] := by
      obtain ⟨tail, rfl⟩ := hstop
      exact Bytes.trim_cons_ne_nil rfl _
    rw [readAll, if_neg hblank, if_pos (List.isPrefixOf_iff_prefix.mpr hstop)]

/-- A chunk that is read at a line which is neither blank nor a stop is the first one. -/
theorem readAll_of_read {first : Bool} {number : Nat} {line : Bytes}
    {lines behind rest : List Bytes} {chunk : Chunk} {chunks : List Chunk}
    (hblank : trim line ≠ []) (hstop : ¬ Marker.stop <+: line)
    (hread : read first number (line :: lines) = .ok (chunk, behind))
    (hbehind : ∀ number, readAll false number behind = .ok (chunks, rest)) :
    readAll first number (line :: lines) = .ok (chunk :: chunks, rest) := by
  rw [readAll, if_neg hblank, if_neg fun hstops => hstop (List.isPrefixOf_iff_prefix.mp hstops)]
  split
  · rename_i problem herror
    rw [hread] at herror
    cases herror
  · rename_i found left hfound
    rw [hread] at hfound
    cases hfound
    simp only [hbehind]

theorem readAll_toLines {chunks : List Chunk} (hchunks : ∀ chunk ∈ chunks, chunk.WellFormed)
    {rest : List Bytes} (hrest : Halts rest) (first : Bool) (number : Nat) :
    readAll first number (chunks.flatMap toLines ++ rest) = .ok (chunks, rest) := by
  induction chunks generalizing first number with
  | nil => exact readAll_halts hrest first number
  | cons chunk chunks ih =>
    rw [List.forall_mem_cons] at hchunks
    have hcloses : Closes (chunks.flatMap toLines ++ rest) := by
      cases chunks with
      | nil => exact hrest.closes
      | cons next chunks =>
        rw [List.flatMap_cons, List.append_assoc]
        exact next.closes_toLines _
    have hread := read_toLines hchunks.1 hcloses first number
    obtain ⟨tail, hmarker⟩ := chunk.markerLine_eq
    rw [List.flatMap_cons, List.append_assoc]
    rw [toLines_eq, List.cons_append, hmarker] at hread ⊢
    refine readAll_of_read (Bytes.trim_cons_ne_nil rfl tail) ?_ hread (ih hchunks.2 false)
    rintro ⟨behind, hbehind⟩
    exact absurd (List.head_eq_of_cons_eq hbehind) (by decide)

/-- The lines of a well-formed chunk hold no line feed. -/
theorem unbroken_toLines {chunk : Chunk} (hchunk : chunk.WellFormed) :
    Lines.Unbroken chunk.toLines := by
  obtain ⟨-, hold, hnew, hanchor⟩ := hchunk
  have hmarker : newline ∉ chunk.markerLine := by
    rw [markerLine]
    cases hcase : chunk.anchor with
    | none => decide
    | some content => exact List.not_mem_append (by decide) (hanchor content hcase).2.1
  rw [toLines, Lines.Unbroken, List.forall_mem_cons, List.forall_mem_append,
    List.forall_mem_append, List.forall_mem_map, List.forall_mem_map]
  refine ⟨hmarker, ⟨fun line hline => ?_, fun line hline => ?_⟩, ?_⟩
  · exact List.not_mem_cons_of_ne_of_not_mem (by decide) (hold line hline)
  · exact List.not_mem_cons_of_ne_of_not_mem (by decide) (hnew line hline)
  · intro line hline
    split at hline
    · rw [List.mem_singleton.mp hline]
      decide
    · cases hline

end Chunk

/-! ## Hunks -/

/-- Markers that a hunk begins with: chunks stop at them, and they are no end-of-file mark. -/
structure Marker.Heads (marker : Bytes) : Prop extends Marker.Opens marker where
  stops : Marker.stop <+: marker
  notEnd : ¬ marker <+: Marker.endOfFile

namespace Hunk

open Chunk (Halts)

theorem heads_addFile : Marker.Heads Marker.addFile :=
  ⟨Marker.opens_addFile, by decide, by decide⟩

theorem heads_deleteFile : Marker.Heads Marker.deleteFile :=
  ⟨Marker.opens_deleteFile, by decide, by decide⟩

theorem heads_updateFile : Marker.Heads Marker.updateFile :=
  ⟨Marker.opens_updateFile, by decide, by decide⟩

theorem halts_cons {marker path : Bytes} (hmarker : Marker.Heads marker) (hpath : path.EndsLine)
    (rest : List Bytes) : Halts ((marker ++ path) :: rest) := by
  intro line hline
  obtain rfl : marker ++ path = line := Option.some.inj hline
  refine ⟨hmarker.stops.trans (List.prefix_append marker path), ?_⟩
  rw [hmarker.trim_append hpath]
  intro heq
  exact hmarker.notEnd ⟨path, heq⟩

theorem halts_toLines {hunk : Hunk} (hhunk : hunk.WellFormed) (rest : List Bytes) :
    Halts (hunk.toLines ++ rest) := by
  cases hunk with
  | add path contents => exact halts_cons heads_addFile hhunk.1 _
  | delete path => exact halts_cons heads_deleteFile hhunk _
  | update path destination chunks => exact halts_cons heads_updateFile hhunk.1 _

variable {rest : List Bytes}

theorem isAddition_of_mem_map (lines : List Bytes) :
    ∀ line ∈ lines.map (LineKind.additionSign :: ·), isAddition line = true := by
  intro line hline
  obtain ⟨content, -, rfl⟩ := List.mem_map.mp hline
  rfl

theorem contentsOf_ofFile {contents : Bytes}
    (hcontents : contents = [] ∨ contents.getLast? = some newline) :
    contentsOf ((Lines.ofFile contents).map (LineKind.additionSign :: ·)) = contents := by
  rw [contentsOf, List.flatMap_map]
  exact Lines.flatMap_ofFile hcontents

/-- No line that chunks stop at is an added one. -/
theorem not_isAddition_of_halts {line : Bytes} {rest : List Bytes} (hrest : Halts (line :: rest)) :
    ¬ isAddition line = true := by
  obtain ⟨⟨tail, rfl⟩, -⟩ := hrest line rfl
  exact Bool.false_ne_true

theorem read_add {path contents : Bytes} (hhunk : (add path contents).WellFormed)
    (hrest : Halts rest) (number : Nat) :
    read number (Marker.addFile ++ path)
      ((Lines.ofFile contents).map (LineKind.additionSign :: ·) ++ rest) =
        .ok (add path contents, rest) := by
  have hadditions := isAddition_of_mem_map (Lines.ofFile contents)
  have htake : rest.takeWhile isAddition = [] := by
    cases rest with
    | nil => rfl
    | cons line rest => exact List.takeWhile_cons_of_neg (not_isAddition_of_halts hrest)
  have hdrop : rest.dropWhile isAddition = rest := by
    cases rest with
    | nil => rfl
    | cons line rest => exact List.dropWhile_cons_of_neg (not_isAddition_of_halts hrest)
  simp only [read, Marker.opens_addFile.after?_trim hhunk.1]
  rw [List.takeWhile_append_of_pos hadditions, List.dropWhile_append_of_pos hadditions, htake,
    hdrop, List.append_nil, contentsOf_ofFile hhunk.2]

theorem read_delete {path : Bytes} (hpath : path.EndsLine) (number : Nat) :
    read number (Marker.deleteFile ++ path) rest = .ok (delete path, rest) := by
  have hadd : Marker.after? Marker.addFile (trim (Marker.deleteFile ++ path)) = none := by
    rw [Marker.opens_deleteFile.trim_append hpath]
    rfl
  simp only [read, hadd, Marker.opens_deleteFile.after?_trim hpath]

/-- The marker of a chunk names no destination. -/
theorem destination?_markerLine (chunk : Chunk) : destination? chunk.markerLine = none := by
  obtain ⟨tail, hmarker⟩ := chunk.markerLine_eq
  have hfirst : (trim (64 :: tail)).head? = some 64 := Bytes.head?_trim_cons rfl tail
  rw [destination?, hmarker]
  cases hafter : Marker.after? Marker.moveTo (trim (64 :: tail)) with
  | none => rfl
  | some path =>
    rw [Marker.after?_eq_some_iff.mp hafter] at hfirst
    exact absurd (Option.some.inj hfirst) (by decide)

theorem readUpdate_toLines {path : Bytes} {destination : Option Bytes} {chunks : List Chunk}
    (hhunk : (update path destination chunks).WellFormed) (hrest : Halts rest) (number : Nat) :
    readUpdate path number
      (destination.toList.map (Marker.moveTo ++ ·) ++ chunks.flatMap Chunk.toLines ++ rest) =
        .ok (update path destination chunks, rest) := by
  obtain ⟨-, hmoved, hne, hchunks⟩ := hhunk
  obtain ⟨chunk, others, rfl⟩ := List.exists_cons_of_ne_nil hne
  have hread := Chunk.readAll_toLines hchunks hrest true
  rw [readUpdate]
  cases destination with
  | none =>
    have hhead : (((chunk :: others).flatMap Chunk.toLines ++ rest).head?).bind destination? =
        none := destination?_markerLine chunk
    simp only [Option.toList_none, List.map_nil, List.nil_append, hhead, Option.isSome_none,
      Bool.false_eq_true, if_false, List.drop_zero, hread]
  | some moved =>
    have hhead : destination? (Marker.moveTo ++ moved) = some moved :=
      Marker.opens_moveTo.after?_trim (hmoved moved rfl)
    simp only [Option.toList_some, List.map_singleton, List.cons_append, List.nil_append,
      List.head?_cons, Option.bind_some, hhead, Option.isSome_some, if_true, List.drop_one,
      List.tail_cons, hread]

theorem read_update {path : Bytes} {destination : Option Bytes} {chunks : List Chunk}
    (hhunk : (update path destination chunks).WellFormed) (hrest : Halts rest) (number : Nat) :
    read number (Marker.updateFile ++ path)
      (destination.toList.map (Marker.moveTo ++ ·) ++ chunks.flatMap Chunk.toLines ++ rest) =
        .ok (update path destination chunks, rest) := by
  have hheader := Marker.opens_updateFile.trim_append hhunk.1
  have hadd : Marker.after? Marker.addFile (Marker.updateFile ++ path) = none := rfl
  have hdelete : Marker.after? Marker.deleteFile (Marker.updateFile ++ path) = none := rfl
  have hupdate : Marker.after? Marker.updateFile (Marker.updateFile ++ path) = some path :=
    Marker.after?_eq_some_iff.mpr rfl
  simp only [read, hheader, hadd, hdelete, hupdate]
  exact readUpdate_toLines hhunk hrest number

/-- The lines of a hunk are a header and what is read behind it. -/
theorem read_toLines {hunk : Hunk} (hhunk : hunk.WellFormed) (hrest : Halts rest) :
    ∃ header body, hunk.toLines = header :: body ∧
      ∀ number, read number header (body ++ rest) = .ok (hunk, rest) := by
  cases hunk with
  | add path contents => exact ⟨_, _, rfl, read_add hhunk hrest⟩
  | delete path => exact ⟨_, _, rfl, read_delete hhunk⟩
  | update path destination chunks => exact ⟨_, _, rfl, read_update hhunk hrest⟩

theorem readAll_of_read {number : Nat} {line : Bytes} {lines behind : List Bytes} {hunk : Hunk}
    {hunks : List Hunk} (hread : read number line lines = .ok (hunk, behind))
    (hbehind : ∀ number, readAll number behind = .ok hunks) :
    readAll number (line :: lines) = .ok (hunk :: hunks) := by
  rw [readAll]
  split
  · rename_i problem herror
    rw [hread] at herror
    cases herror
  · rename_i found left hfound
    rw [hread] at hfound
    cases hfound
    simp only [hbehind]

theorem readAll_toLines {hunks : List Hunk} (hhunks : ∀ hunk ∈ hunks, hunk.WellFormed)
    (number : Nat) : readAll number (hunks.flatMap toLines) = .ok hunks := by
  induction hunks generalizing number with
  | nil => rw [List.flatMap_nil, readAll]
  | cons hunk hunks ih =>
    rw [List.forall_mem_cons] at hhunks
    have hhalts : Halts (hunks.flatMap toLines) := by
      cases hunks with
      | nil => exact Chunk.halts_nil
      | cons next hunks =>
        rw [List.flatMap_cons]
        exact halts_toLines (hhunks.2 next List.mem_cons_self) _
    obtain ⟨header, body, hlines, hread⟩ := read_toLines hhunks.1 hhalts
    rw [List.flatMap_cons, hlines, List.cons_append]
    exact readAll_of_read (hread number) (ih hhunks.2)

/-- The lines of a well-formed hunk hold no line feed. -/
theorem unbroken_toLines {hunk : Hunk} (hhunk : hunk.WellFormed) :
    Lines.Unbroken hunk.toLines := by
  cases hunk with
  | add path contents =>
    rw [toLines, Lines.Unbroken, List.forall_mem_cons, List.forall_mem_map]
    refine ⟨List.not_mem_append (by decide) hhunk.1.2.1, fun line hline => ?_⟩
    exact List.not_mem_cons_of_ne_of_not_mem (by decide)
      (Lines.newline_notMem_of_mem_ofFile hline)
  | delete path =>
    rw [toLines, Lines.Unbroken, List.forall_mem_singleton]
    exact List.not_mem_append (by decide) hhunk.2.1
  | update path destination chunks =>
    obtain ⟨hpath, hmoved, -, hchunks⟩ := hhunk
    rw [toLines, Lines.Unbroken, List.forall_mem_cons, List.forall_mem_append,
      List.forall_mem_map]
    refine ⟨List.not_mem_append (by decide) hpath.2.1, fun moved hmem => ?_, ?_⟩
    · exact List.not_mem_append (by decide) (hmoved moved (Option.mem_toList.mp hmem)).2.1
    · intro line hline
      obtain ⟨chunk, hchunk, hline⟩ := List.mem_flatMap.mp hline
      exact Chunk.unbroken_toLines (hchunks chunk hchunk) line hline

end Hunk

/-! ## Patches -/

namespace Patch

/-- The lines of a patch in front of its closing marker. -/
def openLines (patch : Patch) : List Bytes :=
  Marker.beginPatch :: patch.flatMap Hunk.toLines

theorem toLines_eq (patch : Patch) : patch.toLines = patch.openLines ++ [Marker.endPatch] := rfl

theorem trim_print (patch : Patch) :
    trim patch.print = patch.openLines.flatMap
      (fun line => line ++ [Bytes.carriageReturn, newline]) ++ Marker.endPatch := by
  have hblanks : ∀ byte ∈ [Bytes.carriageReturn, newline], isBlank byte = true := by
    rw [List.forall_mem_cons, List.forall_mem_singleton]
    exact ⟨rfl, rfl⟩
  rw [print, toLines_eq, List.flatMap_append, List.flatMap_singleton, ← List.append_assoc,
    Bytes.trim_append_blank hblanks]
  apply Bytes.trim_eq_self
  · exact Bool.false_ne_true
  · rw [List.getLast?_append_of_ne_nil _ (by decide)]
    decide

theorem ofPatch_trim_print {patch : Patch} (hpatch : patch.WellFormed) :
    Lines.ofPatch (trim patch.print) = patch.toLines := by
  have hlines : Lines.Unbroken patch.openLines := by
    rw [openLines, Lines.Unbroken, List.forall_mem_cons]
    refine ⟨by decide, fun line hline => ?_⟩
    obtain ⟨hunk, hhunk, hline⟩ := List.mem_flatMap.mp hline
    exact Hunk.unbroken_toLines (hpatch hunk hhunk) line hline
  rw [trim_print, Lines.ofPatch_concat hlines (by decide) (by decide), toLines_eq]

theorem check_toLines (patch : Patch) : Envelope.check patch.toLines = .ok () := by
  have hhead : patch.toLines.head?.map trim = some Marker.beginPatch := by
    change some (trim Marker.beginPatch) = _
    decide
  have hlast : patch.toLines.getLast?.map trim = some Marker.endPatch := by
    rw [toLines_eq, List.getLast?_concat]
    decide
  have hlength : ¬ patch.toLines.length < 2 := by
    rw [toLines_eq, openLines, List.length_append, List.length_cons, List.length_singleton]
    omega
  rw [Envelope.check, if_neg (not_not.mpr hhead), if_neg (not_or.mpr ⟨hlength, not_not.mpr hlast⟩)]

theorem parse_print {patch : Patch} (hpatch : patch.WellFormed) :
    parse patch.print = .ok patch := by
  have hne : trim patch.print ≠ [] := by
    rw [trim_print]
    exact List.append_ne_nil_of_right_ne_nil _ (by decide)
  rw [parse, if_neg hne, ofPatch_trim_print hpatch, Envelope.unwrap, check_toLines]
  simp only []
  rw [readBody, toLines, List.tail_cons, List.dropLast_concat]
  exact Hunk.readAll_toLines hpatch 2

/-- Every patch that is read is well-formed, and every well-formed patch is what its canonical
text is read as. -/
theorem parse_roundTrip :
    (∀ source patch, parse source = .ok patch → patch.WellFormed) ∧
      ∀ patch : Patch, patch.WellFormed → parse patch.print = .ok patch :=
  ⟨fun _ _ => wellFormed_of_parse, fun _ => parse_print⟩

/-- A hunk of each kind, with carriage returns and blanks where lines keep them. -/
def threeHunks : Patch :=
  [.add (text " new\rfile") (text "one\r\n\n"), .delete (text "old"),
    .update (text "from") (some (text "to"))
      [⟨some (text " anchor"), [text "*** End of File\r"], [], false⟩,
        ⟨none, [[]], [text "+"], true⟩]]

theorem parse_roundTrip_threeHunks :
    threeHunks.WellFormed ∧ parse threeHunks.print = .ok threeHunks :=
  ⟨parse_roundTrip.1 threeHunks.print threeHunks (by decide +kernel),
    parse_roundTrip.2 threeHunks (by decide)⟩

end Patch

end Patchwork
