import Patchwork.Patch.Layout
import Patchwork.Proofs.Patch.RoundTrip

/-!
# Layouts of chunks

The readers of a chunk take the lines of one layout and leave the lines behind it, and they do so
wherever such lines stand; so does the reader of all chunks of an update.  Main statements:
`Hunk.Part.readAll_parts` and `Hunk.Part.exists_parts_of_readAll`.
-/

namespace Patchwork

open Bytes (trim)

/-! ## Runs of lines -/

section Runs

variable {α : Type} {test : α → Bool} {run behind : List α}

/-- A run in front of lines that do not continue it. -/
theorem takeWhile_run (hrun : ∀ item ∈ run, test item = true)
    (hbehind : ∀ item ∈ behind.head?, ¬ test item = true) :
    (run ++ behind).takeWhile test = run := by
  rw [List.takeWhile_append_of_pos hrun]
  cases behind with
  | nil => rw [List.takeWhile_nil, List.append_nil]
  | cons item behind =>
    rw [List.takeWhile_cons_of_neg (hbehind item rfl), List.append_nil]

theorem dropWhile_run (hrun : ∀ item ∈ run, test item = true)
    (hbehind : ∀ item ∈ behind.head?, ¬ test item = true) :
    (run ++ behind).dropWhile test = behind := by
  rw [List.dropWhile_append_of_pos hrun]
  cases behind with
  | nil => rfl
  | cons item behind => exact List.dropWhile_cons_of_neg (hbehind item rfl)

theorem not_of_mem_head?_dropWhile (test : α → Bool) (items : List α) :
    ∀ item ∈ (items.dropWhile test).head?, ¬ test item = true := by
  intro item hitem
  have hnot := List.head?_dropWhile_not test items
  rw [Option.mem_def.mp hitem] at hnot
  rw [hnot]
  exact Bool.false_ne_true

end Runs

/-! ## Lines of chunks -/

namespace Operation

/-- A line about a line of the file is read as an operation that has that line on the sides that
its sign says. -/
theorem exists_ofLine? {line : Bytes} (hchange : Chunk.isChange line = true) :
    ∃ operation, ofLine? line = some operation ∧
      operation.old? =
        (if line.head? ≠ some LineKind.additionSign then some (line.drop 1) else none) ∧
      operation.new? =
        (if line.head? ≠ some LineKind.removalSign then some (line.drop 1) else none) := by
  rw [Chunk.isChange, Bool.and_eq_true_iff, bne_iff_ne] at hchange
  obtain ⟨hmark, hsign⟩ := hchange
  rw [ofLine?, LineKind.ofLine.eq_def, if_neg hmark]
  cases line with
  | nil => exact ⟨_, rfl, rfl, rfl⟩
  | cons sign rest =>
    simp only [List.head?_cons, Option.all_some, Bool.or_eq_true, beq_iff_eq] at hsign
    rcases hsign with (rfl | rfl) | rfl
    all_goals exact ⟨_, rfl, rfl, rfl⟩

theorem ofLine?_eq_none {line : Bytes} (hother : ¬ Chunk.isChange line = true) :
    ofLine? line = none := by
  by_cases hmark : trim line = Marker.endOfFile
  · rw [ofLine?, LineKind.ofLine.eq_def, if_pos hmark]
  · rw [Chunk.isChange, Bool.and_eq_true_iff, bne_iff_ne] at hother
    cases line with
    | nil => exact absurd ⟨hmark, rfl⟩ hother
    | cons sign rest =>
      simp only [List.head?_cons, Option.all_some, Bool.or_eq_true, beq_iff_eq, hmark, ne_eq,
        not_false_eq_true, true_and, not_or] at hother
      rw [ofLine?, LineKind.ofLine, if_neg hmark, if_neg hother.1.1, if_neg hother.1.2,
        if_neg hother.2]

/-- The operations at the front of some lines are those of the lines about lines of the file. -/
theorem takeRun_eq (lines : List Bytes) :
    takeRun lines =
      ((lines.takeWhile Chunk.isChange).filterMap ofLine?, lines.dropWhile Chunk.isChange) := by
  induction lines with
  | nil => rfl
  | cons line lines ih =>
    by_cases hchange : Chunk.isChange line = true
    · obtain ⟨operation, hoperation, -⟩ := exists_ofLine? hchange
      rw [takeRun, hoperation, ih, List.takeWhile_cons_of_pos hchange,
        List.dropWhile_cons_of_pos hchange, List.filterMap_cons_some hoperation]
    · rw [takeRun, ofLine?_eq_none hchange, List.takeWhile_cons_of_neg hchange,
        List.dropWhile_cons_of_neg hchange]
      rfl

end Operation

namespace Chunk

variable {first : Bool} {number : Nat} {line : Bytes} {lines behind rest changes : List Bytes}
  {anchor : Option Bytes} {endMark : Option Bytes} {layout : Layout} {chunk : Chunk}

/-- The operations of changed lines make up the chunk that the lines describe. -/
theorem ofOperations_changes (hchanges : ∀ line ∈ changes, isChange line = true)
    (anchor : Option Bytes) (atEnd : Bool) :
    ofOperations anchor (changes.filterMap Operation.ofLine?) atEnd =
      ⟨anchor, (changes.filter (·.head? ≠ some LineKind.additionSign)).map (List.drop 1),
        (changes.filter (·.head? ≠ some LineKind.removalSign)).map (List.drop 1), atEnd⟩ := by
  have hsides : (changes.filterMap Operation.ofLine?).filterMap Operation.old? =
        (changes.filter (·.head? ≠ some LineKind.additionSign)).map (List.drop 1) ∧
      (changes.filterMap Operation.ofLine?).filterMap Operation.new? =
        (changes.filter (·.head? ≠ some LineKind.removalSign)).map (List.drop 1) := by
    induction changes with
    | nil => exact ⟨rfl, rfl⟩
    | cons line changes ih =>
      rw [List.forall_mem_cons] at hchanges
      obtain ⟨hold, hnew⟩ := ih hchanges.2
      obtain ⟨operation, hoperation, holdLine, hnewLine⟩ := Operation.exists_ofLine? hchanges.1
      rw [List.filterMap_cons_some hoperation, List.filterMap_cons, List.filterMap_cons, holdLine,
        hnewLine, hold, hnew]
      constructor
      · by_cases hsign : line.head? = some LineKind.additionSign <;> simp [hsign]
      · by_cases hsign : line.head? = some LineKind.removalSign <;> simp [hsign]
  rw [ofOperations, hsides.1, hsides.2]

theorem header?_eq_some_iff : header? line = some anchor ↔ Marks anchor line := by
  rw [header?, Marks.eq_def]
  by_cases hplain : trim line = Marker.chunk
  · rw [if_pos hplain, Option.some.injEq]
    cases anchor with
    | none => exact iff_of_true rfl hplain
    | some content =>
      refine iff_of_false (by rintro ⟨⟩) fun hmarker => ?_
      have hlonger : ¬ Marker.anchoredChunk <+: Marker.chunk := by decide
      exact hlonger ⟨content, hmarker.symm.trans hplain⟩
  · rw [if_neg hplain, Option.map_eq_some_iff]
    cases anchor with
    | none => exact iff_of_false (by rintro ⟨_, -, hsome⟩; cases hsome) hplain
    | some content => simp [Marker.after?_eq_some_iff]

theorem header?_eq_none_iff : header? line = none ↔ ∀ anchor, ¬ Marks anchor line := by
  simp only [Option.eq_none_iff_forall_ne_some, ne_eq, header?_eq_some_iff]

theorem ofLine_eq_endOfFile_iff :
    LineKind.ofLine line = .endOfFile ↔ trim line = Marker.endOfFile := by
  rw [LineKind.ofLine.eq_def]
  split
  · rename_i hmark
    exact iff_of_true rfl hmark
  · rename_i hmark
    refine iff_of_false ?_ hmark
    split
    · exact nofun
    · split_ifs <;> exact nofun

/-- A mark of the end of the file right behind the operations belongs to the chunk. -/
theorem close_eq_iff {operations : List Operation} :
    close anchor operations lines = (chunk, rest) ↔
      ∃ endMark : Option Bytes, lines = endMark.toList ++ rest ∧
        chunk = ofOperations anchor operations endMark.isSome ∧
        (∀ line ∈ endMark, trim line = Marker.endOfFile) ∧
        (endMark = none → ∀ line ∈ rest.head?, trim line ≠ Marker.endOfFile) := by
  constructor
  · intro hclose
    cases lines with
    | nil =>
      obtain ⟨rfl, rfl⟩ := Prod.mk.inj hclose
      exact ⟨none, rfl, rfl, by rintro _ ⟨⟩, by rintro _ _ ⟨⟩⟩
    | cons line lines =>
      rw [close] at hclose
      split at hclose
      · rename_i hmark
        obtain ⟨rfl, rfl⟩ := Prod.mk.inj hclose
        refine ⟨some line, rfl, rfl, fun marked hmarked => ?_, by rintro ⟨⟩⟩
        obtain rfl := Option.some.inj hmarked
        exact ofLine_eq_endOfFile_iff.mp hmark
      · rename_i hmark
        obtain ⟨rfl, rfl⟩ := Prod.mk.inj hclose
        refine ⟨none, rfl, rfl, by rintro _ ⟨⟩, fun _ next hnext heq => hmark ?_⟩
        obtain rfl := Option.some.inj hnext
        exact ofLine_eq_endOfFile_iff.mpr heq
  · rintro ⟨endMark, rfl, rfl, hmarked, hunmarked⟩
    cases endMark with
    | none =>
      cases rest with
      | nil => rfl
      | cons line rest =>
        have hnot := mt ofLine_eq_endOfFile_iff.mp (hunmarked rfl line rfl)
        rw [Option.toList_none, List.nil_append, close, if_neg hnot]
        rfl
    | some line =>
      rw [Option.toList_some, List.singleton_append, close,
        if_pos (ofLine_eq_endOfFile_iff.mpr (hmarked line rfl))]
      rfl

/-- A chunk is read behind its marker exactly where a run of lines about lines of the file stands
that is as long as it can be. -/
theorem readBody_eq_ok_iff :
    readBody anchor number lines = .ok (chunk, rest) ↔
      ∃ changes, ∃ endMark : Option Bytes, lines = changes ++ (endMark.toList ++ rest) ∧
        changes ≠ [] ∧ (∀ line ∈ changes, isChange line = true) ∧
        (∀ line ∈ (endMark.toList ++ rest).head?, ¬ isChange line = true) ∧
        chunk = ofOperations anchor (changes.filterMap Operation.ofLine?) endMark.isSome ∧
        (∀ line ∈ endMark, trim line = Marker.endOfFile) ∧
        (endMark = none → ∀ line ∈ rest.head?, trim line ≠ Marker.endOfFile) := by
  constructor
  · intro hread
    rw [readBody, Operation.takeRun_eq] at hread
    split at hread
    · rename_i operation operations behind hrun
      obtain ⟨hoperations, rfl⟩ := Prod.mk.inj hrun
      obtain ⟨endMark, hbehind, hchunk, hmarked, hunmarked⟩ :=
        close_eq_iff.mp (Except.ok.inj hread)
      refine ⟨lines.takeWhile isChange, endMark, ?_, ?_, fun line => List.mem_takeWhile_imp, ?_, ?_,
        hmarked, hunmarked⟩
      · rw [← hbehind, List.takeWhile_append_dropWhile]
      · intro hnil
        rw [hnil] at hoperations
        cases hoperations
      · rw [← hbehind]
        exact not_of_mem_head?_dropWhile isChange lines
      · rw [hchunk, hoperations]
    · cases hread
    · split at hread <;> cases hread
  · rintro ⟨changes, endMark, rfl, hne, hchanges, hlongest, hchunk, hmarked, hunmarked⟩
    obtain ⟨line, others, rfl⟩ := List.exists_cons_of_ne_nil hne
    obtain ⟨operation, hoperation, -⟩ := Operation.exists_ofLine? (hchanges line List.mem_cons_self)
    rw [List.filterMap_cons_some hoperation] at hchunk
    rw [readBody, Operation.takeRun_eq, takeWhile_run hchanges hlongest,
      dropWhile_run hchanges hlongest, List.filterMap_cons_some hoperation]
    exact congrArg Except.ok (close_eq_iff.mpr ⟨endMark, rfl, hchunk, hmarked, hunmarked⟩)

/-- The lines right behind a chunk without a mark do not bind it to the end of the file. -/
def Layout.Unmarked (layout : Layout) (behind : List Bytes) : Prop :=
  layout.endMark = none → ∀ line ∈ behind.head?, trim line ≠ Marker.endOfFile

theorem Layout.Fits.chunk_eq (hfits : layout.Fits first behind) :
    layout.chunk = ofOperations (layout.marker.bind Prod.snd)
      (layout.changes.filterMap Operation.ofLine?) layout.endMark.isSome := by
  rw [ofOperations_changes hfits.changes]
  rfl

/-- A chunk is read where its layout stands. -/
theorem read_layout (hfits : layout.Fits first behind) (hend : layout.Unmarked behind)
    (number : Nat) :
    read first number (layout.lines ++ behind) = .ok (layout.chunk, behind) := by
  have hbody : ∀ number, readBody (layout.marker.bind Prod.snd) number
      (layout.changes ++ (layout.endMark.toList ++ behind)) = .ok (layout.chunk, behind) :=
    fun number => readBody_eq_ok_iff.mpr ⟨layout.changes, layout.endMark, rfl, hfits.nonempty,
      hfits.changes, hfits.longest, hfits.chunk_eq, hfits.endMark, hend⟩
  cases hmarker : layout.marker with
  | some marker =>
    obtain ⟨line, anchor⟩ := marker
    have hheader := header?_eq_some_iff.mpr (hfits.marker line anchor hmarker)
    rw [Layout.lines, hmarker, Option.map_some, Option.toList_some, List.singleton_append,
      List.cons_append, List.append_assoc, read, hheader]
    rw [hmarker] at hbody
    exact hbody (number + 1)
  | none =>
    obtain ⟨hfirst, hunmarked⟩ := hfits.unmarked hmarker
    obtain ⟨line, others, hchanges⟩ := List.exists_cons_of_ne_nil hfits.nonempty
    rw [hchanges] at hunmarked hbody
    have hheader := header?_eq_none_iff.mpr (hunmarked line rfl).2
    rw [Layout.lines, hmarker, Option.map_none, Option.toList_none, List.nil_append, hchanges,
      List.append_assoc, List.cons_append, read, hheader]
    rw [hmarker, List.cons_append] at hbody
    simp only [hfirst, if_true]
    exact hbody number

/-- What is read as a chunk, at a line that is no separator, has the layout of one. -/
theorem exists_layout_of_read (hblank : ∀ line ∈ lines.head?, trim line ≠ [])
    (hread : read first number lines = .ok (chunk, rest)) :
    ∃ layout : Layout, lines = layout.lines ++ rest ∧ layout.Fits first rest ∧
      layout.chunk = chunk := by
  cases lines with
  | nil => cases hread
  | cons line lines =>
    rw [read] at hread
    split at hread
    · rename_i anchor hheader
      obtain ⟨changes, endMark, rfl, hne, hchanges, hlongest, rfl, hmarked, -⟩ :=
        readBody_eq_ok_iff.mp hread
      have hfits : (⟨some (line, anchor), changes, endMark⟩ : Layout).Fits first rest := {
        marker := fun other otherAnchor hsame => by
          obtain ⟨rfl, rfl⟩ := Prod.mk.inj (Option.some.inj hsame)
          exact header?_eq_some_iff.mp hheader
        unmarked := by rintro ⟨⟩
        nonempty := hne
        changes := hchanges
        longest := hlongest
        endMark := hmarked }
      refine ⟨_, ?_, hfits, hfits.chunk_eq⟩
      rw [Layout.lines, ← List.append_assoc]
      rfl
    · rename_i hheader
      split at hread
      · rename_i hfirst
        obtain ⟨changes, endMark, hlines, hne, hchanges, hlongest, rfl, hmarked, -⟩ :=
          readBody_eq_ok_iff.mp hread
        have hfits : (⟨none, changes, endMark⟩ : Layout).Fits first rest := {
          marker := by rintro _ _ ⟨⟩
          unmarked := fun _ => by
            obtain ⟨other, others, rfl⟩ := List.exists_cons_of_ne_nil hne
            obtain ⟨rfl, -⟩ := List.cons.inj hlines
            refine ⟨hfirst, fun next hnext => ?_⟩
            obtain rfl := Option.some.inj hnext
            exact ⟨hblank line rfl, header?_eq_none_iff.mp hheader⟩
          nonempty := hne
          changes := hchanges
          longest := hlongest
          endMark := hmarked }
        refine ⟨_, ?_, hfits, hfits.chunk_eq⟩
        rw [hlines, Layout.lines, ← List.append_assoc]
        rfl
      · cases hread

/-! ## Separators and chunks -/

theorem Marks.head?_trim (hmarks : Marks anchor line) : (trim line).head? = some 64 := by
  cases anchor with
  | none =>
    rw [show trim line = Marker.chunk from hmarks]
    rfl
  | some content =>
    rw [show trim line = Marker.anchoredChunk ++ content from hmarks]
    rfl

/-- A line that begins with three stars keeps them when it is trimmed. -/
theorem head?_trim_of_stop (hstop : Marker.stop <+: line) : (trim line).head? = some 42 := by
  obtain ⟨tail, rfl⟩ := hstop
  exact Bytes.head?_trim_cons rfl _

theorem not_stop_of_isChange (hchange : isChange line = true) : ¬ Marker.stop <+: line := by
  rintro ⟨tail, rfl⟩
  rw [isChange, Bool.and_eq_true_iff] at hchange
  exact Bool.false_ne_true hchange.2

/-- The first line of a chunk is no separator and does not end the update, and it is no mark of the
end of the file if it is a marker. -/
theorem Layout.Fits.exists_cons (hfits : layout.Fits first behind) :
    ∃ line tail, layout.lines = line :: tail ∧ trim line ≠ [] ∧ ¬ Marker.stop <+: line ∧
      (first = false → trim line ≠ Marker.endOfFile) := by
  cases hmarker : layout.marker with
  | some marker =>
    obtain ⟨line, anchor⟩ := marker
    have hhead := (hfits.marker line anchor hmarker).head?_trim
    refine ⟨line, layout.changes ++ layout.endMark.toList, ?_, ?_, fun hstop => ?_, fun _ => ?_⟩
    · rw [Layout.lines, hmarker]
      rfl
    · intro hnil
      rw [hnil] at hhead
      cases hhead
    · rw [head?_trim_of_stop hstop] at hhead
      exact absurd hhead (by decide)
    · intro hmark
      rw [hmark] at hhead
      exact absurd hhead (by decide)
  | none =>
    obtain ⟨hfirst, hunmarked⟩ := hfits.unmarked hmarker
    obtain ⟨line, others, hchanges⟩ := List.exists_cons_of_ne_nil hfits.nonempty
    have hchange := hfits.changes line (by rw [hchanges]; exact List.mem_cons_self)
    rw [hchanges] at hunmarked
    refine ⟨line, others ++ layout.endMark.toList, ?_, (hunmarked line rfl).1,
      not_stop_of_isChange hchange, fun hnot => ?_⟩
    · rw [Layout.lines, hmarker, hchanges]
      rfl
    · rw [hnot] at hfirst
      cases hfirst

end Chunk

namespace Hunk

namespace Part

variable {first : Bool} {lines behind rest : List Bytes} {parts : List Part}

/-- What follows a chunk is no mark of the end of the file. -/
theorem Fit.unmarked (hfit : Fit false parts behind)
    (hend : ∀ line ∈ behind.head?, trim line ≠ Marker.endOfFile) :
    ∀ line ∈ (parts.flatMap Part.lines ++ behind).head?, trim line ≠ Marker.endOfFile := by
  cases parts with
  | nil => exact hend
  | cons part parts =>
    intro line hline
    cases part with
    | separator blank =>
      obtain rfl : blank = line := Option.some.inj hline
      rw [hfit.1]
      decide
    | chunk layout =>
      obtain ⟨marker, tail, hlines, -, -, hmark⟩ := hfit.1.exists_cons
      have hlayout : (Part.chunk layout).lines = marker :: tail := hlines
      rw [List.flatMap_cons, hlayout] at hline
      obtain rfl : marker = line := Option.some.inj hline
      exact hmark rfl

/-- The chunks of an update are read where its parts stand. -/
theorem readAll_parts (hfit : Fit first parts behind)
    (hend : ∀ line ∈ behind.head?, trim line ≠ Marker.endOfFile) (number : Nat) :
    Chunk.readAll first number (parts.flatMap Part.lines ++ behind) =
      .ok (parts.filterMap chunk?, behind) := by
  induction parts generalizing first number with
  | nil =>
    have hhalts : Chunk.Halts behind := fun line hline => ⟨hfit line hline, hend line hline⟩
    exact Chunk.readAll_halts hhalts first number
  | cons part parts ih =>
    cases part with
    | separator blank =>
      have hblank : trim blank = [] := hfit.1
      have hrest := ih hfit.2 (number + 1)
      change Chunk.readAll first number (blank :: (parts.flatMap Part.lines ++ behind)) = _
      rw [Chunk.readAll, if_pos hblank, hrest]
      rfl
    | chunk layout =>
      obtain ⟨hfits, hrest⟩ := hfit
      obtain ⟨line, tail, hlines, hblank, hstop, -⟩ := hfits.exists_cons
      have hread := Chunk.read_layout hfits (fun _ => hrest.unmarked hend) number
      have hlayout : (Part.chunk layout).lines = line :: tail := hlines
      rw [hlines, List.cons_append] at hread
      rw [List.flatMap_cons, hlayout, List.append_assoc, List.cons_append]
      exact Chunk.readAll_of_read hblank hstop hread fun number => ih hrest number

/-- What is read as the chunks of an update has the layout of its parts. -/
theorem exists_parts_of_readAll {number : Nat} {chunks : List Chunk}
    (hread : Chunk.readAll first number lines = .ok (chunks, rest)) :
    ∃ parts, lines = parts.flatMap Part.lines ++ rest ∧ Fit first parts rest ∧
      parts.filterMap chunk? = chunks := by
  fun_induction Chunk.readAll first number lines generalizing chunks rest with
  | case1 =>
    cases hread
    exact ⟨[], rfl, by rintro _ ⟨⟩, rfl⟩
  | case2 first number line behind hblank ih =>
    obtain ⟨parts, rfl, hfit, rfl⟩ := ih hread
    exact ⟨.separator line :: parts, rfl, ⟨hblank, hfit⟩, rfl⟩
  | case3 first number line behind hblank hstop =>
    cases hread
    refine ⟨[], rfl, fun found hfound => ?_, rfl⟩
    obtain rfl : line = found := Option.some.inj hfound
    exact List.isPrefixOf_iff_prefix.mp hstop
  | case4 => cases hread
  | case5 => cases hread
  | case6 first number line behind hblank hstop chunk left hchunk hlength chunks last hrest ih =>
    cases hread
    obtain ⟨parts, rfl, hfit, rfl⟩ := ih hrest
    have hfirst : ∀ found ∈ (line :: behind).head?, trim found ≠ [] := by
      intro found hfound
      obtain rfl : line = found := Option.some.inj hfound
      exact hblank
    obtain ⟨layout, hlines, hfits, rfl⟩ := Chunk.exists_layout_of_read hfirst hchunk
    refine ⟨.chunk layout :: parts, ?_, ⟨hfits, hfit⟩, rfl⟩
    rw [hlines, List.flatMap_cons, List.append_assoc]
    rfl

end Part

end Hunk

end Patchwork
