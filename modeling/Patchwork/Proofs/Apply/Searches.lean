import Patchwork.Proofs.Apply.Step

/-!
# Searches as steps

An update searches the lines of its file chunk by chunk, and each search logs what it found if that
is no equality.  To make all searches first and to log all notes then leads to the same, whether the
chunks have their places or not.  Main statement: `Step.run_updatedContent`.
-/

namespace Patchwork

theorem Workspace.logAll_append (level : Log.Level) (messages more : List Bytes)
    (workspace : Workspace) :
    workspace.logAll level (messages ++ more) =
      (workspace.logAll level messages).logAll level more :=
  List.foldl_append

namespace Step

variable {path content : Bytes} {lines pattern : List Bytes} {start cursor : Nat} {atEnd : Bool}
  {chunk : Chunk} {chunks : List Chunk} {before : Workspace}

theorem run_seek : (seek lines pattern start atEnd).run before =
    (.ok ((Patchwork.seek lines pattern start atEnd).map Match.index),
      before.logAll .debug
        ((Patchwork.seek lines pattern start atEnd).toList.filterMap Match.note?)) :=
  rfl

theorem run_seekAnchor : (seekAnchor path lines cursor chunk).run before =
    ((Placement.searchStart lines cursor chunk).mapError (.unplaced path),
      before.logAll .debug
        ((Placement.anchorMatch lines cursor chunk).toList.filterMap Match.note?)) := by
  rw [seekAnchor, Placement.searchStart, Placement.anchorMatch]
  cases hanchor : chunk.anchor with
  | none => rfl
  | some anchor =>
    simp only [Option.bind_some]
    rw [run_bind, run_seek]
    cases Patchwork.seek lines [anchor] cursor false <;> rfl

theorem run_seekLines : (seekLines path lines start chunk).run before =
    (match Placement.oldMatch lines start chunk with
      | some (_, replacement) => .ok replacement
      | none => .error (.unplaced path (.linesNotFound chunk.oldLines)),
      before.logAll .debug
        (((Placement.oldMatch lines start chunk).map Prod.fst).toList.filterMap Match.note?)) := by
  rw [seekLines, Placement.oldMatch, run_bind, run_seek]
  cases Patchwork.seek lines chunk.oldLines start chunk.atEnd with
  | some found => rfl
  | none =>
    simp only [Option.map_none]
    split
    · rw [run_bind, run_seek]
      cases Patchwork.seek lines chunk.oldLines.dropLast start chunk.atEnd <;> rfl
    · rfl

theorem run_seekChunk : (seekChunk path lines cursor chunk).run before =
    ((Placement.place lines cursor chunk).mapError (.unplaced path),
      before.logAll .debug
        ((Placement.matchesOf lines cursor chunk).filterMap Match.note?)) := by
  rw [seekChunk, Placement.place, Placement.matchesOf, run_bind, run_seekAnchor,
    List.filterMap_append, Workspace.logAll_append]
  cases hstart : Placement.searchStart lines cursor chunk with
  | error problem => rfl
  | ok start =>
    simp only [Except.mapError]
    split
    · rfl
    · rw [run_bind, run_seekLines]
      cases Placement.oldMatch lines start chunk <;> rfl

theorem run_seekAll : (seekAll path lines cursor chunks).run before =
    ((Placement.placeAll lines cursor chunks).mapError (.unplaced path),
      before.logAll .debug
        ((Placement.allMatches lines cursor chunks).filterMap Match.note?)) := by
  induction chunks generalizing cursor before with
  | nil => rfl
  | cons chunk chunks ih =>
    rw [seekAll, Placement.placeAll, Placement.allMatches, run_bind, run_seekChunk,
      List.filterMap_append, Workspace.logAll_append]
    cases hplace : Placement.place lines cursor chunk with
    | error problem => rfl
    | ok placed =>
      simp only [Except.mapError]
      rw [run_bind, ih]
      cases Placement.placeAll lines placed.2 chunks <;> rfl

/-- An update makes the searches of its chunks one after another, and each logs its own note; that
is to place all chunks at once and to log all notes. -/
theorem run_updatedContent : (updatedContent path content chunks).run before =
    ((Placement.updateContent content chunks).mapError (.unplaced path),
      before.logAll .debug (Placement.notes (Lines.ofFile content) chunks)) := by
  rw [updatedContent, run_bind, run_seekAll, Placement.updateContent, Placement.replacements]
  cases Placement.placeAll (Lines.ofFile content) 0 chunks <;> rfl

section Files

variable {done : Bytes → Workspace → Prop} {failed : Failure → Workspace → Prop}

/-- The chunks are placed, or what is in their way is said, once the notes are logged. -/
theorem ensures_updatedContent_logged {after : Workspace}
    (hlogged : before.logAll .debug (Placement.notes (Lines.ofFile content) chunks) = after)
    (hdone : ∀ updated, Placement.updateContent content chunks = .ok updated → done updated after)
    (hfailed : ∀ problem, Placement.updateContent content chunks = .error problem →
      failed (.unplaced path problem) after) :
    (updatedContent path content chunks).Ensures before done failed := by
  rw [Ensures, run_updatedContent, hlogged]
  cases hupdated : Placement.updateContent content chunks with
  | ok updated => exact hdone updated hupdated
  | error problem => exact hfailed problem hupdated

theorem ensures_updatedContent (hlog : before.settings.file = [])
    (hdone : ∀ updated heard console, Placement.updateContent content chunks = .ok updated →
      done updated { before with heard, console })
    (hfailed : ∀ failure heard console, failure.message ≠ [] →
      failed failure { before with heard, console }) :
    (updatedContent path content chunks).Ensures before done failed := by
  obtain ⟨heard, console, heq⟩ := Workspace.logAll_eq hlog .debug
    (Placement.notes (Lines.ofFile content) chunks)
  exact ensures_updatedContent_logged heq (fun updated => hdone updated heard console)
    fun _ _ => hfailed _ heard console (Failure.message_unplaced_ne_nil _ _)

end Files

end Step

end Patchwork
