import Patchwork.Diff.Unified
import Patchwork.Report
import Patchwork.Workspace

/-!
# Applying patches

A patch is checked against the files, tried without writing, or applied.  Hunks are applied one
after another; the first one that fails ends the application, and what was done before stays
done.
-/

namespace Patchwork

/-- A step that may change the workspace and may fail.  What was changed before a failure stays
changed. -/
abbrev Step := ExceptT Failure (StateM Workspace)

namespace Step

/-- Logs an entry. -/
def log (level : Log.Level) (message : Bytes) : Step Unit :=
  modify (Workspace.log level message)

/-- Changes the disk, or fails with the given failure. -/
def changeDisk (describe : OsError → Failure) (change : Disk → Except OsError Disk) :
    Step Unit := do
  match change (← get).disk with
  | .ok disk => modify fun workspace => { workspace with disk }
  | .error problem => throw (describe problem)

/-- The content of a file. -/
def readFile (action : FileAction) (path : Bytes) : Step Bytes := do
  match (← get).disk.status path with
  | .ok (.file content) => pure content
  | .ok .directory => throw .directoryRead
  | .error problem => throw (.file action path problem)

/-- Writes a file, in the place of one that is there. -/
def writeFile (path content : Bytes) : Step Unit :=
  changeDisk (.file .write path) fun disk => disk.writeFile path content

/-- Removes a file. -/
def removeFile (action : FileAction) (path : Bytes) : Step Unit :=
  changeDisk (.file action path) fun disk => disk.removeFile path

/-- Makes the directories on the way to a file.  The ones made before a failure stay. -/
def makeParents (path : Bytes) : Step Unit := do
  let (disk, problem?) := (← get).disk.createDirectories (Path.parent path)
  modify fun workspace => { workspace with disk }
  match problem? with
  | none => pure ()
  | some problem => throw (.file .makeParents path problem)

/-- Notes that a file was accessed now. -/
def setAccessed (path : Bytes) : Step Unit :=
  modify fun workspace =>
    { workspace with accessed := Table.insert path workspace.now workspace.accessed }

/-- Forgets when a file was accessed. -/
def clearAccessed (path : Bytes) : Step Unit :=
  modify fun workspace => { workspace with accessed := Table.erase path workspace.accessed }

/-- Searches lines and logs the note about what was found, if there is one. -/
def seek (lines pattern : List Bytes) (start : Nat) (atEnd : Bool) : Step (Option Nat) := do
  let found? := Patchwork.seek lines pattern start atEnd
  modify (Workspace.logAll .debug (found?.toList.filterMap Match.note?))
  pure (found?.map Match.index)

/-- Searches the anchor of a chunk, where the chunk has one. -/
def seekAnchor (path : Bytes) (lines : List Bytes) (cursor : Nat) (chunk : Chunk) : Step Nat := do
  match chunk.anchor with
  | none => pure cursor
  | some anchor =>
    match ← seek lines [anchor] cursor false with
    | some index => pure (index + 1)
    | none => throw (.unplaced path (.anchorNotFound anchor))

/-- Searches the old lines of a chunk, and once more without an empty line at their end. -/
def seekLines (path : Bytes) (lines : List Bytes) (start : Nat) (chunk : Chunk) :
    Step Replacement := do
  match ← seek lines chunk.oldLines start chunk.atEnd with
  | some index => pure ⟨index, chunk.oldLines.length, chunk.newLines⟩
  | none =>
    if chunk.oldLines.getLast? = some [] then
      let shorter := chunk.oldLines.dropLast
      match ← seek lines shorter start chunk.atEnd with
      | some index => pure ⟨index, shorter.length, Placement.dropBlankEnd chunk.newLines⟩
      | none => throw (.unplaced path (.linesNotFound chunk.oldLines))
    else throw (.unplaced path (.linesNotFound chunk.oldLines))

/-- Searches the place of a chunk, and tells where the cursor stands behind it. -/
def seekChunk (path : Bytes) (lines : List Bytes) (cursor : Nat) (chunk : Chunk) :
    Step (Replacement × Nat) := do
  let start ← seekAnchor path lines cursor chunk
  if chunk.oldLines = [] then
    pure (⟨Placement.insertionIndex lines, 0, chunk.newLines⟩, start)
  else
    let replacement ← seekLines path lines start chunk
    pure (replacement, replacement.start + replacement.oldLength)

/-- Searches the places of all chunks, one after another. -/
def seekAll (path : Bytes) (lines : List Bytes) (cursor : Nat) :
    List Chunk → Step (List Replacement)
  | [] => pure []
  | chunk :: chunks => do
    let (replacement, next) ← seekChunk path lines cursor chunk
    let replacements ← seekAll path lines next chunks
    pure (replacement :: replacements)

/-- The content of a file after an update.  Without the log this is `Placement.updateContent`. -/
def updatedContent (path content : Bytes) (chunks : List Chunk) : Step Bytes := do
  let lines := Lines.ofFile content
  let replacements ← seekAll path lines 0 chunks
  pure (Lines.toFile (Replacement.spliceAll lines (Replacement.sort replacements)))

end Step

namespace Hunk

/-- A hunk that deletes or updates needs a file at its path. -/
def check (disk : Disk) : Hunk → Except Failure Unit
  | add _ _ => .ok ()
  | delete path => checkTarget .deletion path
  | update path _ _ => checkTarget .update path
where
  /-- A directory is no target, and neither is a path where nothing stands. -/
  checkTarget (use : TargetUse) (path : Bytes) : Except Failure Unit :=
    match disk.status path with
    | .ok (.file _) => .ok ()
    | .ok .directory => .error (.directoryTarget use path)
    | .error problem => .error (.missingFile path problem)

/-- Places the chunks of an update without writing anything. -/
def rehearse : Hunk → Step Unit
  | add _ _ | delete _ => pure ()
  | update path _ chunks => do
    let content ← Step.readFile .readForUpdate path
    let _ ← Step.updatedContent path content chunks

def applyAdd (path contents : Bytes) : Step Change := do
  Step.log .action (text "Add " ++ path)
  Step.makeParents path
  Step.writeFile path contents
  Step.setAccessed path
  pure { kind := .add, path, newContent := contents }

def applyDelete (path : Bytes) : Step Change := do
  Step.log .action (text "Delete " ++ path)
  let oldContent ← Step.readFile .readForDeletion path
  Step.removeFile .delete path
  Step.clearAccessed path
  pure { kind := .delete, path, oldContent }

/-- Updates a file.  A move writes the new file first and then removes the old one, unless the
two have the same path. -/
def applyUpdate (context : Int) (path : Bytes) (destination : Option Bytes)
    (chunks : List Chunk) : Step Change := do
  Step.log .action <|
    text "Update " ++ path ++ text " (" ++ decimal chunks.length ++ text " chunk(s))"
  let oldContent ← Step.readFile .readForUpdate path
  let newContent ← Step.updatedContent path oldContent chunks
  let target := destination.getD path
  let unifiedDiff := Diff.unified path target oldContent newContent context
  match destination with
  | some moved =>
    Step.makeParents moved
    Step.writeFile moved newContent
    if moved ≠ path then
      Step.removeFile .removeOriginal path
      Step.clearAccessed path
  | none => Step.writeFile path newContent
  Step.setAccessed target
  pure { kind := .update, path, oldContent, newContent, unifiedDiff, destination }

/-- Applies one hunk; diffs have `context` unchanged lines around changes. -/
def apply (context : Int) : Hunk → Step Change
  | add path contents => applyAdd path contents
  | delete path => applyDelete path
  | update path destination chunks => applyUpdate context path destination chunks

end Hunk

/-- What is logged when a change is done. -/
def Change.doneMessage (change : Change) : Bytes :=
  match change.kind with
  | .add => text "A " ++ change.path
  | .delete => text "D " ++ change.path
  | .update => text "M " ++ change.target

namespace Patch

/-- Checks that every file that the patch deletes or updates is there. -/
def check (disk : Disk) : Patch → Except Failure Unit
  | [] => .ok ()
  | hunk :: hunks =>
    match hunk.check disk with
    | .error failure => .error failure
    | .ok () => check disk hunks

/-- Checks a patch and places all its chunks without writing anything.  Every hunk is tried on
the files as they are. -/
def rehearse (patch : Patch) : Step Unit := do
  match check (← get).disk patch with
  | .error failure => throw failure
  | .ok () => patch.forM Hunk.rehearse

/-- Logs what failed. -/
def logFailure (failure : Failure) : Workspace → Workspace :=
  Workspace.log .error (text "apply_patch: " ++ failure.message)

/-- Applies the hunks of a patch in order, up to the first one that fails. -/
def applyHunks (context : Int) (report : Report) (workspace : Workspace) :
    List Hunk → Report × Workspace
  | [] => (report, workspace)
  | hunk :: hunks =>
    match (hunk.apply context).run workspace with
    | (.error failure, workspace) =>
      ({ report with error := some failure }, logFailure failure workspace)
    | (.ok change, workspace) =>
      applyHunks context (report.record change)
        (workspace.log .success change.doneMessage) hunks

/-- Applies a patch; a patch without hunks is an error. -/
def apply (context : Int) (patch : Patch) (workspace : Workspace) : Report × Workspace :=
  if patch = [] then ({ error := some .nothingToDo }, workspace)
  else applyHunks context {} workspace patch

end Patch

end Patchwork
