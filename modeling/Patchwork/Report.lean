import Patchwork.Failure
import Patchwork.Json.Basic

/-!
# Reports

What came of applying a patch: the files that were added, modified and deleted, every change
with the contents before and after it, and the failure that ended the application, if one did.
As JSON a report holds valid UTF-8 only.
-/

namespace Patchwork

/-- What was done to a file. -/
inductive ChangeKind
  | add
  | delete
  | update
  deriving DecidableEq, Repr

def ChangeKind.name : ChangeKind → Bytes
  | add => text "add"
  | delete => text "delete"
  | update => text "update"

/-- A change of one file. -/
structure Change where
  kind : ChangeKind
  path : Bytes
  oldContent : Bytes := []
  newContent : Bytes := []
  unifiedDiff : Bytes := []
  destination : Option Bytes := none
  deriving DecidableEq, Repr

structure Report where
  added : List Bytes := []
  modified : List Bytes := []
  deleted : List Bytes := []
  changes : List Change := []
  error : Option Failure := none
  deriving DecidableEq, Repr

/-- A string of a report as JSON. -/
def Json.sanitized (content : Bytes) : Json :=
  string (Utf8.sanitize content)

namespace Change

/-- The path at which the file stands after a change. -/
def target (change : Change) : Bytes :=
  change.destination.getD change.path

def toJson (change : Change) : Json :=
  .ofMembers <|
    [(text "path", .sanitized change.path),
      (text "operation", .string change.kind.name),
      (text "old_content", .sanitized change.oldContent),
      (text "new_content", .sanitized change.newContent),
      (text "unified_diff", .sanitized change.unifiedDiff)] ++
    match change.destination with
    | some destination => [(text "move_path", .sanitized destination)]
    | none => []

end Change

/-- The name under which reports and the tool that makes them are known. -/
def toolName : Bytes := text "apply_patch"

namespace Report

def isError (report : Report) : Bool :=
  report.error.isSome

/-- Takes in one more change. -/
def record (report : Report) (change : Change) : Report :=
  let report := { report with changes := report.changes ++ [change] }
  match change.kind with
  | .add => { report with added := report.added ++ [change.path] }
  | .delete => { report with deleted := report.deleted ++ [change.path] }
  | .update => { report with modified := report.modified ++ [change.target] }

/-- One line for every path, behind the sign of what was done to it. -/
def summaryLines (sign : Bytes) (paths : List Bytes) : Bytes :=
  paths.flatMap fun path => sign ++ path ++ [Bytes.newline]

/-- The files that were changed, in words; nothing for a report of a failure. -/
def summary (report : Report) : Bytes :=
  if report.isError then []
  else
    text "Success. Updated the following files:\n" ++ summaryLines (text "A ") report.added ++
      summaryLines (text "M ") report.modified ++ summaryLines (text "D ") report.deleted

def sanitizedPaths (paths : List Bytes) : Json :=
  .array (paths.map Json.sanitized)

def toJson (report : Report) : Json :=
  .ofMembers <|
    [(text "tool_name", .string toolName),
      (text "success", .bool !report.isError),
      (text "metadata", .ofMembers [
        (text "added", sanitizedPaths report.added),
        (text "modified", sanitizedPaths report.modified),
        (text "deleted", sanitizedPaths report.deleted),
        (text "changes", .array (report.changes.map Change.toJson))])] ++
    match report.error with
    | some failure => [(text "error", .sanitized failure.message)]
    | none => []

end Report

end Patchwork
