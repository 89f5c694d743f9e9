import Patchwork.Disk
import Patchwork.Patch.Error
import Patchwork.Placement

/-!
# Failures

Every way in which reading, checking or applying a patch, or a tool that does so, can fail.
-/

namespace Patchwork

/-- What was to be done with a file when the system reported an error. -/
inductive FileAction
  | readForUpdate
  | readForDeletion
  | write
  | makeParents
  | delete
  | removeOriginal
  deriving DecidableEq, Repr

def FileAction.problem : FileAction → Bytes
  | readForUpdate => text "failed to read file to update "
  | readForDeletion => text "failed to read "
  | write => text "failed to write file "
  | makeParents => text "failed to create parent directories for "
  | delete => text "failed to delete file "
  | removeOriginal => text "failed to remove original "

/-- What a patch does with a file that has to be there. -/
inductive TargetUse
  | deletion
  | update
  deriving DecidableEq, Repr

def TargetUse.verb : TargetUse → Bytes
  | deletion => text "delete"
  | update => text "update"

inductive Failure
  | malformed (error : Patch.Error)
  /-- A tool was called without a patch. -/
  | inputRequired
  /-- A patch has no hunks. -/
  | nothingToDo
  /-- A file that a patch needs is missing. -/
  | missingFile (path : Bytes) (error : OsError)
  /-- A patch deletes or updates a directory. -/
  | directoryTarget (use : TargetUse) (path : Bytes)
  | unplaced (path : Bytes) (error : Placement.Error)
  | file (action : FileAction) (path : Bytes) (error : OsError)
  /-- A directory was opened and then read like a file. -/
  | directoryRead
  /-- A JSON value of another type was needed. -/
  | jsonType
  /-- A relative path has nothing to be relative to. -/
  | notAbsolute
  /-- A tool failed with a message of its own, which is passed on as it is. -/
  | raised (message : Bytes)
  deriving DecidableEq, Repr

namespace Failure

def jsonProblem : Bytes := text "<json error>"

/-- The whole text that describes a failure. -/
def description : Failure → Bytes
  | malformed error => error.message
  | inputRequired => text "input is required"
  | nothingToDo => text "No files were modified."
  | missingFile path error => text "failed to stat " ++ path ++ text ": " ++ error.message
  | directoryTarget use path =>
    text "failed to " ++ use.verb ++ text " file " ++ path ++ text ": is a directory"
  | unplaced path error => error.message path
  | file action path error => action.problem ++ path ++ text ": " ++ error.message
  | directoryRead => text "basic_filebuf::underflow error reading the file: Is a directory"
  | jsonType => jsonProblem
  | notAbsolute => text "filesystem error: cannot make absolute path: Invalid argument []"
  | raised message => message

/-- The message that is reported.  Messages are zero-terminated, so a description ends at its
first zero byte. -/
def message : Failure → Bytes
  | raised message => message
  | failure => Bytes.untilZero failure.description

/-- A failure that the patch or the files are to blame for.  Only these are answered like any
other result; the rest go up to the caller. -/
def isPatchFailure : Failure → Bool
  | malformed _ | inputRequired | nothingToDo | missingFile _ _ | directoryTarget _ _ | unplaced _ _
  | file _ _ _ => true
  | directoryRead | jsonType | notAbsolute | raised _ => false

end Failure

end Patchwork
