import Patchwork.Clock
import Patchwork.Disk
import Patchwork.Lines
import Patchwork.Table

/-!
# Workspaces

What applying a patch changes besides its result: files, the times of the last accesses, and
the log.  A log entry goes to the log file, to the console and to a listener, each of which can
be turned off.  Writing to the log never fails: an entry that cannot be written to the log file
is left out there.
-/

namespace Patchwork

/-- The times at which files were last accessed. -/
abbrev AccessTable := Table Time

namespace Log

inductive Level
  | action
  | info
  | success
  | warning
  | error
  | debug
  deriving DecidableEq, Repr

/-- Where log entries go. -/
structure Settings where
  /-- The path of the log file; empty if there is none. -/
  file : Bytes := []
  console : Bool := false
  /-- Whether debug entries are logged at all. -/
  debug : Bool := false
  listener : Bool := false
  deriving DecidableEq, Repr

namespace Level

/-- The tag of a level in the log file. -/
def tag : Level → Bytes
  | action => text "[ACTION] "
  | info => text "[INFO] "
  | success => text "[OK] "
  | warning => text "[WARN] "
  | error => text "[ERROR] "
  | debug => text "[DEBUG] "

end Level

namespace Style

def reset : Bytes := text "\x1b[0m"
def bold : Bytes := text "\x1b[1m"
def red : Bytes := text "\x1b[38;5;196m"
def green : Bytes := text "\x1b[38;5;46m"
def yellow : Bytes := text "\x1b[38;5;226m"
def cyan : Bytes := text "\x1b[38;5;51m"
def gray : Bytes := text "\x1b[38;5;242m"

end Style

/-- What stands before the first line of an entry on the console. -/
def Level.mark : Level → Bytes
  | action => Style.yellow ++ Style.bold ++ text "[Action] " ++ Style.reset
  | info => Style.cyan ++ text "[Info] " ++ Style.reset
  | success => Style.green ++ text "✔ " ++ Style.reset
  | warning => Style.yellow ++ text "⚠ " ++ Style.reset
  | error => Style.red ++ Style.bold ++ text "✖ " ++ Style.reset
  | debug => Style.gray ++ text "[Debug] " ++ Style.reset

/-- What stands before every further line of an entry on the console. -/
def continuationMark : Bytes := Style.gray ++ text "  │ " ++ Style.reset

/-- A message without the line ends behind it. -/
def trimLineEnds (message : Bytes) : Bytes :=
  Bytes.dropEndWhile (fun byte => byte == Bytes.newline || byte == Bytes.carriageReturn) message

/-- An entry as it is written to the log file. -/
def fileEntry (time : Time) (level : Level) (message : Bytes) : Bytes :=
  let calendar := CalendarTime.ofTime time
  text "[" ++ calendar.date ++ text " " ++ calendar.timeOfDay ++ text "] " ++ level.tag ++
    trimLineEnds message ++ [Bytes.newline]

/-- An entry as it is written to the console; an empty message is not. -/
def consoleEntry (level : Level) (message : Bytes) : Bytes :=
  match Bytes.splitAt Bytes.newline (trimLineEnds message) with
  | [] | [[]] => []
  | first :: rest =>
    level.mark ++ first ++ [Bytes.newline] ++
      rest.flatMap fun line => continuationMark ++ line ++ [Bytes.newline]

end Log

/-- What applying a patch can change. -/
structure Workspace where
  disk : Disk
  accessed : AccessTable := []
  settings : Log.Settings := {}
  /-- What the listener has heard. -/
  heard : List (Log.Level × Bytes) := []
  /-- What was written to the console. -/
  console : Bytes := []
  now : Time := 0
  deriving DecidableEq, Repr

namespace Workspace

/-- Writes an entry to the log file, if there is one that can be written. -/
def logToFile (workspace : Workspace) (level : Log.Level) (message : Bytes) : Workspace :=
  if workspace.settings.file = [] then workspace
  else
    match workspace.disk.appendFile workspace.settings.file
        (Log.fileEntry workspace.now level message) with
    | .ok disk => { workspace with disk }
    | .error _ => workspace

/-- Writes an entry to the console, if that is turned on. -/
def logToConsole (workspace : Workspace) (level : Log.Level) (message : Bytes) : Workspace :=
  if workspace.settings.console then
    { workspace with console := workspace.console ++ Log.consoleEntry level message }
  else workspace

/-- Passes an entry to the listener, if there is one. -/
def logToListener (workspace : Workspace) (level : Log.Level) (message : Bytes) : Workspace :=
  if workspace.settings.listener then
    { workspace with heard := workspace.heard ++ [(level, message)] }
  else workspace

/-- Logs an entry. -/
def log (level : Log.Level) (message : Bytes) (workspace : Workspace) : Workspace :=
  if level = .debug ∧ ¬ workspace.settings.debug then workspace
  else ((workspace.logToFile level message).logToConsole level message).logToListener level message

/-- Logs entries of one level in order. -/
def logAll (level : Log.Level) (messages : List Bytes) (workspace : Workspace) : Workspace :=
  messages.foldl (fun workspace message => workspace.log level message) workspace

/-- An entry reaches the console and the listener, and the log file if one is kept and can be
written. -/
theorem log_cases (workspace : Workspace) (level : Log.Level) (message : Bytes) :
    ∃ heard console, workspace.log level message = { workspace with heard, console } ∨
      workspace.settings.file ≠ [] ∧ ∃ disk,
        workspace.disk.appendFile workspace.settings.file
          (Log.fileEntry workspace.now level message) = .ok disk ∧
        workspace.log level message = { workspace with disk, heard, console } := by
  have hshown : ∀ logged : Workspace, ∃ heard console,
      (logged.logToConsole level message).logToListener level message =
        { logged with heard, console } := by
    intro logged
    simp only [logToConsole, logToListener]
    split <;> split <;> exact ⟨_, _, rfl⟩
  rw [log]
  split
  · exact ⟨_, _, .inl rfl⟩
  · rw [logToFile]
    split
    · obtain ⟨heard, console, heq⟩ := hshown workspace
      exact ⟨heard, console, .inl heq⟩
    · rename_i hset
      split
      · rename_i disk happended
        obtain ⟨heard, console, heq⟩ := hshown { workspace with disk }
        exact ⟨heard, console, .inr ⟨hset, disk, happended, heq⟩⟩
      · obtain ⟨heard, console, heq⟩ := hshown workspace
        exact ⟨heard, console, .inl heq⟩

/-- What one entry does to a workspace, any number of them does, if it can be repeated. -/
theorem logAll_of_log {related : Workspace → Workspace → Prop}
    (hrefl : ∀ workspace, related workspace workspace)
    (htrans : ∀ {before middle after}, related before middle → related middle after →
      related before after)
    (hlog : ∀ workspace level message, related workspace (workspace.log level message))
    (workspace : Workspace) (level : Log.Level) (messages : List Bytes) :
    related workspace (workspace.logAll level messages) := by
  induction messages generalizing workspace with
  | nil => exact hrefl workspace
  | cons message messages ih =>
    rw [logAll, List.foldl_cons]
    exact htrans (hlog workspace level message) (ih _)

end Workspace

end Patchwork
