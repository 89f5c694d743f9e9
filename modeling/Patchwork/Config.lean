import Patchwork.Disk
import Patchwork.Failure
import Patchwork.Json.Library

/-!
# Configurations

A configuration is a JSON object with the sections `workspace`, `patch` and `log`.  What it
does not say has a default; a value of a wrong type is an error.
-/

namespace Patchwork

structure Config where
  /-- The directory that paths in patches are relative to. -/
  root : Bytes := text "."
  /-- How many unchanged lines a diff has around changes. -/
  context : Int := 3
  /-- The path of the log file; empty if there is none. -/
  logFile : Bytes := text "loom.log"
  logToConsole : Bool := false
  logDebug : Bool := false
  deriving DecidableEq, Repr

namespace Config

/-- Why a configuration cannot be used. -/
inductive Error
  | notOpened
  | directoryRead
  | notJson (message : Bytes)
  /-- The text follows the grammar and cannot be read all the same. -/
  | notRead (message : Bytes)
  | notObject
  | wrongType (message : Bytes)
  | negativeContext
  deriving DecidableEq, Repr

/-- The message about a configuration that comes from the given source. -/
def Error.message (source : Bytes) (error : Error) : Bytes :=
  Bytes.untilZero <| match error with
    | notOpened => text "Could not open config file: " ++ source
    | directoryRead => Failure.directoryRead.description
    | notJson message => text "JSON Parse Error in " ++ source ++ text ": " ++ message
    | notRead message => message
    | notObject => text "Config in " ++ source ++ text " must be a JSON object"
    | wrongType message => text "Invalid config in " ++ source ++ text ": " ++ message
    | negativeContext =>
      text "Invalid config in " ++ source ++ text ": patch.diff_context_lines must be >= 0"

/-- A value of a section, as the library takes it out. -/
def setting {α : Type} (taken : Except Json.Problem α) : Except Error α :=
  taken.mapError fun problem => .wrongType problem.message

/-- Takes what a section says into a configuration; a missing section says nothing. -/
def readSection (json : Json) (key : Bytes) (read : Json → Config → Except Error Config)
    (config : Config) : Except Error Config :=
  match json.member? key with
  | none => .ok config
  | some content => read content config

variable [Json.Library]

def readWorkspace (content : Json) (config : Config) : Except Error Config := do
  let root ← setting (Json.Library.stringOr content (text "root") config.root)
  pure { config with root }

def readPatch (content : Json) (config : Config) : Except Error Config := do
  let context ← setting (Json.Library.intOr content (text "diff_context_lines") config.context)
  pure { config with context }

def readLog (content : Json) (config : Config) : Except Error Config := do
  let logFile ← setting (Json.Library.stringOr content (text "file") config.logFile)
  let logToConsole ← setting (Json.Library.boolOr content (text "console") config.logToConsole)
  let logDebug ← setting (Json.Library.boolOr content (text "debug") config.logDebug)
  pure { config with logFile, logToConsole, logDebug }

/-- The configuration that a JSON value describes. -/
def ofJson (json : Json) : Except Error Config := do
  if ¬ json.isObject then throw .notObject
  let config ← readSection json (text "workspace") readWorkspace {}
  let config ← readSection json (text "patch") readPatch config
  let config ← readSection json (text "log") readLog config
  if config.context < 0 then throw .negativeContext
  pure config

/-- The configuration in a file. -/
def load (disk : Disk) (path : Bytes) : Except Error Config :=
  match disk.status path with
  | .error _ => .error .notOpened
  | .ok .directory => .error .directoryRead
  | .ok (.file content) =>
    match Json.Library.parse content with
    | .error (.malformed message) => .error (.notJson message)
    | .error (.other message) => .error (.notRead message)
    | .ok json => ofJson json

/-- The places where a configuration is looked for when none is named. -/
def usualPaths : List Bytes :=
  [text "config.json", text ".loom/config.json"]

end Config

end Patchwork
