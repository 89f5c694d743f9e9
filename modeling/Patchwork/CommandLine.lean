import Patchwork.Config
import Patchwork.Json.Standard
import Patchwork.Tool.ApplyPatch
import Patchwork.Tool.Registry

/-!
# The command line

`CommandLine.runBeside` is the whole program as a function: from arguments, standard input and a
workspace to an exit, what is written to standard output, and the workspace afterwards.  What
is written to standard error is the console of that workspace.
-/

namespace Patchwork

namespace CommandLine

open Log (Style.reset Style.bold Style.red Style.green)

/-- What the arguments ask for. -/
structure Options where
  /-- The file with the patch; none stands for standard input. -/
  patchFile : Option Bytes := none
  configPath : Bytes := []
  root : Bytes := []
  dryRun : Bool := false
  json : Bool := false
  help : Bool := false
  deriving DecidableEq, Repr

inductive ArgumentError
  | missingValue (option : Bytes)
  | unknownOption (option : Bytes)
  | secondPatchFile
  deriving DecidableEq, Repr

def ArgumentError.message : ArgumentError → Bytes
  | missingValue option => text "missing value for " ++ option
  | unknownOption option => text "unknown option: " ++ option
  | secondPatchFile => text "only one patch file may be given"

/-- A hyphen alone, which stands for standard input. -/
def hyphen : Bytes := [45]

def isOption (argument : Bytes) : Bool :=
  argument.head? == some 45 && 1 < argument.length

/-- Reads arguments from the left; a later option overrides an earlier one.  `havePatchFile`
tells whether a patch file was given. -/
def readArguments (options : Options) (havePatchFile : Bool) :
    List Bytes → Except ArgumentError Options
  | [] => .ok options
  | argument :: rest =>
    if argument = text "-h" ∨ argument = text "--help" then
      readArguments { options with help := true } havePatchFile rest
    else if argument = text "--dry-run" then
      readArguments { options with dryRun := true } havePatchFile rest
    else if argument = text "--json" then
      readArguments { options with json := true } havePatchFile rest
    else if argument = text "--config" then
      match rest with
      | [] => .error (.missingValue argument)
      | value :: rest => readArguments { options with configPath := value } havePatchFile rest
    else if argument = text "--root" then
      match rest with
      | [] => .error (.missingValue argument)
      | value :: rest => readArguments { options with root := value } havePatchFile rest
    else if isOption argument then .error (.unknownOption argument)
    else if havePatchFile then .error .secondPatchFile
    else
      let patchFile := if argument = hyphen then none else some argument
      readArguments { options with patchFile } true rest

/-- How the program ends. -/
inductive Exit
  | code (value : Nat)
  /-- A failure that nothing caught. -/
  | uncaught (failure : Failure)
  deriving DecidableEq, Repr

structure Outcome where
  exit : Exit
  output : Bytes := []
  workspace : Workspace

def usage : Bytes :=
  text "Usage: loom [options] [patch-file]\n" ++
  text "\n" ++
  text "Apply a '*** Begin Patch' ... '*** End Patch' patch to the working tree.\n" ++
  text "The patch is read from stdin when no file (or '-') is given.\n" ++
  text "\n" ++
  text "Options:\n" ++
  text "  --config <path>  Load configuration from <path>\n" ++
  text "  --root <dir>     Resolve relative patch paths against <dir>\n" ++
  text "  --dry-run        Check the patch without writing anything\n" ++
  text "  --json           Print the full JSON result\n" ++
  text "  -h, --help       Show this help\n"

/-- Writes a line to the console in a style. -/
def say (style message : Bytes) (workspace : Workspace) : Workspace :=
  { workspace with
    console := workspace.console ++ style ++ message ++ Style.reset ++ [Bytes.newline] }

/-- Writes what went wrong to the console. -/
def complain (message : Bytes) : Workspace → Workspace :=
  say Style.red (text "✖ " ++ message)

/-- The path of the configuration to load, if there is one: the named one, or the first one that
exists at the usual places or beside the program. -/
def configPath? (disk : Disk) (options : Options) (beside : Option Bytes) : Option Bytes :=
  if options.configPath ≠ [] then some options.configPath
  else (Config.usualPaths ++ beside.toList).find? disk.fileExists

/-- The configuration that the options lead to, or the message that it cannot be used. -/
def config [Json.Library] (disk : Disk) (options : Options) (beside : Option Bytes) :
    Except Bytes Config :=
  let loaded : Except Bytes Config :=
    match configPath? disk options beside with
    | none => .ok {}
    | some path =>
      match Config.load disk path with
      | .ok config => .ok config
      | .error error => .error (text "Failed to load config: " ++ error.message path)
  loaded.map fun config =>
    if options.root = [] then config else { config with root := options.root }

/-- Sets the log up as a configuration says. -/
def setUpLog (config : Config) (path? : Option Bytes) (workspace : Workspace) : Workspace :=
  let settings := { workspace.settings with
    file := config.logFile, console := config.logToConsole, debug := config.logDebug }
  let workspace := { workspace with settings }
  match path? with
  | none => workspace
  | some path => workspace.log .info (text "Loaded configuration from: " ++ path)

/-- Where the text of the patch comes from. -/
inductive PatchSource
  | found (patch : Bytes)
  | notOpened (path : Bytes)
  | directory

def patchSource (disk : Disk) (input : Bytes) : Option Bytes → PatchSource
  | none => .found input
  | some path =>
    match disk.status path with
    | .ok (.file content) => .found content
    | .ok .directory => .directory
    | .error _ => .notOpened path

/-- The arguments that the tool is called with. -/
def toolArguments (options : Options) (patch : Bytes) : Json :=
  .ofMembers <|
    (ApplyPatch.inputKey, .string patch) ::
      if options.dryRun then [(ApplyPatch.dryRunKey, .bool true)] else []

/-- The times of the last accesses as JSON. -/
def accessTimes (accessed : AccessTable) : Json :=
  .object <| accessed.map fun (path, time) =>
    let calendar := CalendarTime.ofTime time
    (path, .string (calendar.date ++ text "T" ++ calendar.timeOfDay))

section Answers

variable [Json.Library]

/-- An answer reports success and names no error. -/
def succeeded (answer : Json) : Except Json.Problem Bool := do
  let success ← Json.Library.boolOr answer (text "success") false
  pure (success && (answer.member? (text "error")).isNone)

/-- Writes the texts of some values, a line each, up to the first problem. -/
def textLines : List Json → Bytes × Option Json.Problem
  | [] => ([], none)
  | item :: items =>
    match Json.Library.stringOr item (text "text") [] with
    | .error problem => ([], some problem)
    | .ok line =>
      let (lines, problem?) := textLines items
      (line ++ Bytes.newline :: lines, problem?)

/-- Writes an answer to standard output: as a whole, or its texts if it is a success. -/
def output (options : Options) (accessed : AccessTable) (answer : Json) (success : Bool) :
    Bytes × Option Json.Problem :=
  if options.json then
    let whole := answer.setMember? (text "file_last_access") (accessTimes accessed)
    (Json.Library.write (whole.getD answer) ++ [Bytes.newline], none)
  else if success then
    match Json.Library.valueOr answer (text "content") (.array []) with
    | .error problem => ([], some problem)
    | .ok content => textLines content.elements
  else ([], none)

/-- Ends the program with a problem that nothing catches. -/
def giveUp (problem : Json.Problem) (output : Bytes) (workspace : Workspace) : Outcome :=
  { exit := .uncaught (.raised problem.message), output, workspace }

/-- Ends the program behind an answer of success. -/
def approve (options : Options) (output : Bytes) (workspace : Workspace) : Outcome :=
  let workspace :=
    if options.dryRun ∧ ¬ options.json then
      say Style.green (text "✔ nothing was written (dry run)") workspace
    else workspace
  { exit := .code 0, output, workspace }

/-- Ends the program behind an answer of failure. -/
def reject (answer : Json) (output : Bytes) (workspace : Workspace) : Outcome :=
  let style := Style.red ++ Style.bold
  match Json.Library.stringOr answer (text "error") (text "apply_patch failed") with
  | .error problem =>
    -- The mark is on the console before the message is looked up.
    giveUp problem output { workspace with console := workspace.console ++ style ++ text "✖ " }
  | .ok message =>
    { exit := .code 1, output, workspace := say style (text "✖ " ++ message) workspace }

/-- Writes an answer out and exits. -/
def finish (options : Options) (answer : Json) (workspace : Workspace) : Outcome :=
  match succeeded answer with
  | .error problem => giveUp problem [] workspace
  | .ok success =>
    match output options workspace.accessed answer success with
    | (output, some problem) => giveUp problem output workspace
    | (output, none) =>
      if success then approve options output workspace else reject answer output workspace

end Answers

section Runs

variable [Json.Library]

/-- Calls the tool with a patch. -/
def callTool (options : Options) (config : Config) (patch : Bytes) (workspace : Workspace) :
    Outcome :=
  match ApplyPatch.ofRoot workspace.disk config.root config.context with
  | .error failure => { exit := .uncaught failure, workspace }
  | .ok tool =>
    let (registry, workspace) := Registry.register (some tool.toTool) {} workspace
    let (answer, workspace) :=
      registry.run toolName (toolArguments options patch) workspace
    finish options answer workspace

/-- Does what the options ask for. -/
def runOptions (options : Options) (input : Bytes) (workspace : Workspace)
    (beside : Option Bytes) : Outcome :=
  if options.help then { exit := .code 0, output := usage, workspace }
  else
    match config workspace.disk options beside with
    | .error message => { exit := .code 2, workspace := complain message workspace }
    | .ok config =>
      let workspace := setUpLog config (configPath? workspace.disk options beside) workspace
      match patchSource workspace.disk input options.patchFile with
      | .notOpened path =>
        { exit := .code 2,
          workspace := complain (text "Could not open patch file: " ++ path) workspace }
      | .directory => { exit := .uncaught .directoryRead, workspace }
      | .found patch => callTool options config patch workspace

/-- The program.  A configuration may stand at a path `beside` it. -/
def runBeside (beside : Option Bytes) (arguments : List Bytes) (input : Bytes)
    (workspace : Workspace) : Outcome :=
  match readArguments {} false arguments with
  | .error error =>
    { exit := .code 2, output := usage, workspace := complain error.message workspace }
  | .ok options => runOptions options input workspace beside

/-- The program where there is no such path. -/
def run (arguments : List Bytes) (input : Bytes) (workspace : Workspace) : Outcome :=
  runBeside none arguments input workspace

end Runs

end CommandLine

end Patchwork
