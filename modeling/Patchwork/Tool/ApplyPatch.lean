import Patchwork.Apply
import Patchwork.Patch.Reader
import Patchwork.Tool.Basic

/-!
# The patching tool

The tool that applies patches below a root directory.  Its input is an object with the patch
under `input`; with `dry_run` the patch is only tried.
-/

namespace Patchwork

/-- The patching tool for a root directory; diffs have `context` unchanged lines around
changes. -/
structure ApplyPatch where
  root : Bytes
  context : Int := 3
  deriving DecidableEq, Repr

namespace ApplyPatch

/-- The tool for a root that may be relative to the current directory. -/
def ofRoot (disk : Disk) (root : Bytes) (context : Int) : Except Failure ApplyPatch :=
  if root = [] then .error .notAbsolute
  else
    let current := Path.separator :: Path.joinNames disk.current
    .ok { root := Path.normalize (Path.append current root), context }

def description (tool : ApplyPatch) : Bytes :=
  text "Apply a multi-file patch. The input must start with '*** Begin Patch' and end with " ++
  text "'*** End Patch'. Each file section starts with one header:\n" ++
  text "  *** Add File: <path>      followed by the new file's lines, each prefixed with '+'\n" ++
  text "  *** Delete File: <path>   nothing follows\n" ++
  text "  *** Update File: <path>   optionally followed by '*** Move to: <new path>', then " ++
  text "one or more chunks\n" ++
  text "A chunk starts with '@@' or '@@ <a line near the change, e.g. a function signature>' " ++
  text "(the first chunk of a file may omit it). Inside a chunk every line starts with ' ' " ++
  text "(unchanged context), '-' (removed) or '+' (added). Show about 3 lines of context " ++
  text "around each change; line numbers are never used. Add '*** End of File' after a chunk " ++
  text "that must match the end of the file.\n" ++
  text "Example:\n" ++
  text "*** Begin Patch\n" ++
  text "*** Update File: src/app.py\n" ++
  text "@@ def greet():\n" ++
  text "-    print(\"Hi\")\n" ++
  text "+    print(\"Hello, world!\")\n" ++
  text "*** End Patch\n" ++
  text "Relative paths are resolved against " ++ tool.root ++ text "."

def inputKey : Bytes := text "input"
def dryRunKey : Bytes := text "dry_run"

private def property (type description : Bytes) : Json :=
  .ofMembers [(text "type", .string type), (text "description", .string description)]

def schema : Json :=
  .ofMembers [
    (text "type", .string (text "object")),
    (text "properties", .ofMembers [
      (inputKey, property (text "string")
        (text "The entire contents of the apply_patch command")),
      (dryRunKey, property (text "boolean")
        (text "If true, only check that the patch parses and every chunk's context can be " ++
          text "located; nothing is written (default: false)."))]),
    (text "required", .strings [inputKey])]

/-- The bytes that leave an input empty: space, tab, carriage return and line feed. -/
def isInputBlank (byte : UInt8) : Bool :=
  byte == Bytes.space || byte == Bytes.tab || byte == Bytes.carriageReturn ||
    byte == Bytes.newline

/-- The patch text in the arguments, where there is one that is not blank. -/
def inputText? (arguments : Json) : Option Bytes :=
  match arguments.member? inputKey with
  | some (.string input) => if input.all isInputBlank then none else some input
  | _ => none

/-- Reads the patch in the arguments, its paths below the root. -/
def read (tool : ApplyPatch) (arguments : Json) : Except Failure Patch :=
  match inputText? arguments with
  | none => .error .inputRequired
  | some input =>
    match Patch.parse input with
    | .error error => .error (.malformed error)
    | .ok patch => .ok (Patch.resolve tool.root patch)

/-- Whether the arguments ask for a trial only. -/
def isDryRun (arguments : Json) : Except Failure Bool :=
  match arguments.member? dryRunKey with
  | none => .ok false
  | some (.bool value) => .ok value
  | some _ => .error .jsonType

/-- What speaks against the arguments: a patch that cannot be read, or a missing file. -/
def objection? (tool : ApplyPatch) (disk : Disk) (arguments : Json) : Option Bytes :=
  match tool.read arguments with
  | .error failure => some failure.message
  | .ok patch =>
    match patch.check disk with
    | .error failure => some failure.message
    | .ok () => none

/-- The members of an answer that says what went wrong. -/
def errorMembers (failure : Failure) : List (Bytes × Json) :=
  [(text "success", .bool false), (text "error", .sanitized failure.message)]

/-- The content of an answer in words. -/
def textContent (content : Bytes) : Json :=
  .array [.ofMembers [(text "type", .string (text "text")), (text "text", .string content)]]

/-- The answer when nothing could be tried: the failure is logged and said. -/
def refuse (failure : Failure) : Step Json := do
  modify (Patch.logFailure failure)
  pure (.ofMembers (errorMembers failure))

/-- The paths that a patch names, in order. -/
def affectedFiles (patch : Patch) : List Bytes :=
  patch.flatMap Hunk.paths

/-- Tries a patch without writing anything. -/
def dryRun (patch : Patch) : Step Json := do
  let members := [
    (dryRunKey, Json.bool true),
    (text "affected_files", .array ((affectedFiles patch).map Json.sanitized))]
  let rehearsal ← ExceptT.lift (ExceptT.run patch.rehearse)
  match rehearsal with
  | .ok () =>
    pure <| .ofMembers <| members ++ [
      (text "success", .bool true),
      (text "content", textContent <|
        text "Dry-run OK: " ++ decimal patch.length ++ text " hunk(s) would apply cleanly.")]
  | .error failure =>
    if failure.isPatchFailure then pure (.ofMembers (members ++ errorMembers failure))
    else throw failure

/-- The answer for a report. -/
def answer (report : Report) : Json :=
  if report.isError then report.toJson
  else
    let content := Utf8.sanitize (report.summary.dropLast)
    (report.toJson.setMember? (text "content") (textContent content)).getD report.toJson

/-- Applies or tries the patch in the arguments. -/
def execute (tool : ApplyPatch) (arguments : Json) : Step Json := do
  match tool.read arguments with
  | .error failure => refuse failure
  | .ok patch =>
    match isDryRun arguments with
    | .error failure => throw failure
    | .ok true => dryRun patch
    | .ok false =>
      match patch.check (← get).disk with
      | .error failure => refuse failure
      | .ok () =>
        let report ← modifyGet (patch.apply tool.context)
        pure (answer report)

/-- The tool as one among others. -/
def toTool (tool : ApplyPatch) : Tool Workspace where
  name := toolName
  description := tool.description
  schema := schema
  objection? arguments := do
    pure (tool.objection? (← get).disk arguments)
  execute := tool.execute

end ApplyPatch

end Patchwork
