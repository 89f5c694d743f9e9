import Patchwork.CommandLine
import Std.Time.Zoned

/-!
# The program

Runs the command line on the files of the machine.  The part of the disk that a run can touch is
read first, the run itself is a function on it, and what it changed is written back.  A path
that is not valid UTF-8 cannot be handed to the system and counts as missing.
-/

namespace Patchwork

namespace Main

def bytesOf (content : String) : Bytes := content.toUTF8.toList

def stringOf? (bytes : Bytes) : Option String :=
  String.fromUTF8? ⟨bytes.toArray⟩

/-- The locations on the way to a location, the outermost first. -/
def onTheWay (location : Location) : List Location :=
  (List.range location.length).map fun index => location.take (index + 1)

def pathOf (location : Location) : Bytes :=
  Path.separator :: Path.joinNames location

/-- What stands at an absolute path on the machine. -/
def readNode (path : String) : IO (Option Node) := do
  let file := (← IO.currentDir) / path
  if ← file.isDir then return some .directory
  if ← file.pathExists then
    try
      return some (.file (← IO.FS.readBinFile file).toList)
    catch _ => return none
  return none

/-- Takes a location and everything on the way to it into a disk. -/
def loadLocation (disk : Disk) (location : Location) : IO Disk := do
  let mut disk := disk
  for place in onTheWay location do
    if let some path := stringOf? (pathOf place) then
      if let some node := ← readNode path then disk := disk.put place node
  return disk

/-- The location that a path leads to when no link stands in the way. -/
def locationOf (disk : Disk) (path : Bytes) : Location :=
  (Path.stack (Path.append (pathOf disk.current) (Bytes.untilZero path))).reverse

def loadPaths (disk : Disk) (paths : List Bytes) : IO Disk :=
  paths.foldlM (fun disk path => loadLocation disk (locationOf disk path)) disk

/-- The paths that a run reads before it looks at the patch. -/
def firstPaths (options : CommandLine.Options) (beside : Option Bytes) : List Bytes :=
  options.configPath :: Config.usualPaths ++ beside.toList ++ options.patchFile.toList

/-- The paths that the patch of a run and its log can touch. -/
def furtherPaths (disk : Disk) (options : CommandLine.Options) (beside : Option Bytes)
    (input : Bytes) : List Bytes :=
  match CommandLine.config disk options beside with
  | .error _ => []
  | .ok config =>
    config.logFile ::
      match CommandLine.patchSource disk input options.patchFile,
        ApplyPatch.ofRoot disk config.root config.context with
      | .found patch, .ok tool =>
        match Patch.parse patch with
        | .ok patch => ApplyPatch.affectedFiles (patch.resolve tool.root)
        | .error _ => []
      | _, _ => []

/-- Writes a changed node to the machine. -/
def writeNode (location : Location) (node : Node) : IO Unit := do
  match stringOf? (pathOf location), node with
  | none, _ => pure ()
  | some path, .directory => IO.FS.createDir path
  | some path, .file content => IO.FS.writeBinFile path ⟨content.toArray⟩

/-- Writes what changed between two disks to the machine, outer directories first. -/
def writeChanges (before after : Disk) : IO Unit := do
  for (location, node) in before.nodes do
    if let .file _ := node then
      if (after.node? location).isNone then
        if let some path := stringOf? (pathOf location) then IO.FS.removeFile path
  let changed := after.nodes.filter fun (location, node) => before.node? location != some node
  let ordered := changed.mergeSort fun left right => left.1.length ≤ right.1.length
  for (location, node) in ordered do
    writeNode location node

/-- The local time in seconds. -/
def localTime : IO Time := do
  return (← Std.Time.PlainDateTime.now).toWallTime.toSeconds.val

def readInput : IO Bytes := do
  return (← (← IO.getStdin).readBinToEnd).toList

/-- The path of a configuration in the directory of the program. -/
def besideProgram : IO (Option Bytes) := do
  try
    return (← IO.appPath).parent.map fun directory => bytesOf (directory / "config.json").toString
  catch _ => return none

/-- Runs the command line on the machine and gives the exit code. -/
def runOnMachine (arguments : List Bytes) : IO UInt32 := do
  let current := bytesOf (← IO.currentDir).toString
  let empty : Disk := { nodes := [], current := (Path.stack current).reverse }
  let disk ← loadPaths empty [current]
  let beside ← besideProgram
  let (disk, input) ←
    match CommandLine.readArguments {} false arguments with
    | .error _ => pure (disk, [])
    | .ok options =>
      if options.help then pure (disk, [])
      else
        let disk ← loadPaths disk (firstPaths options beside)
        let input ← if options.patchFile.isNone then readInput else pure []
        pure (← loadPaths disk (furtherPaths disk options beside input), input)
  let outcome := CommandLine.runBeside beside arguments input { disk, now := ← localTime }
  writeChanges disk outcome.workspace.disk
  (← IO.getStdout).write ⟨outcome.output.toArray⟩
  (← IO.getStderr).write ⟨outcome.workspace.console.toArray⟩
  match outcome.exit with
  | .code value => return value.toUInt32
  | .uncaught failure =>
    (← IO.getStderr).write ⟨(failure.message ++ [Bytes.newline]).toArray⟩
    return 134

end Main

end Patchwork

def main (arguments : List String) : IO UInt32 :=
  Patchwork.Main.runOnMachine (arguments.map Patchwork.Main.bytesOf)
