import Patchwork.Path
import Patchwork.Table

/-!
# Files and directories

A disk maps locations to files and directories.  Paths are byte strings that are walked name by
name: every name but the last has to be a directory that exists, `..` leads to the directory
above, and a walk ends where a path holds a zero byte.  Operations answer with the disk they
leave or with the error that the system reports.
-/

namespace Patchwork

/-- The errors that the system reports. -/
inductive OsError
  | noSuchFile
  | isDirectory
  | notDirectory
  | fileExists
  | nameTooLong
  deriving DecidableEq, Repr

def OsError.message : OsError → Bytes
  | noSuchFile => text "No such file or directory"
  | isDirectory => text "Is a directory"
  | notDirectory => text "Not a directory"
  | fileExists => text "File exists"
  | nameTooLong => text "File name too long"

/-- The names on the way from the top directory. -/
abbrev Location := List Bytes

inductive Node
  | file (content : Bytes)
  | directory
  deriving DecidableEq, Repr

/-- Files and directories by their locations, and the directory that relative paths start
from. -/
structure Disk where
  nodes : List (Location × Node)
  current : Location
  deriving DecidableEq, Repr

namespace Disk

/-- What stands at a location; the top is always a directory. -/
def node? (disk : Disk) (location : Location) : Option Node :=
  if location = [] then some .directory else disk.nodes.lookup location

/-- Puts a node at a location. -/
def put (disk : Disk) (location : Location) (node : Node) : Disk :=
  { disk with
    nodes := (location, node) :: disk.nodes.filter fun entry => entry.1 ≠ location }

/-- Takes away what stands at a location. -/
def erase (disk : Disk) (location : Location) : Disk :=
  { disk with nodes := disk.nodes.filter fun entry => entry.1 ≠ location }

@[simp]
theorem node?_top (disk : Disk) : disk.node? [] = some .directory := rfl

@[simp]
theorem node?_put_self (disk : Disk) {location : Location} (htop : location ≠ [])
    (node : Node) : (disk.put location node).node? location = some node := by
  simp [node?, put, htop]

theorem node?_put_of_ne (disk : Disk) {location other : Location} (hne : other ≠ location)
    (node : Node) : (disk.put location node).node? other = disk.node? other := by
  simp only [node?, put, List.lookup_cons, beq_false_of_ne hne]
  rw [Table.lookup_filter_ne hne]

@[simp]
theorem node?_erase_self (disk : Disk) {location : Location} (htop : location ≠ []) :
    (disk.erase location).node? location = none := by
  simp only [node?, erase, htop, if_false]
  exact Table.lookup_filter_self location disk.nodes

theorem node?_erase_of_ne (disk : Disk) {location other : Location} (hne : other ≠ location) :
    (disk.erase location).node? other = disk.node? other := by
  simp only [node?, erase]
  rw [Table.lookup_filter_ne hne]

/-- The longest name that a directory takes. -/
def longestName : Nat := 255

/-- The longest path that the system takes. -/
def longestPath : Nat := 4095

/-- Where a path leads. -/
structure Place where
  location : Location
  node : Option Node
  /-- Whether the path ends in a separator, so that only a directory is meant. -/
  slashed : Bool
  deriving DecidableEq, Repr

/-- Takes one name from a directory that has to exist. -/
def enter (disk : Disk) (directory : Location) (name : Bytes) :
    Except OsError (Location × Option Node) :=
  if disk.node? directory ≠ some .directory then .error .notDirectory
  else if name = Path.here then .ok (directory, some .directory)
  else if name = Path.above then .ok (directory.dropLast, some .directory)
  else if longestName < name.length then .error .nameTooLong
  else .ok (directory ++ [name], disk.node? (directory ++ [name]))

/-- Walks names from a location; only the last one may be missing. -/
def walk (disk : Disk) (location : Location) :
    List Bytes → Except OsError (Location × Option Node)
  | [] => .ok (location, disk.node? location)
  | [name] => disk.enter location name
  | name :: rest =>
    match disk.enter location name with
    | .error problem => .error problem
    | .ok (_, none) => .error .noSuchFile
    | .ok (next, some _) => disk.walk next rest

/-- Walks a path. -/
def locate (disk : Disk) (path : Bytes) : Except OsError Place :=
  let path := Bytes.untilZero path
  if path = [] then .error .noSuchFile
  else if longestPath < path.length then .error .nameTooLong
  else
    let start := if Path.isAbsolute path then [] else disk.current
    let names := (Path.components path).filter (· ≠ [])
    let slashed := path.getLast? == some Path.separator
    match disk.walk start names with
    | .error problem => .error problem
    | .ok (location, node) =>
      match node with
      | some (.file _) =>
        if slashed then .error .notDirectory else .ok ⟨location, node, slashed⟩
      | _ => .ok ⟨location, node, slashed⟩

/-- What stands at a path. -/
def status (disk : Disk) (path : Bytes) : Except OsError Node :=
  match disk.locate path with
  | .error problem => .error problem
  | .ok ⟨_, some node, _⟩ => .ok node
  | .ok ⟨_, none, _⟩ => .error .noSuchFile

def fileExists (disk : Disk) (path : Bytes) : Bool :=
  match disk.status path with
  | .ok _ => true
  | .error _ => false

/-- Opens a path for writing: the location of the file and its content, if there is one. -/
def openForWriting (disk : Disk) (path : Bytes) : Except OsError (Location × Bytes) :=
  match disk.locate path with
  | .ok ⟨location, some (.file content), _⟩ => .ok (location, content)
  | .ok ⟨location, none, slashed⟩ =>
    if slashed then .error .isDirectory else .ok (location, [])
  | .ok ⟨_, some .directory, _⟩ => .error .isDirectory
  | .error problem => .error problem

/-- Writes a file, in the place of one that is there. -/
def writeFile (disk : Disk) (path content : Bytes) : Except OsError Disk :=
  (disk.openForWriting path).map fun (location, _) => disk.put location (.file content)

/-- Writes behind the end of a file, which is made if it is missing. -/
def appendFile (disk : Disk) (path content : Bytes) : Except OsError Disk :=
  (disk.openForWriting path).map fun (location, present) =>
    disk.put location (.file (present ++ content))

/-- Removes a file. -/
def removeFile (disk : Disk) (path : Bytes) : Except OsError Disk :=
  match disk.locate path with
  | .ok ⟨location, some (.file _), _⟩ => .ok (disk.erase location)
  | .ok ⟨_, some .directory, _⟩ => .error .isDirectory
  | .ok ⟨_, none, _⟩ => .error .noSuchFile
  | .error problem => .error problem

/-- Makes a directory; one that is there already is left as it is. -/
def makeDirectory (disk : Disk) (path : Bytes) : Except OsError Disk :=
  match disk.locate path with
  | .ok ⟨location, none, _⟩ => .ok (disk.put location .directory)
  | .ok ⟨_, some .directory, _⟩ => .ok disk
  | .ok ⟨_, some (.file _), _⟩ => .error .fileExists
  | .error problem => .error problem

/-- How many directories may be missing on the way to a path. -/
def mostMissing : Nat := 1000

/-- The directories that are missing on the way up from a path, the outermost first.  `names`
are the names of the path from the innermost one up, and `found` are the missing directories
below it. -/
def missingDirectories (disk : Disk) (names : List Bytes) (found : List Bytes) :
    Except OsError (List Bytes) :=
  match names with
  | [] => .ok found
  | _ :: above =>
    let path := Path.separator :: Path.joinNames names.reverse
    match disk.status path with
    | .ok .directory => .ok found
    | .ok (.file _) => .error .notDirectory
    | .error .nameTooLong => .error .nameTooLong
    | .error _ =>
      if found.length = mostMissing then .error .nameTooLong
      else disk.missingDirectories above (path :: found)

/-- Makes directories one after another.  The ones made before a failure stay. -/
def makeDirectories (disk : Disk) : List Bytes → Disk × Option OsError
  | [] => (disk, none)
  | path :: rest =>
    match disk.makeDirectory path with
    | .error problem => (disk, some problem)
    | .ok next => next.makeDirectories rest

/-- Makes every directory on the way to an absolute path that is missing, and the one at its
end. -/
def createDirectories (disk : Disk) (path : Bytes) : Disk × Option OsError :=
  match disk.missingDirectories (Path.stack path) [] with
  | .error problem => (disk, some problem)
  | .ok missing => disk.makeDirectories missing

end Disk

end Patchwork
