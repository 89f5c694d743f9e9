import Patchwork.Path

/-!
# Patches

A patch is a list of hunks, each about one file.  An update is made of chunks: what stands in
the file now, and what is to stand there.
-/

namespace Patchwork

/-- One edit inside a file.  `oldLines` are the unchanged and removed lines, `newLines` the
unchanged and added ones; with no `oldLines` the chunk only inserts. -/
structure Chunk where
  /-- A line that stands somewhere above the edit. -/
  anchor : Option Bytes
  oldLines : List Bytes
  newLines : List Bytes
  /-- Whether the old lines have to be the last lines of the file. -/
  atEnd : Bool
  deriving DecidableEq, Repr

/-- What a patch does to one file. -/
inductive Hunk
  | add (path contents : Bytes)
  | delete (path : Bytes)
  /-- An update may also move the file to another path. -/
  | update (path : Bytes) (destination : Option Bytes) (chunks : List Chunk)
  deriving DecidableEq, Repr

/-- The hunks in the order in which they are applied. -/
abbrev Patch := List Hunk

namespace Hunk

def path : Hunk → Bytes
  | add path _ | delete path | update path _ _ => path

def destination : Hunk → Option Bytes
  | update _ destination _ => destination
  | _ => none

/-- The paths that a hunk names. -/
def paths (hunk : Hunk) : List Bytes :=
  hunk.path :: hunk.destination.toList

/-- Reads every path of a hunk below a root. -/
def resolve (root : Bytes) : Hunk → Hunk
  | add path contents => add (Path.resolve root path) contents
  | delete path => delete (Path.resolve root path)
  | update path destination chunks =>
    update (Path.resolve root path) (destination.map (Path.resolve root)) chunks

end Hunk

/-- Reads every path of a patch below a root. -/
def Patch.resolve (root : Bytes) (patch : Patch) : Patch :=
  patch.map (Hunk.resolve root)

end Patchwork
