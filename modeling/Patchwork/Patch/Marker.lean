import Patchwork.Lines

/-!
# Markers

The fixed lines of the patch format, and what a line means inside a chunk.
-/

namespace Patchwork

namespace Marker

def beginPatch : Bytes := text "*** Begin Patch"
def endPatch : Bytes := text "*** End Patch"
def addFile : Bytes := text "*** Add File: "
def deleteFile : Bytes := text "*** Delete File: "
def updateFile : Bytes := text "*** Update File: "
def moveTo : Bytes := text "*** Move to: "
def endOfFile : Bytes := text "*** End of File"
/-- What a line begins with at which the chunks of a hunk stop. -/
def stop : Bytes := text "***"
def chunk : Bytes := text "@@"
def anchoredChunk : Bytes := text "@@ "

/-- What follows the marker on a line that starts with it. -/
def after? (marker line : Bytes) : Option Bytes :=
  if marker.isPrefixOf line then some (line.drop marker.length) else none

end Marker

/-- What a line means inside a chunk. -/
inductive LineKind
  /-- A line that stands in the file and stays. -/
  | context
  | addition
  | removal
  /-- An empty line, which stands for an empty context line. -/
  | blank
  | endOfFile
  /-- Any other line, at which the chunk ends. -/
  | other
  deriving DecidableEq, Repr

namespace LineKind

abbrev contextSign : UInt8 := 32
abbrev additionSign : UInt8 := 43
abbrev removalSign : UInt8 := 45

/-- The end-of-file marker wins over the sign that a line starts with. -/
def ofLine (line : Bytes) : LineKind :=
  if Bytes.trim line = Marker.endOfFile then endOfFile
  else match line with
    | [] => blank
    | sign :: _ =>
      if sign = contextSign then context
      else if sign = additionSign then addition
      else if sign = removalSign then removal
      else other

end LineKind

/-- One line of a chunk as an operation on lines of the file. -/
inductive Operation
  | keep (line : Bytes)
  | insert (line : Bytes)
  | remove (line : Bytes)
  deriving DecidableEq, Repr

namespace Operation

/-- The operation that a line of a chunk stands for, if it stands for one. -/
def ofLine? (line : Bytes) : Option Operation :=
  match LineKind.ofLine line with
  | .context => some (keep (line.drop 1))
  | .blank => some (keep [])
  | .addition => some (insert (line.drop 1))
  | .removal => some (remove (line.drop 1))
  | .endOfFile | .other => none

/-- The line that an operation expects in the file. -/
def old? : Operation → Option Bytes
  | keep line | remove line => some line
  | insert _ => none

/-- The line that an operation leaves in the file. -/
def new? : Operation → Option Bytes
  | keep line | insert line => some line
  | remove _ => none

/-- The longest run of operations at the front of some lines, and the lines behind it. -/
def takeRun : List Bytes → List Operation × List Bytes
  | [] => ([], [])
  | line :: rest =>
    match ofLine? line with
    | none => ([], line :: rest)
    | some operation =>
      let (operations, behind) := takeRun rest
      (operation :: operations, behind)

theorem length_takeRun (lines : List Bytes) :
    (takeRun lines).1.length + (takeRun lines).2.length = lines.length := by
  induction lines with
  | nil => rfl
  | cons line rest ih =>
    rw [takeRun]
    cases ofLine? line with
    | none => simp
    | some operation => simp only [List.length_cons]; omega

end Operation

end Patchwork
