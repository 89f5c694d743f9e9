import Patchwork.Lines
import Patchwork.Patch.Basic
import Patchwork.Search
import Patchwork.Splice

/-!
# Placing chunks

Turns the chunks of an update into replacements of a file's lines.  A cursor runs down the
file: an anchor moves it behind the anchor's line, found old lines move it behind themselves,
and each search begins at it.
-/

namespace Patchwork

namespace Placement

/-- Why a chunk has no place in a file. -/
inductive Error
  | anchorNotFound (anchor : Bytes)
  | linesNotFound (lines : List Bytes)
  deriving DecidableEq, Repr

def Error.message (path : Bytes) : Error → Bytes
  | anchorNotFound anchor =>
    text "failed to find context '" ++ anchor ++ text "' in " ++ path
  | linesNotFound lines =>
    text "failed to find expected lines in " ++ path ++ text ":\n" ++ Lines.join lines

/-- Where lines are inserted that replace nothing: behind the last line, but before an empty
line that ends the file. -/
def insertionIndex (lines : List Bytes) : Nat :=
  if lines.getLast? = some [] then lines.length - 1 else lines.length

/-- Lines without an empty one at their end. -/
def dropBlankEnd (lines : List Bytes) : List Bytes :=
  if lines.getLast? = some [] then lines.dropLast else lines

/-- The match of a chunk's anchor, where the chunk has one. -/
def anchorMatch (lines : List Bytes) (cursor : Nat) (chunk : Chunk) : Option Match :=
  chunk.anchor.bind fun anchor => seek lines [anchor] cursor false

/-- Where the search for a chunk's old lines begins. -/
def searchStart (lines : List Bytes) (cursor : Nat) (chunk : Chunk) : Except Error Nat :=
  match chunk.anchor, anchorMatch lines cursor chunk with
  | none, _ => .ok cursor
  | some _, some found => .ok (found.index + 1)
  | some anchor, none => .error (.anchorNotFound anchor)

/-- The match of a chunk's old lines and the replacement it leads to.  Old lines that are not
found may still be found without an empty line at their end, which then is left out of the
new lines as well. -/
def oldMatch (lines : List Bytes) (start : Nat) (chunk : Chunk) : Option (Match × Replacement) :=
  match seek lines chunk.oldLines start chunk.atEnd with
  | some found => some (found, ⟨found.index, chunk.oldLines.length, chunk.newLines⟩)
  | none =>
    if chunk.oldLines.getLast? = some [] then
      let shorter := chunk.oldLines.dropLast
      (seek lines shorter start chunk.atEnd).map fun found =>
        (found, ⟨found.index, shorter.length, dropBlankEnd chunk.newLines⟩)
    else none

/-- The replacement that a chunk leads to, and where the cursor stands behind it. -/
def place (lines : List Bytes) (cursor : Nat) (chunk : Chunk) :
    Except Error (Replacement × Nat) :=
  match searchStart lines cursor chunk with
  | .error problem => .error problem
  | .ok start =>
    if chunk.oldLines = [] then .ok (⟨insertionIndex lines, 0, chunk.newLines⟩, start)
    else match oldMatch lines start chunk with
      | some (_, replacement) => .ok (replacement, replacement.start + replacement.oldLength)
      | none => .error (.linesNotFound chunk.oldLines)

/-- The replacements of all chunks in the order of the chunks. -/
def placeAll (lines : List Bytes) (cursor : Nat) : List Chunk → Except Error (List Replacement)
  | [] => .ok []
  | chunk :: chunks =>
    match place lines cursor chunk with
    | .error problem => .error problem
    | .ok (replacement, next) =>
      (placeAll lines next chunks).map (replacement :: ·)

/-- The matches that placing one chunk makes. -/
def matchesOf (lines : List Bytes) (cursor : Nat) (chunk : Chunk) : List Match :=
  (anchorMatch lines cursor chunk).toList ++
    match searchStart lines cursor chunk with
    | .error _ => []
    | .ok start =>
      if chunk.oldLines = [] then []
      else ((oldMatch lines start chunk).map Prod.fst).toList

/-- The matches that placing all chunks makes, up to the first chunk without a place. -/
def allMatches (lines : List Bytes) (cursor : Nat) : List Chunk → List Match
  | [] => []
  | chunk :: chunks =>
    matchesOf lines cursor chunk ++
      match place lines cursor chunk with
      | .error _ => []
      | .ok (_, next) => allMatches lines next chunks

/-- The replacements of all chunks in the order of their places. -/
def replacements (lines : List Bytes) (chunks : List Chunk) : Except Error (List Replacement) :=
  (placeAll lines 0 chunks).map Replacement.sort

/-- The notes about matches that are no equalities. -/
def notes (lines : List Bytes) (chunks : List Chunk) : List Bytes :=
  (allMatches lines 0 chunks).filterMap Match.note?

/-- The content of a file after an update. -/
def updateContent (content : Bytes) (chunks : List Chunk) : Except Error Bytes :=
  let lines := Lines.ofFile content
  (replacements lines chunks).map fun found => Lines.toFile (Replacement.spliceAll lines found)

end Placement

end Patchwork
