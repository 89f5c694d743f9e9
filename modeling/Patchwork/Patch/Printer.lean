import Patchwork.Patch.Basic
import Patchwork.Patch.Marker

/-!
# Writing patches

The canonical text of a patch: every chunk has a marker, removed lines stand before added ones,
and every line ends in a carriage return and a line feed.  A patch is well-formed if it has such
a text that can be read back.
-/

namespace Patchwork

/-- A string that stays whole as the end of a line: it is not empty, has no line feed and does
not end in a blank. -/
def Bytes.EndsLine (bytes : Bytes) : Prop :=
  bytes ≠ [] ∧ newline ∉ bytes ∧ ¬ bytes.getLast?.any isBlank

instance : DecidablePred Bytes.EndsLine := fun bytes =>
  inferInstanceAs (Decidable (bytes ≠ [] ∧ Bytes.newline ∉ bytes ∧
    ¬ bytes.getLast?.any Bytes.isBlank))

namespace Chunk

/-- The line that begins a chunk. -/
def markerLine (chunk : Chunk) : Bytes :=
  match chunk.anchor with
  | none => Marker.chunk
  | some anchor => Marker.anchoredChunk ++ anchor

/-- The lines of a chunk. -/
def toLines (chunk : Chunk) : List Bytes :=
  chunk.markerLine ::
    (chunk.oldLines.map (LineKind.removalSign :: ·) ++
      chunk.newLines.map (LineKind.additionSign :: ·) ++
      if chunk.atEnd then [Marker.endOfFile] else [])

/-- A chunk does something, its lines are lines, and its anchor ends a line. -/
def WellFormed (chunk : Chunk) : Prop :=
  (chunk.oldLines ≠ [] ∨ chunk.newLines ≠ []) ∧
    (∀ line ∈ chunk.oldLines, Bytes.newline ∉ line) ∧
    (∀ line ∈ chunk.newLines, Bytes.newline ∉ line) ∧
    ∀ anchor ∈ chunk.anchor, anchor.EndsLine

instance : DecidablePred WellFormed := fun chunk =>
  inferInstanceAs (Decidable ((chunk.oldLines ≠ [] ∨ chunk.newLines ≠ []) ∧
    (∀ line ∈ chunk.oldLines, Bytes.newline ∉ line) ∧
    (∀ line ∈ chunk.newLines, Bytes.newline ∉ line) ∧
    ∀ anchor ∈ chunk.anchor, anchor.EndsLine))

end Chunk

namespace Hunk

/-- The lines of a hunk. -/
def toLines : Hunk → List Bytes
  | add path contents =>
    (Marker.addFile ++ path) ::
      (Lines.ofFile contents).map (LineKind.additionSign :: ·)
  | delete path => [Marker.deleteFile ++ path]
  | update path destination chunks =>
    (Marker.updateFile ++ path) ::
      (destination.toList.map (Marker.moveTo ++ ·) ++ chunks.flatMap Chunk.toLines)

/-- The paths end lines, added contents are made of whole lines, and an update has chunks. -/
def WellFormed : Hunk → Prop
  | add path contents =>
    path.EndsLine ∧ (contents = [] ∨ contents.getLast? = some Bytes.newline)
  | delete path => path.EndsLine
  | update path destination chunks =>
    path.EndsLine ∧ (∀ moved ∈ destination, moved.EndsLine) ∧ chunks ≠ [] ∧
      ∀ chunk ∈ chunks, chunk.WellFormed

instance : DecidablePred WellFormed
  | add path contents => inferInstanceAs (Decidable (path.EndsLine ∧
      (contents = [] ∨ contents.getLast? = some Bytes.newline)))
  | delete path => inferInstanceAs (Decidable path.EndsLine)
  | update path destination chunks => inferInstanceAs (Decidable (path.EndsLine ∧
      (∀ moved ∈ destination, moved.EndsLine) ∧ chunks ≠ [] ∧
        ∀ chunk ∈ chunks, chunk.WellFormed))

end Hunk

namespace Patch

/-- The lines of a patch. -/
def toLines (patch : Patch) : List Bytes :=
  Marker.beginPatch :: (patch.flatMap Hunk.toLines ++ [Marker.endPatch])

/-- The canonical text of a patch. -/
def print (patch : Patch) : Bytes :=
  patch.toLines.flatMap fun line => line ++ [Bytes.carriageReturn, Bytes.newline]

def WellFormed (patch : Patch) : Prop :=
  ∀ hunk ∈ patch, hunk.WellFormed

instance : DecidablePred WellFormed := fun patch =>
  inferInstanceAs (Decidable (∀ hunk ∈ patch, hunk.WellFormed))

end Patch

end Patchwork
