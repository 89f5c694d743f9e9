import Patchwork.Patch.Reader

/-!
# Layouts

The grammar of patch texts, apart from how they are read.  A layout keeps every line of a patch
and the part that the line plays: `lines` writes the lines out again, and `Fits` says that every
line may play its part, given the lines behind it.

A line may look like several parts.  Behind the header of an update it is a destination if it can
be one; where the next chunk could start it is a separator if it can be one, and then a marker;
and a run of lines goes on as long as it can.
-/

namespace Patchwork

open Bytes (trim)

namespace Chunk

/-- A line about one line of the file: an empty one, or one behind a sign.  The mark of the end of
the file is no such line, whatever it starts with. -/
def isChange (line : Bytes) : Bool :=
  trim line != Marker.endOfFile &&
    line.head?.all fun sign => sign == LineKind.contextSign || sign == LineKind.additionSign ||
      sign == LineKind.removalSign

/-- A line that begins a chunk and gives it an anchor, or none. -/
def Marks (anchor : Option Bytes) (line : Bytes) : Prop :=
  match anchor with
  | none => trim line = Marker.chunk
  | some content => trim line = Marker.anchoredChunk ++ content

/-- The lines of a chunk. -/
structure Layout where
  /-- The line that begins the chunk, with the anchor that it gives. -/
  marker : Option (Bytes × Option Bytes)
  /-- The lines about lines of the file. -/
  changes : List Bytes
  /-- The line that binds the chunk to the end of the file. -/
  endMark : Option Bytes
  deriving DecidableEq, Repr

namespace Layout

def lines (layout : Layout) : List Bytes :=
  (layout.marker.map Prod.fst).toList ++ (layout.changes ++ layout.endMark.toList)

/-- The chunk that the lines describe.  A changed line stands in the file before if it was not
added, and afterwards if it was not removed. -/
def chunk (layout : Layout) : Chunk where
  anchor := layout.marker.bind Prod.snd
  oldLines :=
    (layout.changes.filter (·.head? ≠ some LineKind.additionSign)).map (List.drop 1)
  newLines :=
    (layout.changes.filter (·.head? ≠ some LineKind.removalSign)).map (List.drop 1)
  atEnd := layout.endMark.isSome

/-- The lines make up a chunk in front of the given ones.  A chunk without a marker, which only
the first one of an update may be, does not begin with a line that could be a separator or a
marker. -/
structure Fits (first : Bool) (layout : Layout) (behind : List Bytes) : Prop where
  marker : ∀ line anchor, layout.marker = some (line, anchor) → Marks anchor line
  unmarked : layout.marker = none → first = true ∧
    ∀ line ∈ layout.changes.head?, trim line ≠ [] ∧ ∀ anchor, ¬ Marks anchor line
  nonempty : layout.changes ≠ []
  changes : ∀ line ∈ layout.changes, isChange line = true
  longest : ∀ line ∈ (layout.endMark.toList ++ behind).head?, ¬ isChange line = true
  endMark : ∀ line ∈ layout.endMark, trim line = Marker.endOfFile

end Layout

end Chunk

namespace Hunk

/-- What follows the header of an update. -/
inductive Part
  /-- A line of blanks between chunks. -/
  | separator (line : Bytes)
  | chunk (layout : Chunk.Layout)
  deriving DecidableEq, Repr

namespace Part

def lines : Part → List Bytes
  | separator line => [line]
  | chunk layout => layout.lines

def chunk? : Part → Option Chunk
  | separator _ => none
  | chunk layout => some layout.chunk

/-- Separators and chunks follow each other up to the end of all lines or a line that itself begins
with three stars. -/
def Fit : Bool → List Part → List Bytes → Prop
  | _, [], behind => ∀ line ∈ behind.head?, Marker.stop <+: line
  | first, separator line :: parts, behind => trim line = [] ∧ Fit first parts behind
  | first, chunk layout :: parts, behind =>
    layout.Fits first (parts.flatMap lines ++ behind) ∧ Fit false parts behind

end Part

/-- The lines of a hunk.  A header stands with the path that it names, and the line of a move with
the path that the file is moved to. -/
inductive Layout
  | add (header path : Bytes) (additions : List Bytes)
  | delete (header path : Bytes)
  | update (header path : Bytes) (move : Option (Bytes × Bytes)) (parts : List Part)
  deriving DecidableEq, Repr

namespace Layout

def lines : Layout → List Bytes
  | add header _ additions => header :: additions
  | delete header _ => [header]
  | update header _ move parts =>
    header :: ((move.map Prod.fst).toList ++ parts.flatMap Part.lines)

/-- The hunk that the lines describe. -/
def hunk : Layout → Hunk
  | add _ path additions => .add path (contentsOf additions)
  | delete _ path => .delete path
  | update _ path move parts => .update path (move.map Prod.snd) (parts.filterMap Part.chunk?)

/-- The lines make up a hunk in front of the given ones. -/
def Fits (layout : Layout) (behind : List Bytes) : Prop :=
  match layout with
  | add header path additions =>
    trim header = Marker.addFile ++ path ∧
      (∀ line ∈ additions, line.head? = some LineKind.additionSign) ∧
      ∀ line ∈ behind.head?, line.head? ≠ some LineKind.additionSign
  | delete header path => trim header = Marker.deleteFile ++ path
  | update header path move parts =>
    trim header = Marker.updateFile ++ path ∧
      (∀ line moved, move = some (line, moved) → trim line = Marker.moveTo ++ moved) ∧
      (move = none → ∀ line ∈ (parts.flatMap Part.lines ++ behind).head?,
        ¬ Marker.moveTo <+: trim line) ∧
      Part.Fit true parts behind ∧
      ∃ layout, Part.chunk layout ∈ parts

/-- Hunks follow each other, and nothing stands behind the last one. -/
def Fit : List Layout → Prop
  | [] => True
  | layout :: layouts => layout.Fits (layouts.flatMap lines) ∧ Fit layouts

end Layout

end Hunk

namespace Envelope

/-- The lines are an opening marker, a body and a closing marker. -/
def Delimits (body lines : List Bytes) : Prop :=
  ∃ opening closing, lines = opening :: (body ++ [closing]) ∧
    trim opening = Marker.beginPatch ∧ trim closing = Marker.endPatch

/-- The lines are a body between markers, with or without a here-document around them. -/
def Encloses (body lines : List Bytes) : Prop :=
  Delimits body lines ∨
    ∃ opener inner closer, lines = opener :: (inner ++ [closer]) ∧
      trim opener ∈ openers ∧ text "EOF" <:+ trim closer ∧ Delimits body inner

end Envelope

namespace Patch

/-- The hunks have the layouts, one after another, in the body of the text, which has no other
lines. -/
def LaidOut (layouts : List Hunk.Layout) (source : Bytes) : Prop :=
  Envelope.Encloses (layouts.flatMap Hunk.Layout.lines) (Lines.ofPatch (trim source)) ∧
    Hunk.Layout.Fit layouts

end Patch

end Patchwork
