import Patchwork.Patch.Marker

/-!
# Malformed patches

Every way in which a text fails to be a patch, with the number of the line that shows it.
Lines count from one, beginning with the line that opens the patch.
-/

namespace Patchwork

inductive Patch.Error
  | emptyPatch
  | missingBegin
  | missingEnd
  | invalidHeader (line : Nat) (header : Bytes)
  | emptyUpdate (line : Nat) (path : Bytes)
  | missingContextMarker (line : Nat) (found : Bytes)
  | unexpectedLine (line : Nat) (found : Bytes)
  | emptyChunk (line : Nat)
  deriving DecidableEq, Repr

namespace Patch.Error

/-- The line at fault, where there is one. -/
def line? : Patch.Error → Option Nat
  | emptyPatch | missingBegin | missingEnd => none
  | invalidHeader line _ | emptyUpdate line _ | missingContextMarker line _
  | unexpectedLine line _ | emptyChunk line => some line

private def atLine (line : Nat) (problem : Bytes) : Bytes :=
  text "invalid hunk at line " ++ decimal line ++ text ", " ++ problem

private def quoted (content : Bytes) : Bytes :=
  text "'" ++ content ++ text "'"

def message : Patch.Error → Bytes
  | emptyPatch => text "invalid patch: empty patch"
  | missingBegin =>
    text "invalid patch: The first line of the patch must be " ++ quoted Marker.beginPatch
  | missingEnd =>
    text "invalid patch: The last line of the patch must be " ++ quoted Marker.endPatch
  | invalidHeader line header =>
    atLine line <| quoted header ++
      text " is not a valid hunk header. Valid hunk headers: '*** Add File: \x7bpath\x7d', " ++
      text "'*** Delete File: \x7bpath\x7d', '*** Update File: \x7bpath\x7d'"
  | emptyUpdate line path =>
    atLine line <| text "Update file hunk for path " ++ quoted path ++ text " is empty"
  | missingContextMarker line found =>
    atLine line <|
      text "Expected update hunk to start with a @@ context marker, got: " ++ quoted found
  | unexpectedLine line found =>
    atLine line <| text "Unexpected line found in update hunk: " ++ quoted found ++
      text ". Every line should start with ' ' (context line), '+' (added line), " ++
      text "or '-' (removed line)"
  | emptyChunk line => atLine line <| text "Update hunk does not contain any lines"

end Patch.Error

end Patchwork
