import Patchwork.Bytes

/-!
# Splicing lines

A replacement puts new lines in the place of a segment of old ones.  Positions refer to the
lines before any replacement, so the last replacement is carried out first.
-/

namespace Patchwork

/-- `oldLength` lines from `start` on give way to `newLines`. -/
structure Replacement where
  start : Nat
  oldLength : Nat
  newLines : List Bytes
  deriving DecidableEq, Repr

namespace Replacement

/-- Carries out one replacement; what lies behind the last line counts as no lines. -/
def splice (replacement : Replacement) (lines : List Bytes) : List Bytes :=
  lines.take replacement.start ++ replacement.newLines ++
    lines.drop (replacement.start + replacement.oldLength)

/-- Carries out replacements from the last to the first. -/
def spliceAll (lines : List Bytes) (replacements : List Replacement) : List Bytes :=
  replacements.foldr splice lines

/-- Carries out replacements in one pass from the first line to the last: what stands before a
replacement is copied, the new lines are written, and the old ones are skipped.  `position` is
the place of the first line that is left. -/
def copyAround (position : Nat) (lines : List Bytes) : List Replacement → List Bytes
  | [] => lines
  | replacement :: rest =>
    let gap := replacement.start - position
    lines.take gap ++ replacement.newLines ++
      copyAround (replacement.start + replacement.oldLength)
        (lines.drop (gap + replacement.oldLength)) rest

/-- Puts a replacement before the first one that does not stand above it. -/
def insertByStart (replacement : Replacement) : List Replacement → List Replacement
  | [] => [replacement]
  | other :: rest =>
    if replacement.start ≤ other.start then replacement :: other :: rest
    else other :: insertByStart replacement rest

/-- Orders replacements by their place; those at one place keep their order. -/
def sort (replacements : List Replacement) : List Replacement :=
  replacements.foldr insertByStart []

end Replacement

end Patchwork
