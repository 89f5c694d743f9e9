import Patchwork.Diff.Hunks
import Patchwork.Diff.Script
import Patchwork.Lines

/-!
# Unified diffs

The text of the differences between two contents: two lines with the names, then for each group
of changes a line with its place and length on both sides and the lines themselves.  A line
without a line feed, which can only be the last one of a side, is marked as such.
-/

namespace Patchwork

namespace Diff

/-- The place of `count` lines behind the first `start` ones.  A count of one is left out, and
no lines have the place of the line before them. -/
def formatRange (start count : Nat) : Bytes :=
  if count = 1 then decimal (start + 1)
  else if count = 0 then decimal start ++ text ",0"
  else decimal (start + 1) ++ text "," ++ decimal count

/-- What is written behind a line that no line feed ends. -/
def missingEnd : Bytes := text "\n\\ No newline at end of file\n"

/-- A line with the sign that says on which sides it stands. -/
def formatLine (sign : UInt8) (line : Bytes) : Bytes :=
  sign :: line ++ if line.getLast? = some Bytes.newline then [] else missingEnd

def keptSign : UInt8 := 32
def insertedSign : UInt8 := 43
def deletedSign : UInt8 := 45

def formatEdit (old new : Array Bytes) : Edit → Bytes
  | .keep oldIndex _ => formatLine keptSign (old[oldIndex]?.getD [])
  | .delete oldIndex => formatLine deletedSign (old[oldIndex]?.getD [])
  | .insert newIndex => formatLine insertedSign (new[newIndex]?.getD [])

/-- A group of edits under the line with its place and length on both sides. -/
def formatGroup (old new : Array Bytes) (edits : List Edit) (group : Group) : Bytes :=
  let earlier := edits.take group.first
  let shown := (edits.drop group.first).take (group.last + 1 - group.first)
  text "@@ -" ++ formatRange (Edit.oldCount earlier) (Edit.oldCount shown) ++
    text " +" ++ formatRange (Edit.newCount earlier) (Edit.newCount shown) ++ text " @@\n" ++
    shown.flatMap (formatEdit old new)

/-- The unified diff of two contents, empty if they are equal.  A negative context counts as
none. -/
def unified (oldName newName oldContent newContent : Bytes) (context : Int) : Bytes :=
  if oldContent = newContent then []
  else
    let old := Lines.withEnds oldContent
    let new := Lines.withEnds newContent
    let edits := script old new
    text "--- " ++ oldName ++ text "\n+++ " ++ newName ++ text "\n" ++
      (groups context.toNat edits).flatMap (formatGroup old.toArray new.toArray edits)

end Diff

end Patchwork
