import Patchwork.Diff.Edit

/-!
# Grouping changes

The changes of a script are shown in groups with unchanged lines around them.  Changes stand in
one group if at most twice that many unchanged lines are between them.
-/

namespace Patchwork

namespace Diff

/-- A group of edits by the positions of its first and last edit in the script. -/
structure Group where
  first : Nat
  last : Nat
  deriving DecidableEq, Repr

namespace Group

/-- Adds the position of one more change to the groups so far, the latest group first: the
change either joins the latest group or begins a group of its own. -/
def addChange (context : Nat) (groups : List Group) (position : Nat) : List Group :=
  match groups with
  | latest :: earlier =>
    if position - latest.last ≤ 2 * context + 1 then ⟨latest.first, position⟩ :: earlier
    else ⟨position, position⟩ :: latest :: earlier
  | [] => [⟨position, position⟩]

/-- Takes in the unchanged lines around a group, as far as the script reaches. -/
def widen (context length : Nat) (group : Group) : Group :=
  ⟨group.first - context, min (group.last + context) (length - 1)⟩

end Group

/-- The positions of the changes of a script. -/
def changePositions (edits : List Edit) : List Nat :=
  (edits.zipIdx.filter fun entry => entry.1.isChange).map Prod.snd

/-- The groups of a script's changes, each with up to `context` unchanged lines around it. -/
def groups (context : Nat) (edits : List Edit) : List Group :=
  ((changePositions edits).foldl (Group.addChange context) []).reverse.map
    (Group.widen context edits.length)

end Diff

end Patchwork
