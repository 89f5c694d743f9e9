import Patchwork.Bytes

/-!
# Edit scripts

An edit script turns one list of lines into another.  Edits name lines by their positions.
-/

namespace Patchwork

namespace Diff

inductive Edit
  /-- A line that both sides have. -/
  | keep (oldIndex newIndex : Nat)
  | delete (oldIndex : Nat)
  | insert (newIndex : Nat)
  deriving DecidableEq, Repr

namespace Edit

def isChange : Edit → Bool
  | keep _ _ => false
  | delete _ | insert _ => true

/-- The position of the old line that an edit uses up. -/
def oldIndex? : Edit → Option Nat
  | keep oldIndex _ | delete oldIndex => some oldIndex
  | insert _ => none

/-- The position of the new line that an edit uses up. -/
def newIndex? : Edit → Option Nat
  | keep _ newIndex | insert newIndex => some newIndex
  | delete _ => none

/-- How many old lines some edits use up. -/
def oldCount (edits : List Edit) : Nat :=
  edits.countP fun edit => edit.oldIndex?.isSome

/-- How many new lines some edits use up. -/
def newCount (edits : List Edit) : Nat :=
  edits.countP fun edit => edit.newIndex?.isSome

/-- Puts the deletions of every run of changes before its insertions.  `waiting` are the
insertions of the run that is being read. -/
def deletionsFirst (waiting : List Edit) : List Edit → List Edit
  | [] => waiting
  | keep oldIndex newIndex :: rest =>
    waiting ++ keep oldIndex newIndex :: deletionsFirst [] rest
  | delete oldIndex :: rest => delete oldIndex :: deletionsFirst waiting rest
  | insert newIndex :: rest => deletionsFirst (waiting ++ [insert newIndex]) rest

end Edit

end Diff

end Patchwork
