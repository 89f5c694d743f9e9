import Patchwork.Diff.Edit
import Patchwork.Diff.Snake

/-!
# Shortest edit scripts

A shortest path through the grid of two lists of lines is found by splitting at middle snakes;
walking along it gives an edit script.  Lines that both sides begin or end with are kept without
a search.
-/

namespace Patchwork

namespace Diff

/-- The points at which a shortest path through a box may turn; none for an empty box.  The
depth bounds how often boxes are split. -/
def turningPoints (old new : Array Bytes) (depth : Nat) (box : Box) : Option (List Point) :=
  match depth with
  | 0 => if box.size = 0 then some [] else none
  | depth + 1 =>
    if box.size = 0 then some []
    else do
      let snake ← middleSnake old new box
      let before ← turningPoints old new depth (box.before snake.start)
      let behind ← turningPoints old new depth (box.behind snake.stop)
      some ((if before = [] then [snake.start] else before) ++
        if behind = [] then [snake.stop] else behind)

/-- Keeps equal lines along the diagonal until the target's row or column is reached or a line
differs, at most `steps` times. -/
def keepEqual (old new : Array Bytes) (target : Point) (steps : Nat) (point : Point) :
    List Edit × Point :=
  match steps with
  | 0 => ([], point)
  | steps + 1 =>
    if point.x < target.x ∧ point.y < target.y ∧ lineAt? old point.x = lineAt? new point.y then
      let (edits, stop) := keepEqual old new target steps ⟨point.x + 1, point.y + 1⟩
      (.keep point.x.toNat point.y.toNat :: edits, stop)
    else ([], point)

/-- The edits of one leg of a path: equal lines, at most one change, equal lines. -/
def leg (old new : Array Bytes) (start stop : Point) : List Edit :=
  let (first, turn) := keepEqual old new stop (stop.x - start.x).toNat start
  let right := stop.x - turn.x
  let down := stop.y - turn.y
  let (change, rest) : List Edit × Point :=
    if right < down then ([.insert turn.y.toNat], ⟨turn.x, turn.y + 1⟩)
    else if down < right then ([.delete turn.x.toNat], ⟨turn.x + 1, turn.y⟩)
    else ([], turn)
  first ++ change ++ (keepEqual old new stop (stop.x - rest.x).toNat rest).1

/-- The edits along a path. -/
def walk (old new : Array Bytes) : List Point → List Edit
  | start :: stop :: rest => leg old new start stop ++ walk old new (stop :: rest)
  | _ => []

/-- How many lines two lists begin with in common. -/
def commonStart : List Bytes → List Bytes → Nat
  | oldLine :: old, newLine :: new => if oldLine = newLine then commonStart old new + 1 else 0
  | _, _ => 0

/-- The edits of a box that has no common lines at its corners: all deletions or all insertions
if one side is empty, else those along a shortest path. -/
def boxScript (old new : Array Bytes) (box : Box) : List Edit :=
  if box.width ≤ 0 ∨ box.height ≤ 0 then
    (List.range' box.left.toNat box.width.toNat).map Edit.delete ++
      (List.range' box.top.toNat box.height.toNat).map Edit.insert
  else walk old new ((turningPoints old new box.size box).getD [])

/-- A shortest script that turns the old lines into the new ones, the deletions of every run of
changes before its insertions. -/
def script (old new : List Bytes) : List Edit :=
  let start := commonStart old new
  let ending := commonStart (old.drop start).reverse (new.drop start).reverse
  let oldEnd := old.length - ending
  let newEnd := new.length - ending
  let kept := (List.range start).map fun index => Edit.keep index index
  let middle := boxScript old.toArray new.toArray ⟨start, start, oldEnd, newEnd⟩
  let keptEnd := (List.range ending).map fun index => Edit.keep (oldEnd + index) (newEnd + index)
  Edit.deletionsFirst [] (kept ++ middle ++ keptEnd)

end Diff

end Patchwork
