import Patchwork.Bytes

/-!
# Middle snakes

Two lists of lines span a grid: a path through it goes right to delete an old line, down to
insert a new one, and diagonally past equal lines.  The middle snake of a box is the stretch at
which the furthest paths from its two corners meet; it lies on a shortest path through the box.
The search from the bottom right corner is the search from the top left one in the grid turned
around.  Only the furthest points on each diagonal are kept, in arrays that are read and written
under a bounds check: an access outside an array or to a line outside the box makes the whole
search answer `none`.
-/

namespace Patchwork

namespace Diff

/-- A point of the grid: how many old and how many new lines stand before it. -/
structure Point where
  x : Int
  y : Int
  deriving DecidableEq, Repr

namespace Point

/-- The point in the grid turned around, where rows are columns and the last comes first. -/
def turn (point : Point) : Point := ⟨-point.y, -point.x⟩

/-- The next point on the diagonal. -/
def next (point : Point) : Point := ⟨point.x + 1, point.y + 1⟩

end Point

/-- A part of the grid, by its edges. -/
structure Box where
  left : Int
  top : Int
  right : Int
  bottom : Int
  deriving DecidableEq, Repr

namespace Box

def width (box : Box) : Int := box.right - box.left
def height (box : Box) : Int := box.bottom - box.top
def size (box : Box) : Nat := (box.width + box.height).toNat
/-- The diagonal of the bottom right corner, counted from that of the top left one. -/
def delta (box : Box) : Int := box.width - box.height

/-- The corner at which paths through the box begin. -/
def start (box : Box) : Point := ⟨box.left, box.top⟩
/-- The corner at which paths through the box end. -/
def stop (box : Box) : Point := ⟨box.right, box.bottom⟩

/-- The part before a point. -/
def before (box : Box) (point : Point) : Box := ⟨box.left, box.top, point.x, point.y⟩
/-- The part behind a point. -/
def behind (box : Box) (point : Point) : Box := ⟨point.x, point.y, box.right, box.bottom⟩

/-- The box in the grid turned around. -/
def turn (box : Box) : Box := ⟨-box.bottom, -box.right, -box.top, -box.left⟩

/-- The point of a diagonal in a column, diagonals counted from that of the top left corner. -/
def pointOn (box : Box) (diagonal x : Int) : Point :=
  ⟨x, box.top + (x - box.left) - diagonal⟩

/-- The lines that follow a point on both sides belong to the box. -/
def Holds (box : Box) (point : Point) : Prop :=
  (box.left ≤ point.x ∧ point.x < box.right) ∧ box.top ≤ point.y ∧ point.y < box.bottom

instance (box : Box) (point : Point) : Decidable (box.Holds point) :=
  inferInstanceAs (Decidable (_ ∧ _))

end Box

/-- A stretch of a path: one step at most, and diagonals. -/
structure Snake where
  start : Point
  stop : Point
  deriving DecidableEq, Repr

namespace Snake

/-- The snake in the grid turned around, where it runs the other way. -/
def turn (snake : Snake) : Snake := ⟨snake.stop.turn, snake.start.turn⟩

end Snake

/-- The line at a position. -/
def lineAt? (lines : Array Bytes) (position : Int) : Option Bytes :=
  if position < 0 then none else lines[position.toNat]?

/-- Whether the lines that follow a point are equal.  There is no answer outside the box. -/
def equal? (old new : Array Bytes) (box : Box) (point : Point) : Option Bool :=
  if box.Holds point then do
    let oldLine ← lineAt? old point.x
    let newLine ← lineAt? new point.y
    some (oldLine == newLine)
  else none

/-- The same in the grid turned around, where the lines before a point follow it. -/
def equalTurned? (old new : Array Bytes) (box : Box) (point : Point) : Option Bool :=
  equal? old new box point.next.turn

/-- The furthest points reached on the diagonals from `-radius` to `radius`. -/
structure Frontier where
  radius : Nat
  reached : Array Int
  deriving Repr

namespace Frontier

def ofRadius (radius : Nat) : Frontier :=
  ⟨radius, Array.replicate (2 * radius + 1) 0⟩

def read? (frontier : Frontier) (diagonal : Int) : Option Int :=
  let position := diagonal + frontier.radius
  if position < 0 then none else frontier.reached[position.toNat]?

def write? (frontier : Frontier) (diagonal value : Int) : Option Frontier :=
  let position := diagonal + frontier.radius
  if position < 0 then none
  else if h : position.toNat < frontier.reached.size then
    some { frontier with reached := frontier.reached.set position.toNat value h }
  else none

end Frontier

/-- Goes down the diagonal past equal lines, inside the box and at most `steps` times. -/
def slide (same? : Point → Option Bool) (box : Box) (steps : Nat) (point : Point) :
    Option Point :=
  match steps with
  | 0 => some point
  | steps + 1 =>
    if point.x < box.right ∧ point.y < box.bottom then do
      if ← same? point then slide same? box steps point.next else some point
    else some point

/-- The step onto a diagonal from above or from the left: the `x` it starts from and the `x` it
arrives at. -/
def step? (frontier : Frontier) (round : Nat) (diagonal : Int) : Option (Int × Int) := do
  let fromAbove ←
    if diagonal = -round then pure true
    else if diagonal = round then pure false
    else do pure (decide ((← frontier.read? (diagonal - 1)) < (← frontier.read? (diagonal + 1))))
  if fromAbove then
    let x ← frontier.read? (diagonal + 1)
    pure (x, x)
  else
    let x ← frontier.read? (diagonal - 1)
    pure (x, x + 1)

/-- The furthest snake onto a diagonal: a step, but for the first round, and equal lines. -/
def furthest? (same? : Point → Option Bool) (box : Box) (frontier : Frontier) (round : Nat)
    (diagonal : Int) : Option Snake := do
  let (startX, x) ← step? frontier round diagonal
  let point := box.pointOn diagonal x
  let startY := if round = 0 ∨ x ≠ startX then point.y else point.y - 1
  let stop ← slide same? box (box.right - x).toNat point
  some ⟨⟨startX, startY⟩, stop⟩

/-- What a round of the search comes to: a snake, or the points reached further on. -/
inductive Round
  | met (snake : Snake)
  | reached (frontier : Frontier)

/-- One round of a search, over the first `count` of the round's diagonals, the largest first.
If it is `checked`, a snake is sought that reaches what the other search has reached on a
diagonal up to `width` from that search's corner. -/
def search (same? : Point → Option Bool) (box : Box) (other : Frontier) (checked : Bool)
    (width : Int) (round : Nat) : Nat → Frontier → Option Round
  | 0, frontier => some (.reached frontier)
  | count + 1, frontier => do
    let diagonal : Int := 2 * count - round
    let snake ← furthest? same? box frontier round diagonal
    let frontier ← frontier.write? diagonal snake.stop.x
    let opposite := diagonal - box.delta
    if checked ∧ -width ≤ opposite ∧ opposite ≤ width then
      if -(← other.read? opposite) ≤ snake.stop.y then return .met snake
    search same? box other checked width round count frontier

/-- Searches from both corners in turn, `rounds` more times.  If the corners lie an odd number
of diagonals apart, the paths meet at the end of a path from the top left. -/
def searchRounds (old new : Array Bytes) (box : Box) (round : Nat) (rounds : Nat)
    (downward upward : Frontier) : Option Snake :=
  match rounds with
  | 0 => none
  | rounds + 1 => do
    let odd : Bool := box.delta % 2 ≠ 0
    match ← search (equal? old new box) box upward odd (round - 1) round (round + 1) downward with
    | .met snake => some snake
    | .reached downward =>
      match ← search (equalTurned? old new box) box.turn downward (!odd) round round (round + 1)
          upward with
      | .met snake => some snake.turn
      | .reached upward => searchRounds old new box (round + 1) rounds downward upward

/-- The middle snake of a box that is not empty. -/
def middleSnake (old new : Array Bytes) (box : Box) : Option Snake :=
  if box.size = 0 then none
  else do
    let most := 1 + (box.size - 1) / 2
    let empty := Frontier.ofRadius (most + 1)
    let downward ← empty.write? 1 box.left
    let upward ← empty.write? 1 box.turn.left
    searchRounds old new box 0 (most + 1) downward upward

end Diff

end Patchwork
