import Patchwork.Proofs.Diff.TurningPoints

/-!
# Splitting boxes

The search for a middle snake has an answer for every box that is not empty.  Every access to an
array and to a line is checked, and a failing one leaves the search without an answer; so an answer
says that all accesses were inside.  The snake divides the box into two that are smaller together,
and splitting these again comes to an end without a bound on its depth.  Main statement:
`middleSnake_splits`.
-/

namespace Patchwork

namespace Diff

/-! ## What a snake makes of a box -/

/-- A point of the box, its edges included. -/
def Box.Spans (box : Box) (point : Point) : Prop :=
  (box.left ≤ point.x ∧ point.x ≤ box.right) ∧ box.top ≤ point.y ∧ point.y ≤ box.bottom

/-- The snake runs through the box with one change at most, and what lies before it and behind it
is smaller together than the box. -/
structure Snake.Divides (old new : Array Bytes) (box : Box) (snake : Snake) : Prop where
  start_spans : box.Spans snake.start
  stop_spans : box.Spans snake.stop
  right : snake.start.x ≤ snake.stop.x
  down : snake.start.y ≤ snake.stop.y
  ne : snake.start ≠ snake.stop
  leg : ∃ changes ≤ 1, Path (SameInside old new box) snake.start changes snake.stop
  before_within : (box.before snake.start).Within old new
  behind_within : (box.behind snake.stop).Within old new
  size_lt : (box.before snake.start).size + (box.behind snake.stop).size < box.size

variable {old new otherOld otherNew : Array Bytes} {box : Box} {points other : List Point}

theorem Snake.IsMiddle.divides {snake : Snake} (hbox : box.Within old new)
    (hmiddle : snake.IsMiddle (SameInside old new box) box) : snake.Divides old new box := by
  have hsmaller := hmiddle.size_lt
  obtain ⟨⟨_, inside, _, hinside, hbefore, hleg, hbehind, -⟩, hne⟩ := hmiddle
  have hstart := hbefore.start_le_stop
  have hsnake := hleg.start_le_stop
  have hstop := hbehind.start_le_stop
  simp only [Box.start, Box.stop] at hstart hstop
  exact {
    start_spans := ⟨⟨hstart.1, by omega⟩, hstart.2, by omega⟩
    stop_spans := ⟨⟨by omega, hstop.1⟩, by omega, hstop.2⟩
    right := hsnake.1
    down := hsnake.2
    ne := hne
    leg := ⟨inside, hinside, hleg⟩
    before_within := hbox.before hstart.1 hstart.2 (by omega) (by omega)
    behind_within := hbox.behind (by omega) (by omega) hstop.1 hstop.2
    size_lt := hsmaller }

/-! ## Lines outside the box -/

/-- The other lists have the same lines in the rows and columns of the box. -/
structure Box.Agrees (box : Box) (old new otherOld otherNew : Array Bytes) : Prop where
  old : ∀ position, box.left ≤ position → position < box.right →
    lineAt? otherOld position = lineAt? old position
  new : ∀ position, box.top ≤ position → position < box.bottom →
    lineAt? otherNew position = lineAt? new position

theorem Box.Agrees.equal?_eq (hagrees : box.Agrees old new otherOld otherNew) :
    equal? otherOld otherNew box = equal? old new box := by
  funext point
  rw [equal?, equal?]
  split
  · rename_i hholds
    rw [hagrees.old point.x hholds.1.1 hholds.1.2, hagrees.new point.y hholds.2.1 hholds.2.2]
  · rfl

theorem Box.Agrees.searchRounds_eq (hagrees : box.Agrees old new otherOld otherNew)
    (round rounds : Nat) (downward upward : Frontier) :
    searchRounds otherOld otherNew box round rounds downward upward =
      searchRounds old new box round rounds downward upward := by
  have hturned : equalTurned? otherOld otherNew box = equalTurned? old new box :=
    funext fun point => congrFun hagrees.equal?_eq point.next.turn
  induction rounds generalizing round downward upward with
  | zero => rfl
  | succ rounds ih => simp only [searchRounds, hagrees.equal?_eq, hturned, ih]

/-- The search looks at no line outside the box. -/
theorem Box.Agrees.middleSnake_eq (hagrees : box.Agrees old new otherOld otherNew) :
    middleSnake otherOld otherNew box = middleSnake old new box := by
  simp only [middleSnake, hagrees.searchRounds_eq]

/-! ## Splitting again and again -/

/-- The points that splitting comes to, however often boxes are split: none for an empty box, and
for any other those of the two boxes that its middle snake leaves, or the end of the snake where
such a box is empty. -/
inductive Splits (old new : Array Bytes) : Box → List Point → Prop
  | empty {box : Box} : box.size = 0 → Splits old new box []
  | split {box : Box} {snake : Snake} {before behind : List Point} :
      box.size ≠ 0 → middleSnake old new box = some snake →
      Splits old new (box.before snake.start) before →
      Splits old new (box.behind snake.stop) behind →
      Splits old new box ((if before = [] then [snake.start] else before) ++
        if behind = [] then [snake.stop] else behind)

theorem Splits.unique (hsplits : Splits old new box points) (hother : Splits old new box other) :
    other = points := by
  induction hsplits generalizing other with
  | empty hsize =>
    cases hother with
    | empty => rfl
    | split hne => exact absurd hsize hne
  | split hne hsnake _ _ ihBefore ihBehind =>
    cases hother with
    | empty hsize => exact absurd hsize hne
    | split _ hfound hbefore hbehind =>
      obtain rfl := Option.some.inj (hsnake.symm.trans hfound)
      rw [ihBefore hbefore, ihBehind hbehind]

theorem splits_of_turningPoints {depth : Nat}
    (hpoints : turningPoints old new depth box = some points) : Splits old new box points := by
  induction depth generalizing box points with
  | zero =>
    rw [turningPoints] at hpoints
    split at hpoints
    · obtain rfl := Option.some.inj hpoints
      exact .empty ‹_›
    · cases hpoints
  | succ depth ih =>
    rw [turningPoints] at hpoints
    split at hpoints
    · obtain rfl := Option.some.inj hpoints
      exact .empty ‹_›
    · rename_i hsize
      obtain ⟨snake, hsnake, hrest⟩ := Option.bind_eq_some_iff.mp hpoints
      obtain ⟨before, hbefore, hrest⟩ := Option.bind_eq_some_iff.mp hrest
      obtain ⟨behind, hbehind, hrest⟩ := Option.bind_eq_some_iff.mp hrest
      obtain rfl := Option.some.inj hrest
      exact .split hsize hsnake (ih hbefore) (ih hbehind)

/-- The search in a box that is not empty has an answer, so that no access lies outside an array or
the box; the lines outside have no part in it.  The snake divides the box into two that are smaller
together, so splitting ends, at a depth that the size of the box bounds: there is one list of points
it comes to, and they lead from the top left corner of the box to the bottom right one with one
change at most from each to the next. -/
theorem middleSnake_splits (old new : Array Bytes) (box : Box) (hbox : box.Within old new)
    (hsize : box.size ≠ 0) :
    (∃ snake, middleSnake old new box = some snake ∧ snake.Divides old new box) ∧
      (∀ otherOld otherNew, box.Agrees old new otherOld otherNew →
        middleSnake otherOld otherNew box = middleSnake old new box) ∧
      ∃ points, (∀ other, Splits old new box other ↔ other = points) ∧
        (∀ depth, box.size ≤ depth → turningPoints old new depth box = some points) ∧
        ∃ changes, Route (SameLines old new) box.start changes points box.stop := by
  obtain ⟨snake, hsnake, hmiddle⟩ := middleSnake_spec hbox hsize
  obtain ⟨points, hpoints, hshortest⟩ := turningPoints_spec box.size hbox (Nat.le_refl _)
  have hsplits := splits_of_turningPoints hpoints
  refine ⟨⟨snake, hsnake, hmiddle.divides hbox⟩, fun _ _ hagrees => hagrees.middleSnake_eq, points,
    fun other => ⟨hsplits.unique, ?_⟩, fun depth hdepth => ?_, ?_⟩
  · rintro rfl
    exact hsplits
  · obtain ⟨other, hother, -⟩ := turningPoints_spec depth hbox hdepth
    rw [hother, hsplits.unique (splits_of_turningPoints hother)]
  · obtain ⟨changes, hroute, -⟩ := hshortest.exists_route
    rw [if_neg (mt hshortest.eq_nil_iff.mp hsize)] at hroute
    exact ⟨changes, hroute⟩

def shiftedOld : Array Bytes := #[[97], [98], [99]]
def shiftedNew : Array Bytes := #[[98], [99], [100]]

/-- A box in which one line is deleted, two are kept and one is inserted. -/
theorem middleSnake_splits_shifted :
    Box.Within ⟨0, 0, 3, 3⟩ shiftedOld shiftedNew ∧ Box.size ⟨0, 0, 3, 3⟩ ≠ 0 ∧
      (∃ snake, middleSnake shiftedOld shiftedNew ⟨0, 0, 3, 3⟩ = some snake ∧
        snake.Divides shiftedOld shiftedNew ⟨0, 0, 3, 3⟩) ∧
      (∀ otherOld otherNew, Box.Agrees ⟨0, 0, 3, 3⟩ shiftedOld shiftedNew otherOld otherNew →
        middleSnake otherOld otherNew ⟨0, 0, 3, 3⟩ =
          middleSnake shiftedOld shiftedNew ⟨0, 0, 3, 3⟩) ∧
      ∃ points, (∀ other, Splits shiftedOld shiftedNew ⟨0, 0, 3, 3⟩ other ↔ other = points) ∧
        (∀ depth, 6 ≤ depth →
          turningPoints shiftedOld shiftedNew depth ⟨0, 0, 3, 3⟩ = some points) ∧
        ∃ changes, Route (SameLines shiftedOld shiftedNew) ⟨0, 0⟩ changes points ⟨3, 3⟩ := by
  have hbox : Box.Within ⟨0, 0, 3, 3⟩ shiftedOld shiftedNew :=
    ⟨by decide, by decide, by decide, by decide, by decide, by decide⟩
  exact ⟨hbox, by decide,
    middleSnake_splits shiftedOld shiftedNew ⟨0, 0, 3, 3⟩ hbox (by decide)⟩

example :
    turningPoints #[[97], [98], [99]] #[[98], [99], [100]] 6 ⟨0, 0, 3, 3⟩ =
      some [⟨0, 0⟩, ⟨1, 0⟩, ⟨3, 3⟩] := by
  decide

end Diff

end Patchwork
