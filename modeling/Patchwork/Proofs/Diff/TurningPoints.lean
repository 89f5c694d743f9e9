import Patchwork.Diff.Script
import Patchwork.Proofs.Diff.MiddleSnake

/-!
# Turning points

Splitting a box at its middle snake, and its two sides again, leads to the points of a shortest
path between which there is at most one change.  Main statement: `turningPoints_spec`.
-/

namespace Patchwork

namespace Diff

/-- A path given by points, with at most one change from each of them to the next. -/
inductive Route (same : Point → Prop) : Point → Nat → List Point → Point → Prop
  | single (point : Point) : Route same point 0 [point] point
  | cons {start next stop : Point} {change changes : Nat} {points : List Point} :
      Path same start change next → change ≤ 1 → Route same next changes points stop →
      Route same start (change + changes) (start :: points) stop

namespace Route

variable {same : Point → Prop} {start between next stop : Point}
variable {change changes more : Nat} {points further : List Point}

theorem exists_eq_cons (hroute : Route same start changes points stop) :
    ∃ rest, points = start :: rest := by
  cases hroute with
  | single => exact ⟨[], rfl⟩
  | cons => exact ⟨_, rfl⟩

theorem path (hroute : Route same start changes points stop) :
    Path same start changes stop := by
  induction hroute with
  | single => exact .refl
  | cons hleg _ _ ih => exact hleg.trans ih

theorem append (hfirst : Route same start changes points between)
    (hleg : Path same between change next) (hchange : change ≤ 1)
    (hsecond : Route same next more further stop) :
    Route same start (changes + change + more) (points ++ further) stop := by
  induction hfirst with
  | single =>
    rw [Nat.zero_add]
    exact .cons hleg hchange hsecond
  | cons hfirstLeg hfirstChange _ ih =>
    have hrest := Route.cons hfirstLeg hfirstChange (ih hleg)
    simpa only [List.cons_append, Nat.add_assoc] using hrest

end Route

namespace Box.Within

variable {old new : Array Bytes} {box : Box} {point : Point}

theorem before (hbox : box.Within old new) (hleft : box.left ≤ point.x)
    (htop : box.top ≤ point.y) (hright : point.x ≤ box.right) (hbottom : point.y ≤ box.bottom) :
    (box.before point).Within old new where
  zero_le_left := hbox.zero_le_left
  zero_le_top := hbox.zero_le_top
  left_le_right := hleft
  top_le_bottom := htop
  right_le_size := Int.le_trans hright hbox.right_le_size
  bottom_le_size := Int.le_trans hbottom hbox.bottom_le_size

theorem behind (hbox : box.Within old new) (hleft : box.left ≤ point.x)
    (htop : box.top ≤ point.y) (hright : point.x ≤ box.right) (hbottom : point.y ≤ box.bottom) :
    (box.behind point).Within old new where
  zero_le_left := Int.le_trans hbox.zero_le_left hleft
  zero_le_top := Int.le_trans hbox.zero_le_top htop
  left_le_right := hright
  top_le_bottom := hbottom
  right_le_size := hbox.right_le_size
  bottom_le_size := hbox.bottom_le_size

theorem start_eq_stop (hbox : box.Within old new) (hsize : box.size = 0) :
    box.start = box.stop := by
  have hwidth := hbox.left_le_right
  have hheight := hbox.top_le_bottom
  simp only [Box.size, Box.width, Box.height] at hsize
  simp only [Box.start, Box.stop, Point.mk.injEq]
  omega

end Box.Within

/-- The points are those of a shortest route through a box; there are none for an empty box,
whose route is the point that it consists of. -/
structure IsShortestRoute (old new : Array Bytes) (box : Box) (points : List Point) :
    Prop where
  eq_nil_iff : points = [] ↔ box.size = 0
  exists_route : ∃ changes, Route (SameLines old new) box.start changes
      (if points = [] then [box.stop] else points) box.stop ∧
    ∀ all, Path (SameLines old new) box.start all box.stop → changes ≤ all

section TurningPoints

variable {old new : Array Bytes} {box : Box}

theorem isShortestRoute_nil (hbox : box.Within old new) (hsize : box.size = 0) :
    IsShortestRoute old new box [] where
  eq_nil_iff := by simp [hsize]
  exists_route := by
    refine ⟨0, ?_, fun all _ => Nat.zero_le all⟩
    rw [if_pos rfl, hbox.start_eq_stop hsize]
    exact .single box.stop

/-- A middle snake divides a box into two that are smaller together. -/
theorem Snake.IsMiddle.size_lt {same : Point → Prop} {snake : Snake}
    (hmiddle : snake.IsMiddle same box) :
    (box.before snake.start).size + (box.behind snake.stop).size < box.size := by
  obtain ⟨⟨before, inside, behind, hinside, hbefore, hleg, hbehind, -⟩, hne⟩ := hmiddle
  have hstart := hbefore.start_le_stop
  have hsnake := hleg.start_le_stop
  have hstop := hbehind.start_le_stop
  have hapart : snake.start.x ≠ snake.stop.x ∨ snake.start.y ≠ snake.stop.y := by
    by_contra hboth
    apply hne
    ext
    · omega
    · omega
  simp only [Box.start, Box.stop] at hstart hstop
  simp only [Box.size, Box.width, Box.height, Box.before, Box.behind]
  omega

/-- The routes on both sides of a middle snake make up a shortest route with it. -/
theorem IsShortestRoute.append {snake : Snake} {points further : List Point}
    (hmiddle : snake.IsMiddle (SameInside old new box) box)
    (hsize : box.size ≠ 0)
    (hbehind : (box.behind snake.stop).Within old new)
    (hfirst : IsShortestRoute old new (box.before snake.start) points)
    (hsecond : IsShortestRoute old new (box.behind snake.stop) further) :
    IsShortestRoute old new box
      ((if points = [] then [snake.start] else points) ++
        if further = [] then [snake.stop] else further) := by
  obtain ⟨changes, hroute, hleast⟩ := hfirst.exists_route
  obtain ⟨more, hfurther, hleastMore⟩ := hsecond.exists_route
  obtain ⟨⟨before, inside, behind, hinside, hpathBefore, hleg, hpathBehind, hshortest⟩, -⟩ :=
    hmiddle
  have hlines : ∀ point, SameInside old new box point → SameLines old new point :=
    fun point hsame => hsame.2
  have hsecondPoints : (if further = [] then [(box.behind snake.stop).stop] else further) =
      if further = [] then [snake.stop] else further := by
    by_cases hnil : further = []
    · have hempty := hbehind.start_eq_stop (hsecond.eq_nil_iff.mp hnil)
      rw [if_pos hnil, if_pos hnil, ← hempty]
      rfl
    · rw [if_neg hnil, if_neg hnil]
  rw [hsecondPoints] at hfurther
  have hall := hroute.append (hleg.mono hlines) hinside hfurther
  obtain ⟨rest, hrest⟩ := hall.exists_eq_cons
  have hnonempty : (if points = [] then [snake.start] else points) ++
      (if further = [] then [snake.stop] else further) ≠ [] := by
    change (if points = [] then [(box.before snake.start).stop] else points) ++ _ ≠ []
    rw [hrest]
    exact List.cons_ne_nil _ _
  refine ⟨⟨fun hnil => absurd hnil hnonempty, fun hzero => absurd hzero hsize⟩, ?_⟩
  rw [if_neg hnonempty]
  refine ⟨_, hall, fun all hpath => ?_⟩
  have hbeforeLe := hleast before (hpathBefore.mono hlines)
  have hbehindLe := hleastMore behind (hpathBehind.mono hlines)
  have hallLe := hshortest all (hpath.restrict ⟨Int.le_refl _, Int.le_refl _⟩
    ⟨Int.le_refl _, Int.le_refl _⟩)
  omega

/-- The induction is on the depth, which the size of a box bounds: both sides of a middle snake
are smaller than the box. -/
theorem turningPoints_spec (depth : Nat) (hbox : box.Within old new)
    (hdepth : box.size ≤ depth) :
    ∃ points, turningPoints old new depth box = some points ∧
      IsShortestRoute old new box points := by
  induction depth generalizing box with
  | zero =>
    have hsize : box.size = 0 := by omega
    exact ⟨[], by rw [turningPoints, if_pos hsize], isShortestRoute_nil hbox hsize⟩
  | succ depth ih =>
    by_cases hsize : box.size = 0
    · exact ⟨[], by rw [turningPoints, if_pos hsize], isShortestRoute_nil hbox hsize⟩
    obtain ⟨snake, hsnake, hmiddle⟩ := middleSnake_spec hbox hsize
    have hsmaller := hmiddle.size_lt
    obtain ⟨before, inside, behind, -, hpathBefore, hleg, hpathBehind, -⟩ := hmiddle.exists_path
    have hstart := hpathBefore.start_le_stop
    have hstop := (hleg.trans hpathBehind).start_le_stop
    have hstart' := (hpathBefore.trans hleg).start_le_stop
    have hstop' := hpathBehind.start_le_stop
    have hboxBefore := hbox.before hstart.1 hstart.2 hstop.1 hstop.2
    have hboxBehind := hbox.behind hstart'.1 hstart'.2 hstop'.1 hstop'.2
    obtain ⟨points, hpoints, hfirst⟩ := ih hboxBefore (by omega)
    obtain ⟨further, hfurther, hsecond⟩ := ih hboxBehind (by omega)
    refine ⟨_, ?_, IsShortestRoute.append hmiddle hsize hboxBehind hfirst hsecond⟩
    rw [turningPoints, if_neg hsize]
    simp only [hsnake, hpoints, hfurther, Option.bind_eq_bind, Option.bind_some]

end TurningPoints

end Diff

end Patchwork
