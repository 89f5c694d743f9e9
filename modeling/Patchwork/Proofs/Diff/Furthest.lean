import Patchwork.Proofs.Diff.Path

/-!
# Furthest points

A round of the search finds, for each of its diagonals, the furthest point that paths with as
many changes as the round's number reach.  Main statement: `furthest?_spec`, which says so for
any rule that tells where diagonals lead on, and so holds for the searches from both corners.
-/

namespace Patchwork

namespace Diff

/-- The function answers inside the box, and says there whether a diagonal leads on. -/
structure Decides (same? : Point → Option Bool) (box : Box) (same : Point → Prop) : Prop where
  holds : ∀ point, same point → box.Holds point
  answer : ∀ point, box.Holds point → ∃ answer, same? point = some answer ∧
    (answer = true ↔ same point)

namespace Box

/-- The diagonal of a point, counted from that of the top left corner. -/
def diagonalOf (box : Box) (point : Point) : Int :=
  (point.x - box.left) - (point.y - box.top)

@[simp]
theorem diagonalOf_pointOn (box : Box) (diagonal x : Int) :
    box.diagonalOf (box.pointOn diagonal x) = diagonal := by
  simp only [diagonalOf, pointOn]
  omega

@[simp]
theorem pointOn_diagonalOf (box : Box) (point : Point) :
    box.pointOn (box.diagonalOf point) point.x = point := by
  obtain ⟨x, y⟩ := point
  simp only [diagonalOf, pointOn, Point.mk.injEq, true_and]
  omega

end Box

/-- The diagonals that paths reach lie as far apart as their changes allow. -/
theorem Path.diagonal_bounds {same : Point → Prop} {box : Box} {changes : Nat}
    {point : Point} (hpath : Path same box.start changes point) :
    -(changes : Int) ≤ box.diagonalOf point ∧ box.diagonalOf point ≤ changes ∧
      (box.diagonalOf point - changes) % 2 = 0 := by
  obtain ⟨deleted, inserted, hchanges, hdiagonal⟩ := hpath.exists_deleted_inserted
  simp only [Box.diagonalOf, Box.start] at hdiagonal ⊢
  omega

/-- No path with a number of changes reaches further on the point's diagonal. -/
structure IsFurthest (same : Point → Prop) (box : Box) (changes : Nat) (point : Point) :
    Prop where
  path : Path same box.start changes point
  le : ∀ other, Path same box.start changes other →
    box.diagonalOf other = box.diagonalOf point → other.x ≤ point.x

/-- A step onto a diagonal from the furthest points of a round, and that no step leads further. -/
structure IsFurthestStep (same : Point → Prop) (box : Box) (round : Nat) (diagonal : Int)
    (startX x : Int) : Prop where
  path : (x = startX + 1 ∧ Path same box.start round (box.pointOn (diagonal - 1) startX)) ∨
    (x = startX ∧ Path same box.start round (box.pointOn (diagonal + 1) startX))
  right : ∀ before, Path same box.start round before →
    box.diagonalOf before = diagonal - 1 → before.x + 1 ≤ x
  down : ∀ before, Path same box.start round before →
    box.diagonalOf before = diagonal + 1 → before.x ≤ x

/-- The last step of a furthest path and the equal lines behind it. -/
structure Snake.Ends (same : Point → Prop) (box : Box) (round : Nat) (snake : Snake) :
    Prop where
  before : Path same box.start (round - 1) snake.start
  inside : Path same snake.start (min round 1) snake.stop
  first : round = 0 → snake.start = box.start

/-! ## The arrays of furthest points -/

namespace Frontier

/-- There is room for every diagonal up to the radius. -/
def WellFormed (frontier : Frontier) : Prop :=
  frontier.reached.size = 2 * frontier.radius + 1

theorem wellFormed_ofRadius (radius : Nat) : (ofRadius radius).WellFormed := by
  simp [WellFormed, ofRadius]

theorem exists_write? {frontier : Frontier} (hwell : frontier.WellFormed) (diagonal : Int)
    (hlow : -(frontier.radius : Int) ≤ diagonal) (hhigh : diagonal ≤ frontier.radius)
    (value : Int) :
    ∃ written, frontier.write? diagonal value = some written ∧ written.WellFormed ∧
      written.radius = frontier.radius ∧ written.read? diagonal = some value ∧
      ∀ other, other ≠ diagonal → written.read? other = frontier.read? other := by
  have hsize := hwell
  rw [WellFormed] at hsize
  have hposition : (diagonal + frontier.radius).toNat < frontier.reached.size := by omega
  refine ⟨{ frontier with
    reached := frontier.reached.set (diagonal + frontier.radius).toNat value hposition },
    ?_, ?_, rfl, ?_, ?_⟩
  · rw [write?, if_neg (by omega), dif_pos hposition]
  · simpa [WellFormed] using hwell
  · simp only [read?]
    rw [if_neg (by omega), Array.getElem?_set_self]
  · intro other hother
    simp only [read?]
    split
    · rfl
    · rw [Array.getElem?_set_ne]
      omega

/-- The frontier holds the furthest points of a round. -/
def Reaches (frontier : Frontier) (same : Point → Prop) (box : Box) (round : Nat) : Prop :=
  ∀ diagonal : Int, -(round : Int) ≤ diagonal → diagonal ≤ round →
    (diagonal - round) % 2 = 0 →
    ∃ x, frontier.read? diagonal = some x ∧ IsFurthest same box round (box.pointOn diagonal x)

/-- The frontier holds what a round reads: the furthest points of the round before it, or the
corner of the box in the first round. -/
structure Ready (frontier : Frontier) (same : Point → Prop) (box : Box) (round : Nat) :
    Prop where
  corner : round = 0 → frontier.read? 1 = some box.left
  reaches : ∀ earlier, round = earlier + 1 → frontier.Reaches same box earlier

/-- A round reads no diagonal that it writes. -/
theorem Ready.of_read? {frontier written : Frontier} {same : Point → Prop} {box : Box}
    {round : Nat} {diagonal : Int} (hready : frontier.Ready same box round)
    (hparity : (diagonal - round) % 2 = 0)
    (hread : ∀ other, other ≠ diagonal → written.read? other = frontier.read? other) :
    written.Ready same box round := by
  constructor
  · intro hround
    rw [hread 1 (by omega)]
    exact hready.corner hround
  · intro earlier hround other hlow hhigh hother
    rw [hread other (by omega)]
    exact hready.reaches earlier hround other hlow hhigh hother

end Frontier

/-! ## One snake -/

section Furthest

variable {same? : Point → Option Bool} {same : Point → Prop} {box : Box}

theorem slide_spec (hdecides : Decides same? box same) (steps : Nat) (point : Point)
    (hleft : box.left ≤ point.x) (htop : box.top ≤ point.y)
    (hsteps : box.right - point.x ≤ steps) :
    ∃ stop, slide same? box steps point = some stop ∧ Path same point 0 stop ∧
      ¬ same stop := by
  induction steps generalizing point with
  | zero =>
    refine ⟨point, rfl, .refl, fun hsame => ?_⟩
    have := (hdecides.holds point hsame).1.2
    omega
  | succ steps ih =>
    rw [slide]
    by_cases hinside : point.x < box.right ∧ point.y < box.bottom
    · obtain ⟨answer, hanswer, hiff⟩ :=
        hdecides.answer point ⟨⟨hleft, hinside.1⟩, htop, hinside.2⟩
      rw [if_pos hinside, hanswer]
      cases answer with
      | true =>
        obtain ⟨stop, hslide, hpath, hstop⟩ := ih point.next
          (by simp only [Point.next]; omega) (by simp only [Point.next]; omega)
          (by simp only [Point.next]; omega)
        refine ⟨stop, hslide, ?_, hstop⟩
        exact (Path.refl.keep (hiff.mp rfl)).trans hpath
      | false => exact ⟨point, rfl, .refl, fun hsame => by simpa using hiff.mpr hsame⟩
    · rw [if_neg hinside]
      refine ⟨point, rfl, .refl, fun hsame => hinside ?_⟩
      exact ⟨(hdecides.holds point hsame).1.2, (hdecides.holds point hsame).2.2⟩

/-- Sliding from a column behind every change onto a diagonal leads as far as any path.  The
induction is on the path: its diagonal steps cannot pass the point at which lines differ. -/
theorem le_of_not_same {changes : Nat} {x : Int} {point stop : Point}
    (hpath : Path same box.start changes point)
    (hpoint : box.diagonalOf point = box.diagonalOf stop) (hend : ¬ same stop) (hx : x ≤ stop.x)
    (hcorner : changes = 0 → box.left ≤ x)
    (hright : ∀ fewer before, changes = fewer + 1 → Path same box.start fewer before →
      box.diagonalOf before = box.diagonalOf stop - 1 → before.x + 1 ≤ x)
    (hdown : ∀ fewer before, changes = fewer + 1 → Path same box.start fewer before →
      box.diagonalOf before = box.diagonalOf stop + 1 → before.x ≤ x) :
    point.x ≤ stop.x := by
  induction hpath with
  | refl =>
    have := hcorner rfl
    simp only [Box.start]
    omega
  | @keep _ before hbefore hsame ih =>
    simp only [Box.diagonalOf, Point.next] at hpoint ih ⊢
    have hle := ih (by omega) hcorner hright hdown
    have hne : before.x ≠ stop.x := by
      intro heq
      have hstop : before = stop := by
        ext
        · exact heq
        · omega
      exact hend (hstop ▸ hsame)
    omega
  | @delete fewer before hbefore =>
    simp only [Box.diagonalOf] at hpoint hright ⊢
    have := hright fewer before rfl hbefore (by omega)
    omega
  | @insert fewer before hbefore =>
    simp only [Box.diagonalOf] at hpoint hdown ⊢
    have := hdown fewer before rfl hbefore (by omega)
    omega

theorem IsFurthest.step_right {round : Nat} {diagonal x : Int}
    (hfurthest : IsFurthest same box round (box.pointOn (diagonal - 1) x))
    (hdown : ∀ before, Path same box.start round before →
      box.diagonalOf before = diagonal + 1 → before.x ≤ x + 1) :
    IsFurthestStep same box round diagonal x (x + 1) where
  path := .inl ⟨rfl, hfurthest.path⟩
  right before hbefore hdiagonal := by
    have := hfurthest.le before hbefore (by simpa using hdiagonal)
    simp only [Box.pointOn] at this
    omega
  down := hdown

theorem IsFurthest.step_down {round : Nat} {diagonal x : Int}
    (hfurthest : IsFurthest same box round (box.pointOn (diagonal + 1) x))
    (hright : ∀ before, Path same box.start round before →
      box.diagonalOf before = diagonal - 1 → before.x + 1 ≤ x) :
    IsFurthestStep same box round diagonal x x where
  path := .inr ⟨rfl, hfurthest.path⟩
  right := hright
  down before hbefore hdiagonal := hfurthest.le before hbefore (by simpa using hdiagonal)

theorem step?_succ {frontier : Frontier} {round : Nat} {diagonal : Int}
    (hreaches : frontier.Reaches same box round) (hlow : -(round + 1 : Nat) ≤ diagonal)
    (hhigh : diagonal ≤ (round + 1 : Nat)) (hparity : (diagonal - (round + 1 : Nat)) % 2 = 0) :
    ∃ startX x, step? frontier (round + 1) diagonal = some (startX, x) ∧
      IsFurthestStep same box round diagonal startX x := by
  by_cases hfirst : diagonal = -(round + 1 : Nat)
  · obtain ⟨x, hread, hfurthest⟩ := hreaches (diagonal + 1) (by omega) (by omega) (by omega)
    refine ⟨x, x, ?_, hfurthest.step_down ?_⟩
    · rw [step?, if_pos hfirst]
      simp [hread]
    · intro before hbefore hdiagonal
      have := hbefore.diagonal_bounds
      omega
  by_cases hlast : diagonal = (round + 1 : Nat)
  · obtain ⟨x, hread, hfurthest⟩ := hreaches (diagonal - 1) (by omega) (by omega) (by omega)
    refine ⟨x, x + 1, ?_, hfurthest.step_right ?_⟩
    · rw [step?, if_neg hfirst, if_pos hlast]
      simp [hread]
    · intro before hbefore hdiagonal
      have := hbefore.diagonal_bounds
      omega
  obtain ⟨leftX, hleft, hfurthestLeft⟩ :=
    hreaches (diagonal - 1) (by omega) (by omega) (by omega)
  obtain ⟨aboveX, habove, hfurthestAbove⟩ :=
    hreaches (diagonal + 1) (by omega) (by omega) (by omega)
  by_cases hlt : leftX < aboveX
  · refine ⟨aboveX, aboveX, ?_, hfurthestAbove.step_down ?_⟩
    · rw [step?, if_neg hfirst, if_neg hlast]
      simp [hleft, habove, hlt]
    · intro before hbefore hdiagonal
      have := hfurthestLeft.le before hbefore (by simpa using hdiagonal)
      simp only [Box.pointOn] at this
      omega
  · refine ⟨leftX, leftX + 1, ?_, hfurthestLeft.step_right ?_⟩
    · rw [step?, if_neg hfirst, if_neg hlast]
      simp [hleft, habove, hlt]
    · intro before hbefore hdiagonal
      have := hfurthestAbove.le before hbefore (by simpa using hdiagonal)
      simp only [Box.pointOn] at this
      omega

/-- Equal lines keep a path on its diagonal. -/
theorem Path.diagonalOf_eq (box : Box) {start stop : Point} (hpath : Path same start 0 stop) :
    box.diagonalOf stop = box.diagonalOf start := by
  obtain ⟨deleted, inserted, hchanges, hdiagonal⟩ := hpath.exists_deleted_inserted
  simp only [Box.diagonalOf]
  omega

theorem furthest?_zero (hdecides : Decides same? box same) {frontier : Frontier}
    (hready : frontier.Ready same box 0) :
    ∃ snake, furthest? same? box frontier 0 0 = some snake ∧ snake.Ends same box 0 ∧
      IsFurthest same box 0 snake.stop ∧ box.diagonalOf snake.stop = 0 := by
  have hpoint : box.pointOn 0 box.left = box.start := by
    simp only [Box.pointOn, Box.start, Point.mk.injEq, true_and]
    omega
  obtain ⟨stop, hslide, hpath, hend⟩ := slide_spec hdecides
    (box.right - box.left).toNat box.start (Int.le_refl _) (Int.le_refl _)
    (by simp only [Box.start]; omega)
  have hstop : box.diagonalOf stop = 0 := by
    simpa [Box.diagonalOf, Box.start] using hpath.diagonalOf_eq box
  refine ⟨⟨box.start, stop⟩, ?_, ⟨.refl, hpath, fun _ => rfl⟩, ⟨hpath, ?_⟩, hstop⟩
  · have hstep : step? frontier 0 0 = some (box.left, box.left) := by
      simp [step?, hready.corner rfl]
    simp only [furthest?, hstep, Option.bind_eq_bind, Option.bind_some, hpoint, hslide]
    rfl
  · intro other hother hdiagonal
    exact le_of_not_same hother hdiagonal hend hpath.start_le_stop.1
      (fun _ => Int.le_refl _) (by omega) (by omega)

theorem furthest?_succ (hdecides : Decides same? box same) {frontier : Frontier}
    {round : Nat} {diagonal : Int} (hreaches : frontier.Reaches same box round)
    (hlow : -(round + 1 : Nat) ≤ diagonal) (hhigh : diagonal ≤ (round + 1 : Nat))
    (hparity : (diagonal - (round + 1 : Nat)) % 2 = 0) :
    ∃ snake, furthest? same? box frontier (round + 1) diagonal = some snake ∧
      snake.Ends same box (round + 1) ∧ IsFurthest same box (round + 1) snake.stop ∧
      box.diagonalOf snake.stop = diagonal := by
  obtain ⟨startX, x, hstep, hfurthest⟩ := step?_succ hreaches hlow hhigh hparity
  have hstart : ∃ startY, (if round + 1 = 0 ∨ x ≠ startX then (box.pointOn diagonal x).y
        else (box.pointOn diagonal x).y - 1) = startY ∧
      Path same box.start round ⟨startX, startY⟩ ∧
      Path same ⟨startX, startY⟩ 1 (box.pointOn diagonal x) := by
    refine ⟨_, rfl, ?_⟩
    obtain ⟨rfl, hpath⟩ | ⟨rfl, hpath⟩ := hfurthest.path
    · have hpoint : box.pointOn (diagonal - 1) startX =
          ⟨startX, (box.pointOn diagonal (startX + 1)).y⟩ := by
        simp only [Box.pointOn, Point.mk.injEq, true_and]
        omega
      rw [if_pos (by omega), ← hpoint]
      exact ⟨hpath, by rw [hpoint]; exact Path.refl.delete⟩
    · have hpoint : box.pointOn (diagonal + 1) x =
          ⟨x, (box.pointOn diagonal x).y - 1⟩ := by
        simp only [Box.pointOn, Point.mk.injEq, true_and]
        omega
      rw [if_neg (by omega), ← hpoint]
      refine ⟨hpath, ?_⟩
      have hnext : box.pointOn diagonal x =
          ⟨(box.pointOn (diagonal + 1) x).x, (box.pointOn (diagonal + 1) x).y + 1⟩ := by
        simp only [Box.pointOn, Point.mk.injEq, true_and]
        omega
      rw [hnext]
      exact Path.refl.insert
  obtain ⟨startY, hstartY, hbefore, hchange⟩ := hstart
  have hinside := (hbefore.trans hchange).start_le_stop
  obtain ⟨stop, hslide, hpath, hend⟩ := slide_spec hdecides
    (box.right - x).toNat (box.pointOn diagonal x)
    hinside.1 hinside.2 (by simp only [Box.pointOn]; omega)
  have hstop : box.diagonalOf stop = diagonal := by
    simpa using hpath.diagonalOf_eq box
  have hall := (hbefore.trans hchange).trans hpath
  refine ⟨⟨⟨startX, startY⟩, stop⟩, ?_, ⟨hbefore, ?_, by omega⟩, ⟨hall, ?_⟩, hstop⟩
  · simp only [furthest?, hstep, Option.bind_eq_bind, Option.bind_some, hslide, hstartY]
  · rw [Nat.min_eq_right (by omega)]
    exact hchange.trans hpath
  · intro other hother hdiagonal
    refine le_of_not_same hother hdiagonal hend hpath.start_le_stop.1 (by omega) ?_ ?_
    · rintro earlier before hround hpathBefore hdiagonalBefore
      obtain rfl : round = earlier := by omega
      exact hfurthest.right before hpathBefore (hstop ▸ hdiagonalBefore)
    · rintro earlier before hround hpathBefore hdiagonalBefore
      obtain rfl : round = earlier := by omega
      exact hfurthest.down before hpathBefore (hstop ▸ hdiagonalBefore)

/-- Every snake of a round ends at the furthest point of its diagonal. -/
theorem furthest?_spec (hdecides : Decides same? box same) {frontier : Frontier}
    {round : Nat} {diagonal : Int} (hready : frontier.Ready same box round)
    (hlow : -(round : Int) ≤ diagonal) (hhigh : diagonal ≤ round)
    (hparity : (diagonal - round) % 2 = 0) :
    ∃ snake, furthest? same? box frontier round diagonal = some snake ∧
      snake.Ends same box round ∧ IsFurthest same box round snake.stop ∧
      box.diagonalOf snake.stop = diagonal := by
  cases round with
  | zero =>
    obtain rfl : diagonal = 0 := by omega
    exact furthest?_zero hdecides hready
  | succ round =>
    exact furthest?_succ hdecides (hready.reaches round rfl) hlow hhigh hparity

end Furthest

end Diff

end Patchwork
