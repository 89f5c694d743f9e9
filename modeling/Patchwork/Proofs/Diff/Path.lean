import Mathlib.Tactic.Common
import Patchwork.Diff.Snake

/-!
# Paths through the grid

A path deletes lines to the right, inserts lines downward and keeps equal lines along
diagonals; its length is its number of changes.  The two facts behind the search for middle
snakes are proved here for any rule that says where diagonals lead on: a path can be drawn back
along its last diagonal without more changes, and a path that leaves the box pays for it.
-/

namespace Patchwork

namespace Diff

attribute [ext] Point

namespace Point

@[simp]
theorem turn_turn (point : Point) : point.turn.turn = point := by
  simp [turn]

@[simp]
theorem next_turn_next_turn (point : Point) : point.next.turn.next.turn = point := by
  simp only [next, turn]
  congr 1 <;> omega

@[simp]
theorem next_turn_next (point : Point) : point.next.turn.next = point.turn := by
  simp only [next, turn]
  congr 1 <;> omega

end Point

namespace Box

@[simp]
theorem turn_turn (box : Box) : box.turn.turn = box := by
  simp [turn]

@[simp]
theorem start_turn (box : Box) : box.turn.start = box.stop.turn := rfl

@[simp]
theorem stop_turn (box : Box) : box.turn.stop = box.start.turn := rfl

end Box

/-- A path with a number of changes.  `same` tells the points from which a diagonal leads on. -/
inductive Path (same : Point → Prop) (start : Point) : Nat → Point → Prop
  | refl : Path same start 0 start
  | keep {changes : Nat} {stop : Point} :
      Path same start changes stop → same stop → Path same start changes stop.next
  | delete {changes : Nat} {stop : Point} :
      Path same start changes stop → Path same start (changes + 1) ⟨stop.x + 1, stop.y⟩
  | insert {changes : Nat} {stop : Point} :
      Path same start changes stop → Path same start (changes + 1) ⟨stop.x, stop.y + 1⟩

/-- The diagonals of the grid turned around. -/
def Turned (same : Point → Prop) (point : Point) : Prop :=
  same point.next.turn

@[simp]
theorem turned_turned (same : Point → Prop) : Turned (Turned same) = same := by
  funext point
  simp [Turned]

namespace Path

variable {same : Point → Prop} {changes more : Nat} {start between stop : Point}

theorem trans (hfirst : Path same start changes between)
    (hsecond : Path same between more stop) : Path same start (changes + more) stop := by
  induction hsecond with
  | refl => exact hfirst
  | keep _ hsame ih => exact ih.keep hsame
  | delete _ ih => exact ih.delete
  | insert _ ih => exact ih.insert

/-- How a path begins. -/
inductive Begins (same : Point → Prop) (start : Point) : Nat → Point → Prop
  | arrived : Begins same start 0 start
  | keep {changes : Nat} {stop : Point} :
      same start → Path same start.next changes stop → Begins same start changes stop
  | delete {changes : Nat} {stop : Point} :
      Path same ⟨start.x + 1, start.y⟩ changes stop → Begins same start (changes + 1) stop
  | insert {changes : Nat} {stop : Point} :
      Path same ⟨start.x, start.y + 1⟩ changes stop → Begins same start (changes + 1) stop

theorem Begins.append (hbegins : Begins same start changes between)
    (hrest : Path same between more stop) (hend : Begins same between more stop) :
    Begins same start (changes + more) stop := by
  cases hbegins with
  | arrived => rwa [Nat.zero_add]
  | keep hsame hfirst => exact .keep hsame (hfirst.trans hrest)
  | delete hfirst =>
    rw [Nat.add_right_comm]
    exact .delete (hfirst.trans hrest)
  | insert hfirst =>
    rw [Nat.add_right_comm]
    exact .insert (hfirst.trans hrest)

theorem begins (hpath : Path same start changes stop) : Begins same start changes stop := by
  induction hpath with
  | refl => exact .arrived
  | keep _ hsame ih => exact ih.append (refl.keep hsame) (.keep hsame refl)
  | delete _ ih => exact ih.append refl.delete (.delete refl)
  | insert _ ih => exact ih.append refl.insert (.insert refl)

theorem mono {other : Point → Prop} (hpath : Path same start changes stop)
    (himp : ∀ point, same point → other point) : Path other start changes stop := by
  induction hpath with
  | refl => exact refl
  | keep _ hsame ih => exact ih.keep (himp _ hsame)
  | delete _ ih => exact ih.delete
  | insert _ ih => exact ih.insert

/-- Paths only go right and down. -/
theorem start_le_stop (hpath : Path same start changes stop) :
    start.x ≤ stop.x ∧ start.y ≤ stop.y := by
  induction hpath with
  | refl => omega
  | keep _ _ ih => simp only [Point.next]; omega
  | delete _ ih => simp only []; omega
  | insert _ ih => simp only []; omega

/-- Only changes lead from one diagonal to another. -/
theorem exists_deleted_inserted (hpath : Path same start changes stop) :
    ∃ deleted inserted : Nat, changes = deleted + inserted ∧
      stop.x - stop.y = start.x - start.y + deleted - inserted := by
  induction hpath with
  | refl => exact ⟨0, 0, rfl, by omega⟩
  | keep _ _ ih =>
    obtain ⟨deleted, inserted, hchanges, hdiagonal⟩ := ih
    exact ⟨deleted, inserted, hchanges, by simp only [Point.next]; omega⟩
  | delete _ ih =>
    obtain ⟨deleted, inserted, hchanges, hdiagonal⟩ := ih
    exact ⟨deleted + 1, inserted, by omega, by simp only []; omega⟩
  | insert _ ih =>
    obtain ⟨deleted, inserted, hchanges, hdiagonal⟩ := ih
    exact ⟨deleted, inserted + 1, by omega, by simp only []; omega⟩

/-- Diagonals outside the box around a path are not on it. -/
theorem restrict (hpath : Path same start changes stop) {box : Box}
    (hstart : box.left ≤ start.x ∧ box.top ≤ start.y)
    (hstop : stop.x ≤ box.right ∧ stop.y ≤ box.bottom) :
    Path (fun point => box.Holds point ∧ same point) start changes stop := by
  induction hpath with
  | refl => exact refl
  | keep hbefore hsame ih =>
    have hle := hbefore.start_le_stop
    simp only [Point.next] at hstop
    exact (ih (by omega)).keep ⟨⟨by omega, by omega⟩, hsame⟩
  | delete _ ih => exact (ih (by simp only [] at hstop; omega)).delete
  | insert _ ih => exact (ih (by simp only [] at hstop; omega)).insert

/-- A path runs the other way in the grid turned around. -/
theorem turn (hpath : Path same start changes stop) :
    Path (Turned same) stop.turn changes start.turn := by
  induction hpath with
  | refl => exact refl
  | @keep _ stop _ hsame ih =>
    have hstep : Path (Turned same) stop.next.turn 0 stop.turn := by
      have hkept : Path (Turned same) stop.next.turn 0
          stop.next.turn.next := refl.keep (by simpa [Turned] using hsame)
      simpa using hkept
    simpa using hstep.trans ih
  | @delete changes stop _ ih =>
    have hstep : Path (Turned same)
        (Point.turn ⟨stop.x + 1, stop.y⟩) 1 stop.turn := by
      have hpoint : stop.turn = ⟨(Point.turn ⟨stop.x + 1, stop.y⟩).x,
          (Point.turn ⟨stop.x + 1, stop.y⟩).y + 1⟩ := by
        simp only [Point.turn]
        congr 1
        omega
      rw [hpoint]
      exact refl.insert
    exact Nat.add_comm 1 changes ▸ hstep.trans ih
  | @insert changes stop _ ih =>
    have hstep : Path (Turned same)
        (Point.turn ⟨stop.x, stop.y + 1⟩) 1 stop.turn := by
      have hpoint : stop.turn = ⟨(Point.turn ⟨stop.x, stop.y + 1⟩).x + 1,
          (Point.turn ⟨stop.x, stop.y + 1⟩).y⟩ := by
        simp only [Point.turn]
        congr 1
        omega
      rw [hpoint]
      exact refl.delete
    exact Nat.add_comm 1 changes ▸ hstep.trans ih

/-- The paths of the grid turned around are the paths of the grid, run the other way. -/
theorem turn_iff :
    Path (Turned same) stop.turn changes start.turn ↔
      Path same start changes stop := by
  constructor
  · intro hpath
    simpa using hpath.turn
  · exact turn

/-- A path has a point behind any number of its changes. -/
theorem split (hpath : Path same start changes stop) {first : Nat} (hfirst : first ≤ changes) :
    ∃ between, Path same start first between ∧ Path same between (changes - first) stop := by
  induction hpath with
  | refl =>
    obtain rfl : first = 0 := by omega
    exact ⟨start, refl, refl⟩
  | keep _ hsame ih =>
    obtain ⟨between, hbefore, hbehind⟩ := ih hfirst
    exact ⟨between, hbefore, hbehind.keep hsame⟩
  | @delete changes stop hbefore ih =>
    by_cases hall : first = changes + 1
    · subst first
      exact ⟨_, hbefore.delete, Nat.sub_self _ ▸ refl⟩
    · obtain ⟨between, hfirst', hbehind⟩ := ih (by omega)
      exact ⟨between, hfirst', Nat.succ_sub (by omega : first ≤ changes) ▸ hbehind.delete⟩
  | @insert changes stop hbefore ih =>
    by_cases hall : first = changes + 1
    · subst first
      exact ⟨_, hbefore.insert, Nat.sub_self _ ▸ refl⟩
    · obtain ⟨between, hfirst', hbehind⟩ := ih (by omega)
      exact ⟨between, hfirst', Nat.succ_sub (by omega : first ≤ changes) ▸ hbehind.insert⟩

theorem deletions (start : Point) (count : Nat) :
    Path same start count ⟨start.x + count, start.y⟩ := by
  induction count with
  | zero => simpa using refl
  | succ count ih => simpa [Int.add_assoc] using ih.delete

theorem insertions (start : Point) (count : Nat) :
    Path same start count ⟨start.x, start.y + count⟩ := by
  induction count with
  | zero => simpa using refl
  | succ count ih => simpa [Int.add_assoc] using ih.insert

/-- Deleting and inserting everything leads from a point to any point right of it and below. -/
theorem ofChanges {start : Point} (stop : Point) (hx : start.x ≤ stop.x)
    (hy : start.y ≤ stop.y) :
    Path same start ((stop.x - start.x) + (stop.y - start.y)).toNat stop := by
  have hright : Path same start _ _ := deletions start (stop.x - start.x).toNat
  have hboth := hright.trans (insertions _ (stop.y - start.y).toNat)
  have hstop : (⟨start.x + (stop.x - start.x).toNat,
      start.y + (stop.y - start.y).toNat⟩ : Point) = stop := by
    ext
    · change start.x + ((stop.x - start.x).toNat : Int) = stop.x
      omega
    · change start.y + ((stop.y - start.y).toNat : Int) = stop.y
      omega
  have hcount : (stop.x - start.x).toNat + (stop.y - start.y).toNat =
      ((stop.x - start.x) + (stop.y - start.y)).toNat := by omega
  rwa [hstop, hcount] at hboth

/-- Drawing the end of a path back along its diagonal takes no more changes. -/
theorem drawBack (hpath : Path same start changes stop) (steps : Int) (hsteps : 0 ≤ steps)
    (hx : start.x ≤ stop.x - steps) (hy : start.y ≤ stop.y - steps) :
    ∃ fewer ≤ changes, Path same start fewer ⟨stop.x - steps, stop.y - steps⟩ := by
  induction hpath generalizing steps with
  | refl =>
    obtain rfl : steps = 0 := by omega
    exact ⟨0, Nat.le_refl 0, by simpa using refl⟩
  | @keep changes stop hbefore hsame ih =>
    simp only [Point.next] at hx hy ⊢
    by_cases hzero : steps = 0
    · subst steps
      exact ⟨changes, Nat.le_refl _, by simpa [Point.next] using hbefore.keep hsame⟩
    · have hdrawn := ih (steps - 1) (by omega) (by omega) (by omega)
      rwa [show stop.x - (steps - 1) = stop.x + 1 - steps by omega,
        show stop.y - (steps - 1) = stop.y + 1 - steps by omega] at hdrawn
  | @delete changes stop hbefore ih =>
    simp only [] at hx hy ⊢
    by_cases hcolumn : start.x = stop.x + 1 - steps
    · -- in the first column there are only insertions left
      obtain ⟨deleted, inserted, hchanges, hdiagonal⟩ := hbefore.exists_deleted_inserted
      have hdown : Path same start _ _ :=
        ofChanges ⟨stop.x + 1 - steps, stop.y - steps⟩ (by simp only []; omega) hy
      exact ⟨_, by simp only []; omega, hdown⟩
    · obtain ⟨fewer, hfewer, hdrawn⟩ := ih steps hsteps (by omega) hy
      refine ⟨fewer + 1, by omega, ?_⟩
      rw [show stop.x + 1 - steps = stop.x - steps + 1 by omega]
      exact hdrawn.delete
  | @insert changes stop hbefore ih =>
    simp only [] at hx hy ⊢
    by_cases hrow : start.y = stop.y + 1 - steps
    · obtain ⟨deleted, inserted, hchanges, hdiagonal⟩ := hbefore.exists_deleted_inserted
      have hright : Path same start _ _ :=
        ofChanges ⟨stop.x - steps, stop.y + 1 - steps⟩ hx (by simp only []; omega)
      exact ⟨_, by simp only []; omega, hright⟩
    · obtain ⟨fewer, hfewer, hdrawn⟩ := ih steps hsteps hx (by omega)
      refine ⟨fewer + 1, by omega, ?_⟩
      rw [show stop.y + 1 - steps = stop.y - steps + 1 by omega]
      exact hdrawn.insert

/-- A path ends as well at any point before its end on the same diagonal. -/
theorem endAt (hpath : Path same start changes stop) (between : Point)
    (hdiagonal : between.x - between.y = stop.x - stop.y) (hle : between.x ≤ stop.x)
    (hx : start.x ≤ between.x) (hy : start.y ≤ between.y) :
    ∃ fewer ≤ changes, Path same start fewer between := by
  have hbetween : (⟨stop.x - (stop.x - between.x), stop.y - (stop.x - between.x)⟩ : Point) =
      between := by
    ext
    · exact Int.sub_sub_self stop.x between.x
    · change stop.y - (stop.x - between.x) = between.y
      omega
  rw [← hbetween]
  exact hpath.drawBack (stop.x - between.x) (by omega) (by omega) (by omega)

/-- A path begins as well at any point behind its start on the same diagonal. -/
theorem beginAt (hpath : Path same start changes stop) (between : Point)
    (hdiagonal : between.x - between.y = start.x - start.y) (hle : start.x ≤ between.x)
    (hx : between.x ≤ stop.x) (hy : between.y ≤ stop.y) :
    ∃ fewer ≤ changes, Path same between fewer stop := by
  obtain ⟨fewer, hfewer, hturned⟩ := hpath.turn.endAt between.turn
    (by simp only [Point.turn]; omega) (by simp only [Point.turn]; omega)
    (by simp only [Point.turn]; omega) (by simp only [Point.turn]; omega)
  exact ⟨fewer, hfewer, turn_iff.mp hturned⟩

/-- A path that has left the box past its last corner has at least two changes more than one
that turns to the corner instead.  `width` bounds how far it is from the corner's diagonal. -/
theorem reach_corner_of_exit (corner : Point) (width : Int)
    (hsame : ∀ point, same point → point.x < corner.x ∧ point.y < corner.y)
    (hpath : Path same start changes stop)
    (hstart : start.x ≤ corner.x ∧ start.y ≤ corner.y)
    (hexit : corner.x < stop.x ∨ corner.y < stop.y)
    (hlow : -width ≤ stop.x - stop.y - (corner.x - corner.y))
    (hhigh : stop.x - stop.y - (corner.x - corner.y) ≤ width) :
    ∃ fewer, Path same start fewer corner ∧ (fewer : Int) + 2 ≤ changes + width := by
  induction hpath generalizing width with
  | refl => omega
  | keep _ hdiagonal _ =>
    have := hsame _ hdiagonal
    simp only [Point.next] at hexit
    omega
  | @delete changes stop hbefore ih =>
    simp only [] at hexit hlow hhigh
    by_cases hout : corner.x < stop.x ∨ corner.y < stop.y
    · obtain ⟨fewer, hcorner, hfewer⟩ :=
        ih (width + 1) hout (by omega) (by omega)
      exact ⟨fewer, hcorner, by omega⟩
    · have hdown := hbefore.trans (ofChanges corner (by omega) (by omega))
      exact ⟨_, hdown, by omega⟩
  | @insert changes stop hbefore ih =>
    simp only [] at hexit hlow hhigh
    by_cases hout : corner.x < stop.x ∨ corner.y < stop.y
    · obtain ⟨fewer, hcorner, hfewer⟩ :=
        ih (width + 1) hout (by omega) (by omega)
      exact ⟨fewer, hcorner, by omega⟩
    · have hright := hbefore.trans (ofChanges corner (by omega) (by omega))
      exact ⟨_, hright, by omega⟩

/-- Where a path from the start of a box overtakes one to its end on their common diagonal,
and no path through the box has fewer changes than both together, the point overtaken with lies
in the box, and what is left of the way has no more changes than the second path. -/
theorem reach_stop_of_overtake {box : Box} {back : Point}
    (hsame : ∀ point, same point → box.Holds point)
    (hleft : box.left ≤ box.right) (htop : box.top ≤ box.bottom)
    (hfirst : Path same box.start changes between) (hsecond : Path same back more box.stop)
    (hdiagonal : between.x - between.y = back.x - back.y) (hovertake : back.y ≤ between.y)
    (hshortest : ∀ all, Path same box.start all box.stop → changes + more ≤ all) :
    ∃ fewer ≤ more, Path same between fewer box.stop := by
  obtain ⟨deleted, inserted, hmore, hcorner⟩ := hsecond.exists_deleted_inserted
  have hinside : between.x ≤ box.right ∧ between.y ≤ box.bottom := by
    by_contra hout
    obtain ⟨fewer, hpath, hfewer⟩ := hfirst.reach_corner_of_exit box.stop more
      (fun point hpoint => ⟨(hsame point hpoint).1.2, (hsame point hpoint).2.2⟩)
      ⟨hleft, htop⟩ (by simp only [Box.stop]; omega) (by omega) (by omega)
    have := hshortest fewer hpath
    omega
  exact hsecond.beginAt between hdiagonal (by omega) hinside.1 hinside.2

end Path

end Diff

end Patchwork
