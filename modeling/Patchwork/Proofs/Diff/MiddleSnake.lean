import Patchwork.Proofs.Diff.Furthest

/-!
# Middle snakes lie on shortest paths

The searches from the two corners of a box take turns.  As long as they have not met, no path
through the box is as short as both searches together; when they meet, the snake found is part
of a path that is.  Main statement: `middleSnake_spec`.
-/

namespace Patchwork

namespace Diff

/-! ## One round -/

/-- The end of a path from one corner has gone past what the search from the other corner has
reached on the same diagonal, up to `width` diagonals from that corner. -/
def Overtakes (box : Box) (other : Frontier) (width : Int) (point : Point) : Prop :=
  (-width ≤ box.diagonalOf point - box.delta ∧ box.diagonalOf point - box.delta ≤ width) ∧
    ∃ reached, other.read? (box.diagonalOf point - box.delta) = some reached ∧
      -reached ≤ point.y

/-- The diagonals from a number on hold the furthest points of a round, none of which overtakes
the other search. -/
def Frontier.ReachesFrom (frontier : Frontier) (same : Point → Prop) (box : Box)
    (other : Frontier) (checked : Bool) (width : Int) (round : Nat) (first : Int) : Prop :=
  ∀ diagonal : Int, first ≤ diagonal → diagonal ≤ round → (diagonal - round) % 2 = 0 →
    ∃ x, frontier.read? diagonal = some x ∧
      IsFurthest same box round (box.pointOn diagonal x) ∧
      (checked = true → ¬ Overtakes box other width (box.pointOn diagonal x))

/-- What one round comes to: a snake that overtakes the other search, or all its furthest
points, none of which does. -/
inductive RoundResult (same : Point → Prop) (box : Box) (other : Frontier) (checked : Bool)
    (width : Int) (round radius : Nat) : Round → Prop
  | met {snake : Snake} (hchecked : checked = true) (hends : snake.Ends same box round)
      (hfurthest : IsFurthest same box round snake.stop)
      (hovertakes : Overtakes box other width snake.stop) :
      RoundResult same box other checked width round radius (.met snake)
  | reached {frontier : Frontier} (hwell : frontier.WellFormed)
      (hradius : frontier.radius = radius)
      (hreaches : frontier.ReachesFrom same box other checked width round (-round)) :
      RoundResult same box other checked width round radius (.reached frontier)

section Search

variable {same? : Point → Option Bool} {same : Point → Prop} {box : Box}

/-- The induction is on the diagonals left; the ones done hold this round's points, those in
between still the points of the round before. -/
theorem search_spec (hdecides : Decides same? box same) {other : Frontier} {checked : Bool}
    {width : Int} {round : Nat}
    (hother : checked = true → ∀ diagonal : Int, (diagonal - round) % 2 = 0 →
      -width ≤ diagonal - box.delta → diagonal - box.delta ≤ width →
      ∃ reached, other.read? (diagonal - box.delta) = some reached)
    (count : Nat) (hcount : count ≤ round + 1) (frontier : Frontier)
    (hwell : frontier.WellFormed) (hradius : round ≤ frontier.radius)
    (hready : frontier.Ready same box round)
    (hdone : frontier.ReachesFrom same box other checked width round (2 * count - round)) :
    ∃ result, search same? box other checked width round count frontier = some result ∧
      RoundResult same box other checked width round frontier.radius result := by
  induction count generalizing frontier with
  | zero => exact ⟨_, rfl, .reached hwell rfl (by simpa using hdone)⟩
  | succ count ih =>
    have hparity : ((2 * count - round : Int) - round) % 2 = 0 := by omega
    obtain ⟨snake, hsnake, hends, hfurthest, hdiagonal⟩ :=
      furthest?_spec hdecides hready (by omega) (by omega) hparity
    obtain ⟨written, hwrite, hwellWritten, hradiusWritten, hread, hreadOther⟩ :=
      Frontier.exists_write? hwell (2 * count - round) (by omega) (by omega) snake.stop.x
    have hstop : box.pointOn (2 * count - round) snake.stop.x = snake.stop := by
      rw [← hdiagonal, Box.pointOn_diagonalOf]
    have hgoOn : (checked = true → ¬ Overtakes box other width snake.stop) →
        ∃ result, search same? box other checked width round count written = some result ∧
          RoundResult same box other checked width round frontier.radius result := by
      intro hnot
      rw [← hradiusWritten]
      refine ih (by omega) written hwellWritten (by omega)
        (hready.of_read? hparity hreadOther) ?_
      intro diagonal hlow hhigh hdiagonalParity
      by_cases heq : diagonal = 2 * count - round
      · subst diagonal
        exact ⟨snake.stop.x, hread, hstop ▸ hfurthest, hstop ▸ hnot⟩
      · rw [hreadOther diagonal heq]
        exact hdone diagonal (by omega) hhigh hdiagonalParity
    simp only [search, hsnake, hwrite, Option.bind_eq_bind, Option.bind_some]
    split
    · rename_i hcheck
      obtain ⟨hchecked, hlow, hhigh⟩ := hcheck
      obtain ⟨reached, hreached⟩ := hother hchecked (2 * count - round) hparity hlow hhigh
      rw [← hdiagonal] at hlow hhigh hreached
      simp only [← hdiagonal, hreached, Option.bind_some]
      split
      · rename_i hovertake
        exact ⟨_, rfl, .met hchecked hends hfurthest ⟨⟨hlow, hhigh⟩, reached, hreached, hovertake⟩⟩
      · rename_i hbehind
        refine hgoOn fun _ hovertakes => hbehind ?_
        obtain ⟨_, value, hvalue, hle⟩ := hovertakes
        rw [hreached, Option.some.injEq] at hvalue
        exact hvalue ▸ hle
    · rename_i hcheck
      refine hgoOn fun hchecked hovertakes => hcheck ⟨hchecked, ?_⟩
      exact hdiagonal ▸ hovertakes.1

end Search

/-! ## Meeting -/

/-- The snake is the only change, and equal lines, on a stretch of a shortest path. -/
structure Snake.IsMiddle (same : Point → Prop) (box : Box) (snake : Snake) : Prop where
  exists_path : ∃ before inside behind, inside ≤ 1 ∧
    Path same box.start before snake.start ∧ Path same snake.start inside snake.stop ∧
    Path same snake.stop behind box.stop ∧
    ∀ all, Path same box.start all box.stop → before + inside + behind ≤ all
  ne : snake.start ≠ snake.stop

section Meeting

variable {same : Point → Prop} {box : Box}

theorem Path.turn_box_iff {changes : Nat} :
    Path (Turned same) box.turn.start changes box.turn.stop ↔
      Path same box.start changes box.stop := by
  rw [Box.start_turn, Box.stop_turn, Path.turn_iff]

theorem Snake.IsMiddle.turn {snake : Snake} (hmiddle : snake.IsMiddle (Turned same) box.turn) :
    snake.turn.IsMiddle same box := by
  obtain ⟨⟨before, inside, behind, hinside, hbefore, hleg, hbehind, hshortest⟩, hne⟩ := hmiddle
  refine ⟨⟨behind, inside, before, hinside, ?_, ?_, ?_, ?_⟩, ?_⟩
  · exact Path.turn_iff.mp (by simpa [Snake.turn] using hbehind)
  · exact Path.turn_iff.mp (by simpa [Snake.turn] using hleg)
  · exact Path.turn_iff.mp (by simpa [Snake.turn] using hbefore)
  · intro all hall
    have := hshortest all (Path.turn_box_iff.mpr hall)
    omega
  · intro heq
    apply hne
    simpa [Snake.turn] using congrArg Point.turn heq.symm

/-- Turned around, the points that the other search has reached begin paths to the last corner
of the box. -/
theorem exists_back {second : Nat} {diagonal reached : Int}
    (hfurthest : IsFurthest (Turned same) box.turn second
      (box.turn.pointOn (diagonal - box.delta) reached)) :
    ∃ back, back.y = -reached ∧ box.diagonalOf back = diagonal ∧
      Path same back second box.stop := by
  refine ⟨(box.turn.pointOn (diagonal - box.delta) reached).turn, ?_, ?_, ?_⟩
  · simp [Point.turn, Box.pointOn]
  · simp only [Box.diagonalOf, Point.turn, Box.pointOn, Box.turn, Box.delta, Box.width,
      Box.height]
    omega
  · exact Path.turn_iff.mp (by simpa using hfurthest.path)

/-- Behind a point that overtakes the other search, no more changes are left than that search
has made. -/
theorem Overtakes.exists_path {other : Frontier} {width : Int} {first second : Nat}
    {point : Point} (hsame : ∀ point, same point → box.Holds point)
    (hleft : box.left ≤ box.right) (htop : box.top ≤ box.bottom)
    (hovertakes : Overtakes box other width point) (hwidth : width = second)
    (hother : other.Reaches (Turned same) box.turn second)
    (hparity : (box.delta - (first + second : Nat)) % 2 = 0)
    (hpath : Path same box.start first point)
    (hshortest : ∀ all, Path same box.start all box.stop → first + second ≤ all) :
    ∃ fewer ≤ second, Path same point fewer box.stop := by
  obtain ⟨⟨hlow, hhigh⟩, reached, hreached, hle⟩ := hovertakes
  have hbounds := hpath.diagonal_bounds
  obtain ⟨x, hx, hfurthest⟩ := hother (box.diagonalOf point - box.delta)
    (by omega) (by omega) (by omega)
  obtain rfl : reached = x := by simpa [hreached] using hx
  obtain ⟨back, hbackY, hdiagonal, hback⟩ := exists_back hfurthest
  simp only [Box.diagonalOf] at hdiagonal
  exact hpath.reach_stop_of_overtake hsame hleft htop hback (by omega) (by omega) hshortest

/-- A snake that overtakes the other search, where no path is shorter than both searches
together, is a middle snake. -/
theorem Overtakes.isMiddle {other : Frontier} {width : Int} {first second : Nat} {snake : Snake}
    (hsame : ∀ point, same point → box.Holds point)
    (hleft : box.left ≤ box.right) (htop : box.top ≤ box.bottom) (hsize : box.size ≠ 0)
    (hovertakes : Overtakes box other width snake.stop) (hwidth : width = second)
    (hother : other.Reaches (Turned same) box.turn second)
    (hparity : (box.delta - (first + second : Nat)) % 2 = 0)
    (hends : snake.Ends same box first) (hfurthest : IsFurthest same box first snake.stop)
    (hfirst : first = 0 → second = 0)
    (hshortest : ∀ all, Path same box.start all box.stop → first + second ≤ all) :
    snake.IsMiddle same box := by
  obtain ⟨fewer, hfewer, hbehind⟩ := hovertakes.exists_path hsame hleft htop hwidth hother
    hparity hfurthest.path hshortest
  refine ⟨⟨_, _, _, by omega, hends.before, hends.inside, hbehind, ?_⟩, fun heq => ?_⟩
  · intro all hall
    have := hshortest all hall
    omega
  · by_cases hzero : first = 0
    · -- without a change the whole box is one diagonal, and the snake has come to its end
      obtain rfl : fewer = 0 := by omega
      subst first
      have hpath := hfurthest.path.trans hbehind
      have hx := hfurthest.le box.stop hpath (hbehind.diagonalOf_eq box)
      have hy := hbehind.start_le_stop
      have hdelta := hpath.diagonal_bounds
      rw [← heq, hends.first rfl] at hx
      simp only [Box.diagonalOf, Box.start, Box.stop, Box.size, Box.width, Box.height]
        at hx hdelta hsize
      omega
    · have hinside := hends.inside.exists_deleted_inserted
      rw [← heq] at hinside
      omega

/-- If no furthest point of a round overtakes the other search, no path through the box is as
long as both searches together. -/
theorem Frontier.ReachesFrom.ne {frontier other : Frontier} {width : Int} {first second : Nat}
    (hreaches : frontier.ReachesFrom same box other true width first (-first))
    (hwidth : width = second) (hother : other.Reaches (Turned same) box.turn second)
    {all : Nat} (hall : Path same box.start all box.stop) : all ≠ first + second := by
  rintro rfl
  obtain ⟨between, hbefore, hbehind⟩ := hall.split (Nat.le_add_right first second)
  rw [Nat.add_sub_cancel_left] at hbehind
  have hbounds := hbefore.diagonal_bounds
  obtain ⟨x, hread, hfurthest, hnot⟩ :=
    hreaches (box.diagonalOf between) hbounds.1 hbounds.2.1 hbounds.2.2
  have hturned : Path (Turned same) box.turn.start second between.turn := hbehind.turn
  have hopposite : box.turn.diagonalOf between.turn = box.diagonalOf between - box.delta := by
    simp only [Box.diagonalOf, Point.turn, Box.turn, Box.delta, Box.width, Box.height]
    omega
  have hboundsTurned := hturned.diagonal_bounds
  rw [hopposite] at hboundsTurned
  obtain ⟨reached, hreached, hfurthestTurned⟩ := hother (box.diagonalOf between - box.delta)
    hboundsTurned.1 hboundsTurned.2.1 hboundsTurned.2.2
  have hx := hfurthest.le between hbefore (by simp)
  have hy := hfurthestTurned.le between.turn hturned (by simpa using hopposite)
  refine hnot rfl ⟨by simp only [Box.diagonalOf_pointOn]; omega, reached, by simpa, ?_⟩
  simp only [Box.pointOn, Point.turn, Box.diagonalOf] at hx hy ⊢
  omega

/-- What the search from one corner relies on when it checks whether it has met the other one. -/
structure Opposes (same : Point → Prop) (box : Box) (other : Frontier) (width : Int)
    (round : Nat) : Prop where
  reaches : ∀ second : Nat, width = second → other.Reaches (Turned same) box.turn second
  parity : (box.delta - (round + width)) % 2 = 0
  width_near : round - 1 ≤ width ∧ width ≤ round
  shortest : ∀ all, Path same box.start all box.stop → round + width ≤ all

/-- A round of one search finds a middle snake, or its furthest points and, if it is checked,
that no path through the box is as long as both searches together. -/
theorem search_round {same? : Point → Option Bool} (hdecides : Decides same? box same)
    (checked : Bool) {width : Int} {round : Nat}
    (hleft : box.left ≤ box.right) (htop : box.top ≤ box.bottom) (hsize : box.size ≠ 0)
    {frontier other : Frontier} (hwell : frontier.WellFormed) (hradius : round ≤ frontier.radius)
    (hready : frontier.Ready same box round)
    (hopposes : checked = true → Opposes same box other width round) :
    (∃ snake, search same? box other checked width round (round + 1) frontier =
        some (.met snake) ∧ snake.IsMiddle same box) ∨
      ∃ reached, search same? box other checked width round (round + 1) frontier =
        some (.reached reached) ∧ reached.WellFormed ∧ reached.radius = frontier.radius ∧
        reached.Ready same box (round + 1) ∧ (checked = true →
          ∀ all : Nat, Path same box.start all box.stop → (all : Int) ≠ round + width) := by
  have hother : checked = true → ∀ diagonal : Int, (diagonal - round) % 2 = 0 →
      -width ≤ diagonal - box.delta → diagonal - box.delta ≤ width →
      ∃ reached, other.read? (diagonal - box.delta) = some reached := by
    intro hchecked diagonal hparity hlow hhigh
    have := (hopposes hchecked).parity
    obtain ⟨reached, hreached, -⟩ := (hopposes hchecked).reaches width.toNat (by omega)
      (diagonal - box.delta) (by omega) (by omega) (by omega)
    exact ⟨reached, hreached⟩
  obtain ⟨result, hresult, hspec⟩ := search_spec hdecides hother (round + 1) (Nat.le_refl _)
    frontier hwell hradius hready (fun diagonal hlow hhigh => by omega)
  cases hspec with
  | @met snake hchecked hends hfurthest hovertakes =>
    have hopposed := hopposes hchecked
    have hparity := hopposed.parity
    have hwidth : width = width.toNat := by
      have := hovertakes.1
      omega
    refine .inl ⟨snake, hresult, hovertakes.isMiddle hdecides.holds hleft htop hsize hwidth
      (hopposed.reaches _ hwidth) (by omega) hends hfurthest ?_ ?_⟩
    · intro hround
      have := hopposed.width_near
      omega
    · intro all hall
      have := hopposed.shortest all hall
      omega
  | @reached reached hwellReached hradiusReached hreaches =>
    refine .inr ⟨reached, hresult, hwellReached, hradiusReached, ⟨by omega, ?_⟩, ?_⟩
    · rintro earlier hround diagonal hlow hhigh hparity
      obtain rfl : round = earlier := by omega
      obtain ⟨x, hread, hfurthest, -⟩ := hreaches diagonal hlow hhigh hparity
      exact ⟨x, hread, hfurthest⟩
    · intro hchecked all hall heq
      have hopposed := hopposes hchecked
      have hwidth : width = width.toNat := by
        have := hopposed.width_near
        omega
      rw [hchecked] at hreaches
      have := hreaches.ne hwidth (hopposed.reaches _ hwidth) hall
      omega

end Meeting

/-! ## All rounds -/

/-- Lines that are equal lead on a diagonal. -/
def SameLines (old new : Array Bytes) (point : Point) : Prop :=
  ∃ line, lineAt? old point.x = some line ∧ lineAt? new point.y = some line

/-- The box lies inside the grid. -/
structure Box.Within (box : Box) (old new : Array Bytes) : Prop where
  zero_le_left : 0 ≤ box.left
  zero_le_top : 0 ≤ box.top
  left_le_right : box.left ≤ box.right
  top_le_bottom : box.top ≤ box.bottom
  right_le_size : box.right ≤ old.size
  bottom_le_size : box.bottom ≤ new.size

section Rounds

variable {old new : Array Bytes} {box : Box}

theorem exists_lineAt? (lines : Array Bytes) (position : Int) (hlow : 0 ≤ position)
    (hhigh : position < lines.size) : ∃ line, lineAt? lines position = some line := by
  have hbound : position.toNat < lines.size := by omega
  refine ⟨lines[position.toNat], ?_⟩
  rw [lineAt?, if_neg (by omega), Array.getElem?_eq_getElem]

/-- The rule for the search in a box: equal lines, both of them in the box. -/
def SameInside (old new : Array Bytes) (box : Box) (point : Point) : Prop :=
  box.Holds point ∧ SameLines old new point

theorem decides_equal? (hbox : box.Within old new) :
    Decides (equal? old new box) box (SameInside old new box) where
  holds _ hsame := hsame.1
  answer point hholds := by
    obtain ⟨oldLine, hold⟩ := exists_lineAt? old point.x
      (Int.le_trans hbox.zero_le_left hholds.1.1)
      (Int.lt_of_lt_of_le hholds.1.2 hbox.right_le_size)
    obtain ⟨newLine, hnew⟩ := exists_lineAt? new point.y
      (Int.le_trans hbox.zero_le_top hholds.2.1)
      (Int.lt_of_lt_of_le hholds.2.2 hbox.bottom_le_size)
    refine ⟨oldLine == newLine, ?_, ?_⟩
    · rw [equal?, if_pos hholds, hold, hnew]
      rfl
    · constructor
      · intro heq
        exact ⟨hholds, oldLine, hold, (beq_iff_eq.mp heq) ▸ hnew⟩
      · rintro ⟨-, line, hline, hline'⟩
        rw [hold, Option.some.injEq] at hline
        rw [hnew, Option.some.injEq] at hline'
        rw [hline, hline', beq_self_eq_true]

theorem Box.holds_turn_iff (point : Point) :
    box.turn.Holds point ↔ box.Holds point.next.turn := by
  simp only [Holds, turn, Point.next, Point.turn]
  omega

theorem Decides.turn {same? : Point → Option Bool} {same : Point → Prop}
    (hdecides : Decides same? box same) :
    Decides (fun point => same? point.next.turn) box.turn (Turned same) where
  holds point hsame := (Box.holds_turn_iff point).mpr (hdecides.holds _ hsame)
  answer point hholds := hdecides.answer _ ((Box.holds_turn_iff point).mp hholds)

theorem decides_equalTurned? (hbox : box.Within old new) :
    Decides (equalTurned? old new box) box.turn (Turned (SameInside old new box)) :=
  (decides_equal? hbox).turn

/-- Between two rounds both frontiers hold what the next round reads, and no path through the
box is short enough to have been met. -/
structure Searched (same : Point → Prop) (box : Box) (radius round : Nat)
    (downward upward : Frontier) : Prop where
  downward_wellFormed : downward.WellFormed
  upward_wellFormed : upward.WellFormed
  downward_radius : downward.radius = radius
  upward_radius : upward.radius = radius
  downward_ready : downward.Ready same box round
  upward_ready : upward.Ready (Turned same) box.turn round
  shortest : ∀ all, Path same box.start all box.stop → 2 * round ≤ all + 1

theorem Searched.delta_parity {same : Point → Prop} {all : Nat}
    (hall : Path same box.start all box.stop) : (box.delta - all) % 2 = 0 := by
  have := hall.diagonal_bounds
  simp only [Box.diagonalOf, Box.stop, Box.delta, Box.width, Box.height] at this ⊢
  omega

theorem Searched.opposes_downward {same : Point → Prop} {radius round : Nat}
    {downward upward : Frontier} (hsearched : Searched same box radius round downward upward)
    (hodd : box.delta % 2 ≠ 0) : Opposes same box upward (round - 1) round where
  reaches second hsecond := hsearched.upward_ready.reaches second (by omega)
  parity := by omega
  width_near := by omega
  shortest all hall := by
    have := hsearched.shortest all hall
    omega

theorem Searched.opposes_upward {same : Point → Prop} {radius round : Nat}
    {downward upward reached : Frontier}
    (hsearched : Searched same box radius round downward upward)
    (hready : reached.Ready same box (round + 1)) (heven : box.delta % 2 = 0) :
    Opposes (Turned same) box.turn reached round round where
  reaches second hsecond := by
    rw [turned_turned, Box.turn_turn]
    exact hready.reaches second (by omega)
  parity := by
    simp only [Box.delta, Box.width, Box.height, Box.turn] at heven ⊢
    omega
  width_near := by omega
  shortest all hall := by
    have hpath := Path.turn_box_iff.mp hall
    have := hsearched.shortest all hpath
    have := delta_parity hpath
    omega

/-- The induction is on the rounds left.  The last of them is never begun: deleting and
inserting everything is a path that would have been met. -/
theorem searchRounds_spec (hbox : box.Within old new) (hsize : box.size ≠ 0) (radius : Nat)
    (hradius : box.size + 1 < 2 * radius) (rounds round : Nat)
    (hrounds : round + rounds = radius) (downward upward : Frontier)
    (hsearched : Searched (SameInside old new box) box radius round downward upward) :
    ∃ snake, searchRounds old new box round rounds downward upward = some snake ∧
      snake.IsMiddle (SameInside old new box) box := by
  induction rounds generalizing round downward upward with
  | zero =>
    have hlongest : Path (SameInside old new box) box.start _ box.stop :=
      Path.ofChanges box.stop hbox.left_le_right hbox.top_le_bottom
    have := hsearched.shortest _ hlongest
    simp only [Box.size, Box.width, Box.height, Box.start, Box.stop] at hradius this
    omega
  | succ rounds ih =>
    have hroundDown := hsearched.downward_radius ▸ (by omega : round ≤ radius)
    have hroundUp := hsearched.upward_radius ▸ (by omega : round ≤ radius)
    rw [searchRounds]
    obtain ⟨snake, hsnake, hmiddle⟩ | ⟨lower, hlower, hwellLower, hradiusLower, hreadyLower,
        hneLower⟩ := search_round (decides_equal? hbox) (decide (box.delta % 2 ≠ 0))
      hbox.left_le_right hbox.top_le_bottom hsize hsearched.downward_wellFormed hroundDown
      hsearched.downward_ready
      (fun hodd => hsearched.opposes_downward (of_decide_eq_true hodd))
    · exact ⟨snake, by simp only [hsnake, Option.bind_eq_bind, Option.bind_some], hmiddle⟩
    have hsizeTurned : box.turn.size ≠ 0 := by
      simp only [Box.size, Box.width, Box.height, Box.turn] at hsize ⊢
      omega
    obtain ⟨snake, hsnake, hmiddle⟩ | ⟨upper, hupper, hwellUpper, hradiusUpper, hreadyUpper,
        hneUpper⟩ := search_round (decides_equalTurned? hbox)
      (!decide (box.delta % 2 ≠ 0)) (Int.neg_le_neg hbox.top_le_bottom)
      (Int.neg_le_neg hbox.left_le_right) hsizeTurned hsearched.upward_wellFormed hroundUp
      hsearched.upward_ready
      (fun heven => hsearched.opposes_upward hreadyLower (by simpa using heven))
    · exact ⟨snake.turn, by simp only [hlower, hsnake, Option.bind_eq_bind, Option.bind_some],
        hmiddle.turn⟩
    simp only [hlower, hupper, Option.bind_eq_bind, Option.bind_some]
    refine ih (round + 1) (by omega) lower upper ⟨hwellLower, hwellUpper,
      hradiusLower.trans hsearched.downward_radius, hradiusUpper.trans hsearched.upward_radius,
      hreadyLower, hreadyUpper, fun all hall => ?_⟩
    have hbound := hsearched.shortest all hall
    have hparity := Searched.delta_parity hall
    by_cases hodd : box.delta % 2 = 0
    · have := hneUpper (by simpa using hodd) all (Path.turn_box_iff.mpr hall)
      omega
    · have := hneLower (by simpa using hodd) all hall
      omega

/-- The search always finds a snake, and it lies on a shortest path through the box. -/
theorem middleSnake_spec (hbox : box.Within old new) (hsize : box.size ≠ 0) :
    ∃ snake, middleSnake old new box = some snake ∧
      snake.IsMiddle (SameInside old new box) box := by
  have hwell := Frontier.wellFormed_ofRadius (1 + (box.size - 1) / 2 + 1)
  obtain ⟨downward, hdownward, hwellDown, hradiusDown, hreadDown, -⟩ :=
    Frontier.exists_write? hwell 1 (by simp only [Frontier.ofRadius]; omega)
      (by simp only [Frontier.ofRadius]; omega) box.left
  obtain ⟨upward, hupward, hwellUp, hradiusUp, hreadUp, -⟩ :=
    Frontier.exists_write? hwell 1 (by simp only [Frontier.ofRadius]; omega)
      (by simp only [Frontier.ofRadius]; omega) box.turn.left
  simp only [middleSnake, if_neg hsize, hdownward, hupward, Option.bind_eq_bind,
    Option.bind_some]
  refine searchRounds_spec hbox hsize (1 + (box.size - 1) / 2 + 1) (by omega) _ 0
    (by omega) downward upward ?_
  exact ⟨hwellDown, hwellUp, hradiusDown, hradiusUp, ⟨fun _ => hreadDown, by omega⟩,
    ⟨fun _ => hreadUp, by omega⟩, by omega⟩

end Rounds

end Diff

end Patchwork
