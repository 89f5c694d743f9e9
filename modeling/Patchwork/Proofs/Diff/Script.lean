import Mathlib.Data.List.Chain
import Patchwork.Proofs.Diff.TurningPoints

/-!
# Edit scripts are complete alignments

A script accounts for every line of both sides in order, keeps only equal lines, and in every
run of changes puts the deletions first.  Main statements: `Traces`, which follows edits through
the grid, `script_traces` and `script_isScript`.
-/

namespace Patchwork

namespace Diff

/-! ## Following edits through the grid -/

/-- The edits lead from one point of the grid to another. -/
inductive Traces (old new : Array Bytes) : Point → List Edit → Point → Prop
  | nil (point : Point) : Traces old new point [] point
  | keep {start stop : Point} {edits : List Edit} :
      SameLines old new start → Traces old new start.next edits stop →
      Traces old new start (.keep start.x.toNat start.y.toNat :: edits) stop
  | delete {start stop : Point} {edits : List Edit} :
      Traces old new ⟨start.x + 1, start.y⟩ edits stop →
      Traces old new start (.delete start.x.toNat :: edits) stop
  | insert {start stop : Point} {edits : List Edit} :
      Traces old new ⟨start.x, start.y + 1⟩ edits stop →
      Traces old new start (.insert start.y.toNat :: edits) stop

namespace Edit

/-- How many changes there are among some edits. -/
def changeCount (edits : List Edit) : Nat :=
  edits.countP isChange

@[simp]
theorem changeCount_append (first second : List Edit) :
    changeCount (first ++ second) = changeCount first + changeCount second :=
  List.countP_append

@[simp]
theorem changeCount_nil : changeCount [] = 0 := rfl

@[simp]
theorem changeCount_keep (oldIndex newIndex : Nat) (edits : List Edit) :
    changeCount (keep oldIndex newIndex :: edits) = changeCount edits :=
  List.countP_cons_of_neg (by simp [isChange])

@[simp]
theorem changeCount_delete (oldIndex : Nat) (edits : List Edit) :
    changeCount (delete oldIndex :: edits) = changeCount edits + 1 :=
  List.countP_cons_of_pos rfl

@[simp]
theorem changeCount_insert (newIndex : Nat) (edits : List Edit) :
    changeCount (insert newIndex :: edits) = changeCount edits + 1 :=
  List.countP_cons_of_pos rfl

end Edit

/-! ## Putting deletions first -/

namespace Edit

/-- An insertion is not followed by a deletion. -/
def InOrder (first second : Edit) : Prop :=
  ∀ newIndex oldIndex, ¬ (first = insert newIndex ∧ second = delete oldIndex)

theorem deletionsFirst_perm (waiting edits : List Edit) :
    (deletionsFirst waiting edits).Perm (waiting ++ edits) := by
  fun_induction deletionsFirst waiting edits with
  | case1 waiting => simp
  | case2 waiting oldIndex newIndex rest ih => exact (ih.cons _).append_left waiting
  | case3 waiting oldIndex rest ih => exact (ih.cons _).trans List.perm_middle.symm
  | case4 waiting newIndex rest ih => simpa using ih

theorem filterMap_oldIndex?_inserts (inserted : List Nat) :
    (inserted.map insert).filterMap oldIndex? = [] := by
  induction inserted with
  | nil => rfl
  | cons index inserted ih => simp [oldIndex?]

theorem isChain_inserts (inserted : List Nat) : (inserted.map insert).IsChain InOrder := by
  rw [List.isChain_map]
  refine (List.pairwise_of_forall fun first second newIndex oldIndex horder => ?_).isChain
  cases horder.2

/-- Only insertions are moved, and they keep their order. -/
theorem deletionsFirst_spec (inserted : List Nat) (edits : List Edit) :
    (deletionsFirst (inserted.map insert) edits).filterMap oldIndex? =
        edits.filterMap oldIndex? ∧
      (deletionsFirst (inserted.map insert) edits).filterMap newIndex? =
        (inserted.map insert ++ edits).filterMap newIndex? ∧
      (deletionsFirst (inserted.map insert) edits).IsChain InOrder := by
  induction edits generalizing inserted with
  | nil =>
    refine ⟨filterMap_oldIndex?_inserts inserted, ?_, isChain_inserts inserted⟩
    rw [List.append_nil]
    rfl
  | cons edit edits ih =>
    cases edit with
    | keep oldIndex newIndex =>
      obtain ⟨hold, hnew, hchain⟩ := ih []
      simp only [List.map_nil, List.nil_append] at hold hnew hchain
      rw [deletionsFirst]
      refine ⟨?_, ?_, ?_⟩
      · rw [List.filterMap_append, filterMap_oldIndex?_inserts, List.nil_append,
          List.filterMap_cons, List.filterMap_cons, hold]
      · rw [List.filterMap_append, List.filterMap_append, List.filterMap_cons,
          List.filterMap_cons, hnew]
      · rw [List.isChain_append]
        refine ⟨isChain_inserts inserted, ?_, ?_⟩
        · rw [List.isChain_cons]
          refine ⟨fun _ _ _ _ horder => ?_, hchain⟩
          cases horder.1
        · intro _ _ second hsecond _ _ horder
          obtain rfl : Edit.keep oldIndex newIndex = second := by simpa using hsecond
          cases horder.2
    | delete oldIndex =>
      obtain ⟨hold, hnew, hchain⟩ := ih inserted
      rw [deletionsFirst]
      refine ⟨?_, ?_, ?_⟩
      · rw [List.filterMap_cons, List.filterMap_cons, hold]
      · rw [List.filterMap_append] at hnew
        rw [List.filterMap_cons_none rfl, hnew, List.filterMap_append,
          List.filterMap_cons_none rfl]
      · rw [List.isChain_cons]
        refine ⟨fun _ _ _ _ horder => ?_, hchain⟩
        cases horder.1
    | insert newIndex =>
      obtain ⟨hold, hnew, hchain⟩ := ih (inserted ++ [newIndex])
      rw [List.map_append, List.map_singleton] at hold hnew hchain
      rw [deletionsFirst]
      refine ⟨?_, ?_, hchain⟩
      · rw [hold, List.filterMap_cons_none rfl]
      · rw [hnew, List.append_assoc]
        rfl

/-- Behind an insertion, a run of changes has only insertions. -/
theorem exists_inserts {newIndex : Nat} {run : List Edit}
    (hchain : (insert newIndex :: run).IsChain InOrder)
    (hchanges : ∀ edit ∈ run, edit.isChange) :
    ∃ inserted : List Nat, run = inserted.map insert := by
  induction run generalizing newIndex with
  | nil => exact ⟨[], rfl⟩
  | cons edit run ih =>
    rw [List.isChain_cons_cons] at hchain
    cases edit with
    | keep => simp [isChange] at hchanges
    | delete oldIndex => exact absurd ⟨rfl, rfl⟩ (hchain.1 newIndex oldIndex)
    | insert index =>
      obtain ⟨inserted, rfl⟩ := ih hchain.2 fun edit hedit =>
        hchanges edit (List.mem_cons_of_mem _ hedit)
      exact ⟨index :: inserted, rfl⟩

theorem exists_deletes_inserts {run : List Edit} (hchain : run.IsChain InOrder)
    (hchanges : ∀ edit ∈ run, edit.isChange) :
    ∃ deleted inserted : List Nat, run = deleted.map delete ++ inserted.map insert := by
  induction run with
  | nil => exact ⟨[], [], rfl⟩
  | cons edit run ih =>
    have hrest : ∀ edit ∈ run, edit.isChange := fun edit hedit =>
      hchanges edit (List.mem_cons_of_mem _ hedit)
    cases edit with
    | keep => simp [isChange] at hchanges
    | delete oldIndex =>
      obtain ⟨deleted, inserted, rfl⟩ := ih (List.isChain_cons.mp hchain).2 hrest
      exact ⟨oldIndex :: deleted, inserted, rfl⟩
    | insert newIndex =>
      obtain ⟨inserted, rfl⟩ := exists_inserts hchain hrest
      exact ⟨[], newIndex :: inserted, rfl⟩

end Edit

namespace Traces

variable {old new : Array Bytes} {start between stop : Point} {edits further : List Edit}

theorem append (hfirst : Traces old new start edits between)
    (hsecond : Traces old new between further stop) :
    Traces old new start (edits ++ further) stop := by
  induction hfirst with
  | nil => exact hsecond
  | keep hsame _ ih => exact .keep hsame (ih hsecond)
  | delete _ ih => exact .delete (ih hsecond)
  | insert _ ih => exact .insert (ih hsecond)

/-- Edits that lead from one point to another follow a path with as many changes. -/
theorem path (htraces : Traces old new start edits stop) :
    Path (SameLines old new) start (Edit.changeCount edits) stop := by
  induction htraces with
  | nil => exact .refl
  | keep hsame _ ih =>
    rw [Edit.changeCount_keep]
    simpa using (Path.refl.keep hsame).trans ih
  | delete _ ih =>
    rw [Edit.changeCount_delete, Nat.add_comm]
    exact Path.refl.delete.trans ih
  | insert _ ih =>
    rw [Edit.changeCount_insert, Nat.add_comm]
    exact Path.refl.insert.trans ih

end Traces

/-! ## Legs -/

section Legs

variable {old new : Array Bytes} {start target stop : Point}

/-- No equal lines lead on from a point toward a target. -/
def Blocked (old new : Array Bytes) (target point : Point) : Prop :=
  ¬ (point.x < target.x ∧ point.y < target.y ∧ SameLines old new point)

/-- Keeping equal lines as long as possible ends on the diagonal of the point, at the target's
row or column or at lines that differ. -/
theorem keepEqual_spec (old new : Array Bytes) (htarget : target.x ≤ old.size) (steps : Nat)
    (point : Point) (hx : 0 ≤ point.x) (hy : 0 ≤ point.y)
    (hle : point.x ≤ target.x ∧ point.y ≤ target.y) (hsteps : target.x - point.x ≤ steps) :
    ∃ edits stop, keepEqual old new target steps point = (edits, stop) ∧
      Traces old new point edits stop ∧ Edit.changeCount edits = 0 ∧
      stop.x ≤ target.x ∧ stop.y ≤ target.y ∧ Blocked old new target stop := by
  induction steps generalizing point with
  | zero =>
    refine ⟨[], point, rfl, .nil point, rfl, hle.1, hle.2, fun hinside => ?_⟩
    omega
  | succ steps ih =>
    rw [keepEqual]
    by_cases hequal : point.x < target.x ∧ point.y < target.y ∧
        lineAt? old point.x = lineAt? new point.y
    · obtain ⟨hltX, hltY, hlines⟩ := hequal
      obtain ⟨line, hline⟩ := exists_lineAt? old point.x hx (by omega)
      have hsame : SameLines old new point := ⟨line, hline, hlines ▸ hline⟩
      obtain ⟨edits, stop, hkept, htraces, hcount, hstop⟩ := ih point.next
        (by simp only [Point.next]; omega) (by simp only [Point.next]; omega)
        (by simp only [Point.next]; omega) (by simp only [Point.next]; omega)
      refine ⟨_, stop, ?_, .keep hsame htraces, ?_, hstop⟩
      · rw [if_pos ⟨hltX, hltY, hlines⟩]
        simp only [Point.next] at hkept
        rw [hkept]
      · rw [Edit.changeCount_keep, hcount]
    · rw [if_neg hequal]
      refine ⟨[], point, rfl, .nil point, rfl, hle.1, hle.2, fun hinside => hequal ?_⟩
      obtain ⟨hltX, hltY, line, hold, hnew⟩ := hinside
      exact ⟨hltX, hltY, hold.trans hnew.symm⟩

/-- Equal lines kept on the way to a point do not lengthen a path of one change at most. -/
theorem Path.of_kept {edits : List Edit} {between : Point} {change : Nat}
    (hpath : Path (SameLines old new) start change stop) (hchange : change ≤ 1)
    (htraces : Traces old new start edits between) (hcount : Edit.changeCount edits = 0)
    (hx : between.x ≤ stop.x) (hy : between.y ≤ stop.y) :
    Path (SameLines old new) between change stop := by
  have hkept := htraces.path
  rw [hcount] at hkept
  obtain ⟨deleted, inserted, hzero, hdiagonal⟩ := hkept.exists_deleted_inserted
  obtain ⟨fewer, hfewer, hmoved⟩ :=
    hpath.beginAt between (by omega) hkept.start_le_stop.1 hx hy
  -- both paths lead from the same diagonal to the same one, so they differ by an even number
  obtain ⟨deletedAll, insertedAll, hall, hdiagonalAll⟩ := hpath.exists_deleted_inserted
  obtain ⟨deletedMoved, insertedMoved, hmovedAll, hdiagonalMoved⟩ :=
    hmoved.exists_deleted_inserted
  obtain rfl : fewer = change := by omega
  exact hmoved

/-- Behind a blocked point, a path of one change begins with it, on the side that the target's
diagonal lies on. -/
theorem Path.change_of_blocked {change : Nat}
    (hpath : Path (SameLines old new) start change stop) (hchange : change ≤ 1)
    (hblocked : Blocked old new stop start) :
    (change = 0 ∧ start = stop) ∨
      (change = 1 ∧ stop.y - start.y < stop.x - start.x ∧
        Path (SameLines old new) ⟨start.x + 1, start.y⟩ 0 stop) ∨
      (change = 1 ∧ stop.x - start.x < stop.y - start.y ∧
        Path (SameLines old new) ⟨start.x, start.y + 1⟩ 0 stop) := by
  cases hpath.begins with
  | arrived => exact .inl ⟨rfl, rfl⟩
  | keep hsame hrest =>
    have hle := hrest.start_le_stop
    simp only [Point.next] at hle
    exact absurd ⟨by omega, by omega, hsame⟩ hblocked
  | @delete fewer _ hrest =>
    obtain rfl : fewer = 0 := by omega
    obtain ⟨deleted, inserted, hzero, hdiagonal⟩ := hrest.exists_deleted_inserted
    simp only [] at hdiagonal
    exact .inr (.inl ⟨rfl, by omega, hrest⟩)
  | @insert fewer _ hrest =>
    obtain rfl : fewer = 0 := by omega
    obtain ⟨deleted, inserted, hzero, hdiagonal⟩ := hrest.exists_deleted_inserted
    simp only [] at hdiagonal
    exact .inr (.inr ⟨rfl, by omega, hrest⟩)

/-- A path that is blocked at once and has no change is over. -/
theorem Path.eq_of_blocked (hpath : Path (SameLines old new) start 0 stop)
    (hblocked : Blocked old new stop start) : start = stop := by
  obtain ⟨-, heq⟩ | ⟨hone, -⟩ | ⟨hone, -⟩ := hpath.change_of_blocked (Nat.zero_le 1) hblocked
  · exact heq
  · cases hone
  · cases hone

/-- Keeping equal lines follows a path without changes to its end. -/
theorem keepEqual_of_path (hpath : Path (SameLines old new) start 0 stop)
    (hx : 0 ≤ start.x) (hy : 0 ≤ start.y) (hstop : stop.x ≤ old.size) :
    Traces old new start (keepEqual old new stop (stop.x - start.x).toNat start).1 stop ∧
      Edit.changeCount (keepEqual old new stop (stop.x - start.x).toNat start).1 = 0 := by
  obtain ⟨edits, reached, hkept, htraces, hcount, hleX, hleY, hblocked⟩ :=
    keepEqual_spec old new hstop (stop.x - start.x).toNat start hx hy hpath.start_le_stop (by omega)
  have hrest := hpath.of_kept (Nat.zero_le 1) htraces hcount hleX hleY
  rw [hkept]
  exact ⟨hrest.eq_of_blocked hblocked ▸ htraces, hcount⟩

/-- The edits of a leg follow any path of one change at most between its ends. -/
theorem leg_spec {change : Nat} (hpath : Path (SameLines old new) start change stop)
    (hchange : change ≤ 1) (hx : 0 ≤ start.x) (hy : 0 ≤ start.y)
    (hstop : stop.x ≤ old.size) :
    Traces old new start (leg old new start stop) stop ∧
      Edit.changeCount (leg old new start stop) = change := by
  obtain ⟨first, turn, hkept, htraces, hcount, hleX, hleY, hblocked⟩ :=
    keepEqual_spec old new hstop (stop.x - start.x).toNat start hx hy hpath.start_le_stop (by omega)
  have hturn := htraces.path.start_le_stop
  have hrest := hpath.of_kept hchange htraces hcount hleX hleY
  simp only [leg, hkept]
  obtain ⟨rfl, rfl⟩ | ⟨rfl, hlt, hrest⟩ | ⟨rfl, hlt, hrest⟩ :=
    hrest.change_of_blocked hchange hblocked
  · have hnone : Path (SameLines old new) turn 0 turn := .refl
    have hlast := keepEqual_of_path hnone (by omega) (by omega) hstop
    rw [if_neg (by omega), if_neg (by omega)]
    simp only [List.append_nil, Edit.changeCount_append, hcount, hlast.2]
    exact ⟨htraces.append hlast.1, trivial⟩
  · have hlast := keepEqual_of_path hrest (by simp only []; omega) (by simp only []; omega) hstop
    rw [if_neg (by omega), if_pos hlt]
    refine ⟨?_, by simp [hcount, hlast.2]⟩
    rw [List.append_assoc]
    exact htraces.append (.delete hlast.1)
  · have hlast := keepEqual_of_path hrest (by simp only []; omega) (by simp only []; omega) hstop
    rw [if_pos hlt]
    refine ⟨?_, by simp [hcount, hlast.2]⟩
    rw [List.append_assoc]
    exact htraces.append (.insert hlast.1)

/-- The edits along a route lead to its end with as many changes as the route has. -/
theorem walk_spec {changes : Nat} {points : List Point}
    (hroute : Route (SameLines old new) start changes points stop)
    (hx : 0 ≤ start.x) (hy : 0 ≤ start.y) (hstop : stop.x ≤ old.size) :
    Traces old new start (walk old new points) stop ∧
      Edit.changeCount (walk old new points) = changes := by
  induction hroute with
  | single point => exact ⟨.nil point, rfl⟩
  | @cons start next stop change changes points hleg hchange hrest ih =>
    obtain ⟨further, rfl⟩ := hrest.exists_eq_cons
    have hnext := hleg.start_le_stop
    have hend := hrest.path.start_le_stop
    obtain ⟨hfirst, hfirstCount⟩ := leg_spec hleg hchange hx hy (by omega)
    obtain ⟨hsecond, hsecondCount⟩ := ih (by omega) (by omega) hstop
    rw [walk]
    exact ⟨hfirst.append hsecond,
      by rw [Edit.changeCount_append, hfirstCount, hsecondCount]⟩

end Legs

/-! ## Boxes -/

section Boxes

variable {old new : Array Bytes}

theorem traces_deletions (old new : Array Bytes) (count : Nat) (x y : Int) (hx : 0 ≤ x) :
    Traces old new ⟨x, y⟩ ((List.range' x.toNat count).map Edit.delete) ⟨x + count, y⟩ ∧
      Edit.changeCount ((List.range' x.toNat count).map Edit.delete) = count := by
  induction count generalizing x with
  | zero => exact ⟨by simpa using Traces.nil _, rfl⟩
  | succ count ih =>
    obtain ⟨htraces, hcount⟩ := ih (x + 1) (by omega)
    have hnext : (x + 1).toNat = x.toNat + 1 := by omega
    have hstop : x + 1 + (count : Int) = x + (count + 1 : Nat) := by omega
    rw [hnext] at htraces hcount
    rw [hstop] at htraces
    rw [List.range'_succ, List.map_cons, Edit.changeCount_delete, hcount]
    exact ⟨Traces.delete htraces, rfl⟩

theorem traces_insertions (old new : Array Bytes) (count : Nat) (x y : Int) (hy : 0 ≤ y) :
    Traces old new ⟨x, y⟩ ((List.range' y.toNat count).map Edit.insert) ⟨x, y + count⟩ ∧
      Edit.changeCount ((List.range' y.toNat count).map Edit.insert) = count := by
  induction count generalizing y with
  | zero => exact ⟨by simpa using Traces.nil _, rfl⟩
  | succ count ih =>
    obtain ⟨htraces, hcount⟩ := ih (y + 1) (by omega)
    have hnext : (y + 1).toNat = y.toNat + 1 := by omega
    have hstop : y + 1 + (count : Int) = y + (count + 1 : Nat) := by omega
    rw [hnext] at htraces hcount
    rw [hstop] at htraces
    rw [List.range'_succ, List.map_cons, Edit.changeCount_insert, hcount]
    exact ⟨Traces.insert htraces, rfl⟩

/-- The edits of a box lead through it with as few changes as any path. -/
theorem boxScript_spec {box : Box} (hbox : box.Within old new) :
    Traces old new box.start (boxScript old new box) box.stop ∧
      ∀ all, Path (SameLines old new) box.start all box.stop →
        Edit.changeCount (boxScript old new box) ≤ all := by
  have hleft := hbox.left_le_right
  have htop := hbox.top_le_bottom
  rw [boxScript]
  by_cases hflat : box.width ≤ 0 ∨ box.height ≤ 0
  · rw [if_pos hflat]
    obtain ⟨hdeletions, hdeleted⟩ :=
      traces_deletions old new box.width.toNat box.left box.top hbox.zero_le_left
    obtain ⟨hinsertions, hinserted⟩ :=
      traces_insertions old new box.height.toNat (box.left + box.width.toNat) box.top
        hbox.zero_le_top
    have hstop : (⟨box.left + box.width.toNat, box.top + box.height.toNat⟩ : Point) =
        box.stop := by
      simp only [Box.stop, Box.width, Box.height, Point.mk.injEq]
      omega
    refine ⟨hstop ▸ hdeletions.append hinsertions, fun all hall => ?_⟩
    obtain ⟨deleted, inserted, hchanges, hdiagonal⟩ := hall.exists_deleted_inserted
    rw [Edit.changeCount_append, hdeleted, hinserted]
    simp only [Box.start, Box.stop, Box.width, Box.height] at hdiagonal hflat ⊢
    omega
  · rw [if_neg hflat]
    obtain ⟨points, hpoints, hnil, changes, hroute, hleast⟩ :=
      turningPoints_spec box.size hbox (Nat.le_refl _)
    have hnonempty : points ≠ [] := by
      intro heq
      have := hnil.mp heq
      simp only [Box.size, Box.width, Box.height] at this hflat
      omega
    rw [if_neg hnonempty] at hroute
    obtain ⟨htraces, hcount⟩ := walk_spec hroute hbox.zero_le_left hbox.zero_le_top
      hbox.right_le_size
    rw [hpoints, Option.getD_some, hcount]
    exact ⟨htraces, hleast⟩

end Boxes

/-! ## Scripts -/

/-- A complete alignment: the edits use up the lines of both sides in order, and keep only equal
lines. -/
structure IsScript (old new : List Bytes) (edits : List Edit) : Prop where
  oldIndices : edits.filterMap Edit.oldIndex? = List.range old.length
  newIndices : edits.filterMap Edit.newIndex? = List.range new.length
  equal : ∀ oldIndex newIndex, .keep oldIndex newIndex ∈ edits →
    ∃ line, old[oldIndex]? = some line ∧ new[newIndex]? = some line

/-- In every run of changes the deletions stand before the insertions. -/
def DeletionsFirst (edits : List Edit) : Prop :=
  ∀ run, run <:+: edits → (∀ edit ∈ run, edit.isChange) →
    ∃ deleted inserted : List Nat, run = deleted.map .delete ++ inserted.map .insert

section Script

variable {old new : List Bytes}

theorem sameLines_iff (x y : Nat) :
    SameLines old.toArray new.toArray ⟨x, y⟩ ↔
      ∃ line, old[x]? = some line ∧ new[y]? = some line := by
  simp [SameLines, lineAt?]

theorem commonStart_spec (old new : List Bytes) :
    commonStart old new ≤ old.length ∧ commonStart old new ≤ new.length ∧
      ∀ index < commonStart old new,
        ∃ line, old[index]? = some line ∧ new[index]? = some line := by
  fun_induction commonStart old new with
  | case1 old line new ih =>
    obtain ⟨hold, hnew, hlines⟩ := ih
    refine ⟨Nat.succ_le_succ hold, Nat.succ_le_succ hnew, ?_⟩
    intro index hindex
    cases index with
    | zero => exact ⟨line, rfl, rfl⟩
    | succ index =>
      simp only [List.getElem?_cons_succ]
      exact hlines index (Nat.lt_of_succ_lt_succ hindex)
  | case2 oldLine old newLine new hne => simp
  | case3 old new hempty => simp

/-- The common end of two lists is the common start of the lists reversed. -/
theorem commonStart_reverse_spec (old new : List Bytes) :
    ∀ index < commonStart old.reverse new.reverse, ∃ line,
      old[old.length - commonStart old.reverse new.reverse + index]? = some line ∧
      new[new.length - commonStart old.reverse new.reverse + index]? = some line := by
  intro index hindex
  obtain ⟨hold, hnew, hlines⟩ := commonStart_spec old.reverse new.reverse
  generalize hcount : commonStart old.reverse new.reverse = count at *
  rw [List.length_reverse] at hold hnew
  obtain ⟨line, holdLine, hnewLine⟩ := hlines (count - 1 - index) (by omega)
  refine ⟨line, ?_, ?_⟩
  · rw [List.getElem?_reverse (by omega)] at holdLine
    rwa [show old.length - count + index = old.length - 1 - (count - 1 - index) by omega]
  · rw [List.getElem?_reverse (by omega)] at hnewLine
    rwa [show new.length - count + index = new.length - 1 - (count - 1 - index) by omega]

theorem traces_kept (x y count : Nat)
    (hlines : ∀ index < count, ∃ line, old[x + index]? = some line ∧
      new[y + index]? = some line) :
    Traces old.toArray new.toArray ⟨x, y⟩
        ((List.range count).map fun index => .keep (x + index) (y + index))
        ⟨x + count, y + count⟩ ∧
      Edit.changeCount
        ((List.range count).map fun index => .keep (x + index) (y + index)) = 0 := by
  induction count with
  | zero => exact ⟨by simpa using Traces.nil _, rfl⟩
  | succ count ih =>
    obtain ⟨htraces, hcount⟩ := ih fun index hindex => hlines index (by omega)
    have hlast : Traces old.toArray new.toArray ⟨(x + count : Nat), (y + count : Nat)⟩
        [.keep (x + count) (y + count)] (Point.next ⟨(x + count : Nat), (y + count : Nat)⟩) :=
      .keep ((sameLines_iff _ _).mpr (hlines count (by omega))) (.nil _)
    rw [List.range_succ, List.map_append, Edit.changeCount_append, hcount]
    refine ⟨?_, rfl⟩
    have hall := htraces.append hlast
    simpa [Point.next, Int.add_assoc] using hall

/-- The edits before runs of changes are put in order lead through the whole grid with as few
changes as any path. -/
theorem script_traces (old new : List Bytes) :
    ∃ edits, script old new = Edit.deletionsFirst [] edits ∧
      Traces old.toArray new.toArray ⟨0, 0⟩ edits ⟨old.length, new.length⟩ ∧
      ∀ all, Path (SameLines old.toArray new.toArray) ⟨0, 0⟩ all ⟨old.length, new.length⟩ →
        Edit.changeCount edits ≤ all := by
  obtain ⟨hstartOld, hstartNew, hstartLines⟩ := commonStart_spec old new
  obtain ⟨hendOld, hendNew, -⟩ := commonStart_spec (old.drop (commonStart old new)).reverse
    (new.drop (commonStart old new)).reverse
  have hendLines := commonStart_reverse_spec (old.drop (commonStart old new))
    (new.drop (commonStart old new))
  refine ⟨_, rfl, ?_⟩
  generalize commonStart old new = start at *
  generalize hending : commonStart (old.drop start).reverse (new.drop start).reverse = ending at *
  simp only [List.length_reverse, List.length_drop, List.getElem?_drop] at hendOld hendNew hendLines
  obtain ⟨hfirst, hfirstCount⟩ := traces_kept 0 0 start (by simpa using hstartLines)
  obtain ⟨hlast, hlastCount⟩ :=
    traces_kept (old.length - ending) (new.length - ending) ending (by
      intro index hindex
      have hline := hendLines index hindex
      rwa [show start + (old.length - start - ending + index) = old.length - ending + index by
          omega,
        show start + (new.length - start - ending + index) = new.length - ending + index by
          omega] at hline)
  have hbox : Box.Within ⟨start, start, (old.length - ending : Nat), (new.length - ending : Nat)⟩
      old.toArray new.toArray :=
    ⟨by simp only []; omega, by simp only []; omega, by simp only []; omega,
      by simp only []; omega, by simp only [List.size_toArray]; omega,
      by simp only [List.size_toArray]; omega⟩
  obtain ⟨hmiddle, hleast⟩ := boxScript_spec hbox
  have hstop : (⟨(old.length - ending : Nat) + ending, (new.length - ending : Nat) + ending⟩ :
      Point) = ⟨old.length, new.length⟩ := by
    simp only [Point.mk.injEq]
    omega
  rw [hstop] at hlast
  simp only [Int.natCast_zero, Int.zero_add, Nat.zero_add] at hfirst hfirstCount
  refine ⟨(hfirst.append hmiddle).append hlast, fun all hall => ?_⟩
  rw [Edit.changeCount_append, Edit.changeCount_append, hfirstCount, hlastCount]
  -- the common lines at both ends are taken off a path without more changes
  obtain ⟨fewer, hfewer, hpath⟩ := hall.beginAt ⟨start, start⟩ (by simp only []; omega)
    (by simp only []; omega) (by simp only []; omega) (by simp only []; omega)
  obtain ⟨least, hless, hinner⟩ :=
    hpath.endAt ⟨(old.length - ending : Nat), (new.length - ending : Nat)⟩
      (by simp only []; omega) (by simp only []; omega) (by simp only []; omega)
      (by simp only []; omega)
  have hbound := hleast least hinner
  omega

theorem Traces.indices {old new : Array Bytes} {start stop : Point} {edits : List Edit}
    (htraces : Traces old new start edits stop) (hx : 0 ≤ start.x) (hy : 0 ≤ start.y) :
    edits.filterMap Edit.oldIndex? =
        List.range' start.x.toNat (stop.x.toNat - start.x.toNat) ∧
      edits.filterMap Edit.newIndex? =
        List.range' start.y.toNat (stop.y.toNat - start.y.toNat) := by
  induction htraces with
  | nil => simp
  | @keep start stop edits _ hrest ih =>
    have hle := hrest.path.start_le_stop
    simp only [Point.next] at hle ih
    obtain ⟨hold, hnew⟩ := ih (by omega) (by omega)
    have holdCount : stop.x.toNat - start.x.toNat = stop.x.toNat - (start.x + 1).toNat + 1 := by
      omega
    have hnewCount : stop.y.toNat - start.y.toNat = stop.y.toNat - (start.y + 1).toNat + 1 := by
      omega
    rw [holdCount, hnewCount, List.range'_succ, List.range'_succ, List.filterMap_cons,
      List.filterMap_cons, hold, hnew]
    exact ⟨by rw [Int.toNat_add hx (by decide)]; rfl, by rw [Int.toNat_add hy (by decide)]; rfl⟩
  | @delete start stop edits hrest ih =>
    have hle := hrest.path.start_le_stop
    simp only [] at hle ih
    obtain ⟨hold, hnew⟩ := ih (by omega) (by omega)
    have holdCount : stop.x.toNat - start.x.toNat = stop.x.toNat - (start.x + 1).toNat + 1 := by
      omega
    rw [holdCount, List.range'_succ, List.filterMap_cons, List.filterMap_cons, hold, hnew]
    exact ⟨by rw [Int.toNat_add hx (by decide)]; rfl, rfl⟩
  | @insert start stop edits hrest ih =>
    have hle := hrest.path.start_le_stop
    simp only [] at hle ih
    obtain ⟨hold, hnew⟩ := ih (by omega) (by omega)
    have hnewCount : stop.y.toNat - start.y.toNat = stop.y.toNat - (start.y + 1).toNat + 1 := by
      omega
    rw [hnewCount, List.range'_succ, List.filterMap_cons, List.filterMap_cons, hold, hnew]
    exact ⟨rfl, by rw [Int.toNat_add hy (by decide)]; rfl⟩

theorem Traces.equal {start stop : Point} {edits : List Edit}
    (htraces : Traces old.toArray new.toArray start edits stop) (hx : 0 ≤ start.x)
    (hy : 0 ≤ start.y) {oldIndex newIndex : Nat} (hkeep : .keep oldIndex newIndex ∈ edits) :
    ∃ line, old[oldIndex]? = some line ∧ new[newIndex]? = some line := by
  induction htraces with
  | nil => simp at hkeep
  | @keep start stop edits hsame _ ih =>
    rw [List.mem_cons] at hkeep
    rcases hkeep with heq | hkeep
    · obtain ⟨rfl, rfl⟩ : oldIndex = start.x.toNat ∧ newIndex = start.y.toNat := by
        simpa using heq
      rw [← sameLines_iff, Int.toNat_of_nonneg hx, Int.toNat_of_nonneg hy]
      exact hsame
    · exact ih (by simp only [Point.next]; omega) (by simp only [Point.next]; omega) hkeep
  | delete _ ih => exact ih (by simp only []; omega) hy (by simpa using hkeep)
  | insert _ ih => exact ih hx (by simp only []; omega) (by simpa using hkeep)

/-- A script is a complete alignment of the two sides. -/
theorem script_complete (old new : List Bytes) : IsScript old new (script old new) := by
  obtain ⟨edits, hscript, htraces, -⟩ := script_traces old new
  obtain ⟨hold, hnew, -⟩ := Edit.deletionsFirst_spec [] edits
  obtain ⟨hindicesOld, hindicesNew⟩ := htraces.indices (Int.le_refl 0) (Int.le_refl 0)
  rw [hscript]
  refine ⟨?_, ?_, ?_⟩
  · rw [List.map_nil] at hold
    rw [hold, hindicesOld, List.range_eq_range']
    rfl
  · rw [List.map_nil, List.nil_append] at hnew
    rw [hnew, hindicesNew, List.range_eq_range']
    rfl
  · intro oldIndex newIndex hkeep
    have hmem := (Edit.deletionsFirst_perm [] edits).mem_iff.mp hkeep
    exact htraces.equal (Int.le_refl 0) (Int.le_refl 0) (by simpa using hmem)

theorem script_deletionsFirst (old new : List Bytes) : DeletionsFirst (script old new) := by
  obtain ⟨edits, hscript, -⟩ := script_traces old new
  obtain ⟨-, -, hchain⟩ := Edit.deletionsFirst_spec [] edits
  rintro run ⟨before, behind, hsplit⟩ hchanges
  rw [List.map_nil, ← hscript, ← hsplit] at hchain
  exact Edit.exists_deletes_inserts hchain.left_of_append.right_of_append hchanges

/-- A script is a complete alignment of the two sides, with the deletions of every run of
changes before its insertions. -/
theorem script_isScript (old new : List Bytes) :
    IsScript old new (script old new) ∧ DeletionsFirst (script old new) :=
  ⟨script_complete old new, script_deletionsFirst old new⟩

end Script

end Diff

end Patchwork
