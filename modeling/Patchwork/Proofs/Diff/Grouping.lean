import Mathlib.Data.List.Pairwise
import Mathlib.Data.Nat.Init
import Patchwork.Proofs.Diff.Groups

/-!
# Groups with just their context

Two changes stand in one group exactly if no more than twice the context lies between them and
between the changes from one to the other, so a group has all the context that the script gives it
and no change of another group in it.  Main statement: `groups_framed`.
-/

namespace Patchwork

namespace Diff

/-! ## Changes that are linked -/

/-- Within a group every change has one behind it that is near. -/
def Links (context : Nat) (positions : List Nat) (groups : List Group) : Prop :=
  ∀ group ∈ groups, ∀ position ∈ positions, group.first ≤ position → position < group.last →
    ∃ next ∈ positions, position < next ∧ next ≤ position + 2 * context + 1

section Linking

variable {context position : Nat} {positions : List Nat} {groups : List Group} {group other : Group}

/-- A link holds as well when another position is gathered. -/
theorem Links.keep (hlinks : Links context positions groups) (hgroup : group ∈ groups) :
    ∀ earlier ∈ positions, group.first ≤ earlier → earlier < group.last →
      ∃ next ∈ positions ++ [position], earlier < next ∧ next ≤ earlier + 2 * context + 1 := by
  intro earlier hearlier hfirst hlast
  obtain ⟨next, hnext, hnear⟩ := hlinks group hgroup earlier hearlier hfirst hlast
  exact ⟨next, List.mem_append_left _ hnext, hnear⟩

theorem Links.addChange (hlinks : Links context positions groups)
    (hends : ∀ group ∈ groups, group.last ∈ positions)
    (hlatest : ∀ earlier ∈ positions, earlier < position) :
    Links context (positions ++ [position]) (Group.addChange context groups position) := by
  have hlast : position ∈ positions ++ [position] := List.mem_append_right _ List.mem_cons_self
  -- the groups that are not touched end before the new position
  have hkept : ∀ group ∈ groups, ∀ earlier ∈ positions ++ [position], group.first ≤ earlier →
      earlier < group.last →
      ∃ next ∈ positions ++ [position], earlier < next ∧ next ≤ earlier + 2 * context + 1 := by
    intro group hgroup earlier hearlier hfirst hbefore
    have hend := hlatest group.last (hends group hgroup)
    rcases List.mem_append.mp hearlier with hmem | hmem
    · exact hlinks.keep hgroup earlier hmem hfirst hbefore
    · rw [List.mem_singleton.mp hmem] at hbefore
      omega
  cases groups with
  | nil =>
    rw [Group.addChange, Links, List.forall_mem_singleton]
    intro earlier _ hfirst hbefore
    exact absurd hbefore (Nat.not_lt.mpr hfirst)
  | cons latest others =>
    rw [List.forall_mem_cons] at hkept
    rw [Group.addChange]
    split
    · rename_i hnear
      rw [Links, List.forall_mem_cons]
      refine ⟨fun earlier hearlier hfirst hbefore => ?_, hkept.2⟩
      by_cases hinside : earlier < latest.last
      · exact hkept.1 earlier hearlier hfirst hinside
      · exact ⟨position, hlast, hbefore, by omega⟩
    · rw [Links, List.forall_mem_cons, List.forall_mem_cons]
      refine ⟨fun earlier _ hfirst hbefore => ?_, hkept⟩
      exact absurd hbefore (Nat.not_lt.mpr hfirst)

/-- Gathering keeps the changes of a group linked. -/
theorem Links.foldl (further : List Nat) (hlinks : Links context positions groups)
    (hgathers : Gathers context positions groups)
    (hincreasing : (positions ++ further).Pairwise (· < ·)) :
    Links context (positions ++ further) (further.foldl (Group.addChange context) groups) := by
  induction further generalizing positions groups with
  | nil => rwa [List.append_nil]
  | cons position further ih =>
    rw [List.append_cons] at hincreasing ⊢
    have hbefore := (List.pairwise_append.mp hincreasing).1
    have hlatest : ∀ earlier ∈ positions, earlier < position := fun earlier hearlier =>
      (List.pairwise_append.mp hbefore).2.2 earlier hearlier position List.mem_cons_self
    exact ih (hlinks.addChange (fun group hgroup => (hgathers.ends group hgroup).2.2) hlatest)
      (hgathers.addChange hlatest) hincreasing

/-! ## Positions near a group -/

/-- One of the groups ends more than the gap before the other one begins. -/
def Group.Apart (gap : Nat) (first second : Group) : Prop :=
  first.last + gap < second.first ∨ second.last + gap < first.first

instance (gap : Nat) : Std.Symm (Group.Apart gap) :=
  ⟨fun _ _ => Or.symm⟩

theorem Gathers.apart_of_ne (hgathers : Gathers context positions groups) (hgroup : group ∈ groups)
    (hother : other ∈ groups) (hne : group ≠ other) : group.Apart (2 * context + 1) other := by
  have hpairs : groups.Pairwise (Group.Apart (2 * context + 1)) := hgathers.apart.imp .inr
  exact hpairs.forall hgroup hother hne

/-- A change that is not far behind a position of a group does not stand behind the group. -/
theorem Gathers.le_last (hgathers : Gathers context positions groups) (hgroup : group ∈ groups)
    {near : Nat} (hnear : near ∈ positions) (hfirst : group.first ≤ position)
    (hlast : position ≤ group.last) (hdistance : near ≤ position + 2 * context + 1) :
    near ≤ group.last := by
  obtain ⟨other, hother, hle, hge⟩ := hgathers.covers near hnear
  by_cases hsame : group = other
  · rwa [hsame]
  · rcases hgathers.apart_of_ne hgroup hother hsame with hapart | hapart
    all_goals omega

/-- The context of a group holds no change. -/
theorem Gathers.mem_of_widen (hgathers : Gathers context positions groups) (hgroup : group ∈ groups)
    {length : Nat} (hposition : position ∈ positions)
    (hfirst : (group.widen context length).first ≤ position)
    (hlast : position ≤ (group.widen context length).last) :
    group.first ≤ position ∧ position ≤ group.last := by
  simp only [Group.widen] at hfirst hlast
  obtain ⟨other, hother, hle, hge⟩ := hgathers.covers position hposition
  by_cases hsame : group = other
  · rw [hsame]
    exact ⟨hle, hge⟩
  · have hends := (hgathers.ends group hgroup).1
    rcases hgathers.apart_of_ne hgroup hother hsame with hapart | hapart
    all_goals omega

end Linking

/-! ## Changes and context of a script -/

/-- The script has a change at the position. -/
def ChangesAt (edits : List Edit) (position : Nat) : Prop :=
  ∃ edit, edits[position]? = some edit ∧ edit.isChange = true

/-- The script has an unchanged line at the position. -/
def KeepsAt (edits : List Edit) (position : Nat) : Prop :=
  ∃ edit, edits[position]? = some edit ∧ edit.isChange = false

/-- The script has changes from the first position to the last one. -/
def IsRun (edits : List Edit) (first last : Nat) : Prop :=
  first ≤ last ∧ ∀ position, first ≤ position → position ≤ last → ChangesAt edits position

/-- The group begins with as many unchanged lines as the context asks for and the script has before
the first change, and it ends with as many as there are behind the last change. -/
def Group.Framed (context : Nat) (edits : List Edit) (group : Group) : Prop :=
  ∃ opening closing, opening ≤ closing ∧ ChangesAt edits opening ∧ ChangesAt edits closing ∧
    group.first + min context opening = opening ∧
    group.last = closing + min context (edits.length - (closing + 1)) ∧
    (∀ position, group.first ≤ position → position < opening → KeepsAt edits position) ∧
    ∀ position, closing < position → position ≤ group.last → KeepsAt edits position

section Script

variable {context position first last : Nat} {edits : List Edit} {gathered : List Group}
  {group : Group}

theorem keepsAt_of_not_changesAt (hlt : position < edits.length)
    (hnot : ¬ ChangesAt edits position) : KeepsAt edits position := by
  refine ⟨edits[position], List.getElem?_eq_getElem hlt, ?_⟩
  rw [← Bool.not_eq_true]
  exact fun hchange => hnot ⟨_, List.getElem?_eq_getElem hlt, hchange⟩

theorem ChangesAt.lt_length (hchange : ChangesAt edits position) : position < edits.length := by
  obtain ⟨edit, hedit, -⟩ := hchange
  exact (List.getElem?_eq_some_iff.mp hedit).1

/-- The groups of a script are widened from ones that gather its changes and link them. -/
theorem exists_gathered (context : Nat) (edits : List Edit) :
    ∃ gathered, groups context edits = gathered.reverse.map (Group.widen context edits.length) ∧
      Gathers context (changePositions edits) gathered ∧
      Links context (changePositions edits) gathered := by
  have hincreasing := changePositions_pairwise_lt edits
  exact ⟨_, rfl, (gathers_nil context).foldl _ hincreasing,
    Links.foldl _ (List.forall_mem_nil _) (gathers_nil context) hincreasing⟩

theorem ShowChanges.apart_of_ne {groups : List Group} {other : Group}
    (hshow : ShowChanges edits groups) (hgroup : group ∈ groups) (hother : other ∈ groups)
    (hne : group ≠ other) : group.Apart 0 other := by
  have hpairs : groups.Pairwise (Group.Apart 0) := hshow.ordered.imp .inl
  exact hpairs.forall hgroup hother hne

variable (hgathers : Gathers context (changePositions edits) gathered)

include hgathers

theorem Gathers.framed (hgroup : group ∈ gathered) :
    (group.widen context edits.length).Framed context edits := by
  obtain ⟨hle, hfirst, hlast⟩ := hgathers.ends group hgroup
  have hopening : ChangesAt edits group.first := mem_changePositions.mp hfirst
  have hclosing : ChangesAt edits group.last := mem_changePositions.mp hlast
  have hlength := hclosing.lt_length
  -- a change in the context would be one of the group's own
  have hkept : ∀ position, (group.widen context edits.length).first ≤ position →
      position ≤ (group.widen context edits.length).last →
      ¬ (group.first ≤ position ∧ position ≤ group.last) → KeepsAt edits position := by
    intro position hge hle hout
    refine keepsAt_of_not_changesAt ?_ fun hchange =>
      hout (hgathers.mem_of_widen hgroup (mem_changePositions.mpr hchange) hge hle)
    simp only [Group.widen] at hle
    omega
  refine ⟨group.first, group.last, hle, hopening, hclosing, ?_, ?_, fun position hge hlt => ?_,
    fun position hlt hle => ?_⟩
  · simp only [Group.widen]
    omega
  · simp only [Group.widen]
    omega
  · refine hkept position hge ?_ fun hin => ?_
    · simp only [Group.widen]
      omega
    · omega
  · refine hkept position ?_ hle fun hin => ?_
    · simp only [Group.widen]
      omega
    · omega

/-- Right behind the context of a group, an unchanged line separates it from the next one. -/
theorem Gathers.exists_between {later : Group} (hgroup : group ∈ gathered) (hlater : later ∈ gathered)
    (hapart : group.last + 2 * context + 1 < later.first) :
    ∃ position, (group.widen context edits.length).last < position ∧
      position < (later.widen context edits.length).first ∧ KeepsAt edits position := by
  obtain ⟨hle, hfirst, -⟩ := hgathers.ends later hlater
  have hlength := ChangesAt.lt_length (mem_changePositions.mp hfirst)
  have hends := (hgathers.ends group hgroup).1
  refine ⟨group.last + context + 1, ?_, ?_, keepsAt_of_not_changesAt (by omega) fun hchange => ?_⟩
  · simp only [Group.widen]
    omega
  · simp only [Group.widen]
    omega
  · have hwithin := hgathers.le_last hgroup (mem_changePositions.mpr hchange) hends (Nat.le_refl _)
      (by omega)
    omega

/-- A group that has the first change of a run has the whole run. -/
theorem Gathers.run_le_last (hgroup : group ∈ gathered) (hrun : IsRun edits first last)
    (hfirst : group.first ≤ first) (hlast : first ≤ group.last) : last ≤ group.last := by
  obtain ⟨hle, hchanges⟩ := hrun
  induction last, hle using Nat.le_induction with
  | base => exact hlast
  | succ last hle ih =>
    have hbefore := ih fun position hge hle => hchanges position hge (Nat.le_succ_of_le hle)
    have hnext := mem_changePositions.mpr (hchanges (last + 1) (Nat.le_succ_of_le hle) (Nat.le_refl _))
    exact hgathers.le_last hgroup hnext (Nat.le_trans hfirst hle) hbefore (by omega)

/-- Two runs with nothing but unchanged lines between them are gathered in one group exactly if
these are no more than twice the context. -/
theorem Gathers.share_iff (hlinks : Links context (changePositions edits) gathered) {next final : Nat}
    (hrun : IsRun edits first last) (hnext : IsRun edits next final) (hlt : last < next)
    (hbetween : ∀ position, last < position → position < next → KeepsAt edits position) :
    (∃ group ∈ gathered, (group.widen context edits.length).first ≤ first ∧
        final ≤ (group.widen context edits.length).last) ↔
      next - (last + 1) ≤ 2 * context := by
  have hchange : ∀ {first last position}, IsRun edits first last → first ≤ position →
      position ≤ last → position ∈ changePositions edits := fun hrun hge hle =>
    mem_changePositions.mpr (hrun.2 _ hge hle)
  have hopens := hchange hrun (Nat.le_refl _) hrun.1
  have hlastMem := hchange hrun hrun.1 (Nat.le_refl _)
  have hnextMem := hchange hnext (Nat.le_refl _) hnext.1
  constructor
  · rintro ⟨group, hgroup, hfirst, hfinal⟩
    have hle := hrun.1
    have hle' := hnext.1
    have hlastIn := hgathers.mem_of_widen hgroup hlastMem (Nat.le_trans hfirst hle) (by omega)
    have hnextIn := hgathers.mem_of_widen hgroup hnextMem (by omega) (Nat.le_trans hle' hfinal)
    obtain ⟨linked, hlinked, hbehind, hnear⟩ :=
      hlinks group hgroup last hlastMem hlastIn.1 (by omega)
    -- no change comes before the next run
    have hnot : ¬ linked < next := by
      intro hinside
      obtain ⟨edit, hedit, hkept⟩ := hbetween linked hbehind hinside
      obtain ⟨other, hother, hchanged⟩ := mem_changePositions.mp hlinked
      obtain rfl := Option.some.inj (hedit.symm.trans hother)
      rw [hkept] at hchanged
      cases hchanged
    omega
  · intro hnear
    obtain ⟨group, hgroup, hfirst, hlast⟩ := hgathers.covers first hopens
    have hle := hrun.1
    have hlastIn := hgathers.run_le_last hgroup hrun hfirst hlast
    have hnextIn := hgathers.le_last hgroup hnextMem (Nat.le_trans hfirst hle) hlastIn (by omega)
    have hfinalIn := hgathers.run_le_last hgroup hnext (by omega) hnextIn
    have hclosing : ChangesAt edits final := hnext.2 final hnext.1 (Nat.le_refl _)
    have hlength := hclosing.lt_length
    refine ⟨group, hgroup, ?_, ?_⟩
    · simp only [Group.widen]
      omega
    · simp only [Group.widen]
      omega

end Script

/-- The groups of a script stand in order, with an unchanged line between any two; every change is
in exactly one of them; each has as much context around its changes as the script gives, and no
more than asked for; and two runs of changes with only unchanged lines between them are in one group
exactly if these are at most twice the context. -/
theorem groups_framed (context : Nat) (edits : List Edit) :
    (groups context edits).Pairwise (fun earlier later =>
      ∃ position, earlier.last < position ∧ position < later.first ∧ KeepsAt edits position) ∧
    (∀ position, ChangesAt edits position →
      ∃! group, group ∈ groups context edits ∧ group.first ≤ position ∧ position ≤ group.last) ∧
    (∀ group ∈ groups context edits, group.Framed context edits) ∧
    ∀ first last next final, IsRun edits first last → IsRun edits next final → last < next →
      (∀ position, last < position → position < next → KeepsAt edits position) →
      ((∃ group ∈ groups context edits, group.first ≤ first ∧ final ≤ group.last) ↔
        next - (last + 1) ≤ 2 * context) := by
  obtain ⟨gathered, hgroups, hgathers, hlinks⟩ := exists_gathered context edits
  have hseparate : (groups context edits).Pairwise fun earlier later =>
      ∃ position, earlier.last < position ∧ position < later.first ∧ KeepsAt edits position := by
    rw [hgroups, List.pairwise_map, List.pairwise_reverse]
    exact hgathers.apart.imp_of_mem fun hlater hearlier hapart =>
      hgathers.exists_between hearlier hlater hapart
  refine ⟨hseparate, fun position hchange => ?_, fun group hgroup => ?_, ?_⟩
  · obtain ⟨edit, hedit, hchanged⟩ := hchange
    obtain ⟨group, hgroup, hwithin⟩ :=
      (groups_showChanges context edits).shown position edit hedit hchanged
    refine ⟨group, ⟨hgroup, hwithin⟩, fun other hother => ?_⟩
    by_contra hne
    rcases (groups_showChanges context edits).apart_of_ne hother.1 hgroup hne with hapart | hapart
    all_goals omega
  · rw [hgroups] at hgroup
    obtain ⟨narrow, hnarrow, rfl⟩ := List.mem_map.mp hgroup
    exact hgathers.framed (List.mem_reverse.mp hnarrow)
  · intro first last next final hrun hnext hlt hbetween
    rw [← hgathers.share_iff hlinks hrun hnext hlt hbetween, hgroups]
    simp only [List.mem_map, List.mem_reverse, exists_exists_and_eq_and]

-- with one line of context, two unchanged lines are shared by the changes around them, three are not
example : groups 1 [.insert 0, .keep 0 1, .keep 1 2, .delete 2, .keep 3 3, .keep 4 4, .keep 5 5,
    .insert 6] = [⟨0, 4⟩, ⟨6, 7⟩] := by
  decide

end Diff

end Patchwork
