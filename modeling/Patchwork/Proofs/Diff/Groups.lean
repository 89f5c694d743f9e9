import Mathlib.Tactic.Common
import Patchwork.Diff.Hunks

/-!
# Groups show every change once

Changes join the latest group as long as they are near it, so groups stay far enough apart to
take in the unchanged lines around them without meeting.  Main statement: `groups_showChanges`.
-/

namespace Patchwork

namespace Diff

/-! ## Positions of changes -/

theorem mem_changePositions {edits : List Edit} {position : Nat} :
    position ∈ changePositions edits ↔
      ∃ edit, edits[position]? = some edit ∧ edit.isChange = true := by
  simp only [changePositions, List.mem_map, List.mem_filter, Prod.exists,
    List.mk_mem_zipIdx_iff_getElem?]
  constructor
  · rintro ⟨edit, _, ⟨hedit, hchange⟩, rfl⟩
    exact ⟨edit, hedit, hchange⟩
  · rintro ⟨edit, hedit, hchange⟩
    exact ⟨edit, position, ⟨hedit, hchange⟩, rfl⟩

theorem changePositions_pairwise_lt (edits : List Edit) :
    (changePositions edits).Pairwise (· < ·) := by
  have hpositions : (edits.zipIdx.map Prod.snd).Pairwise (· < ·) := by
    rw [List.zipIdx_map_snd]
    exact List.pairwise_lt_range'
  exact hpositions.sublist (List.filter_sublist.map Prod.snd)

/-! ## Gathering positions -/

/-- Groups, the latest first, that some positions are gathered in.  More than `2 * context`
other positions stand between two of them. -/
structure Gathers (context : Nat) (positions : List Nat) (groups : List Group) : Prop where
  apart : groups.Pairwise fun later earlier => earlier.last + 2 * context + 1 < later.first
  ends : ∀ group ∈ groups, group.first ≤ group.last ∧ group.first ∈ positions ∧
    group.last ∈ positions
  covers : ∀ position ∈ positions, ∃ group ∈ groups,
    group.first ≤ position ∧ position ≤ group.last

theorem gathers_nil (context : Nat) : Gathers context [] [] :=
  ⟨.nil, List.forall_mem_nil _, List.forall_mem_nil _⟩

section Gathering

variable {context position : Nat} {positions : List Nat} {groups : List Group}

/-- A position that joins the latest group moves its end. -/
theorem Gathers.extend {latest : Group} (hgathers : Gathers context positions (latest :: groups))
    (hlatest : ∀ earlier ∈ positions, earlier < position) :
    Gathers context (positions ++ [position]) (⟨latest.first, position⟩ :: groups) := by
  obtain ⟨hapart, hends, hcovers⟩ := hgathers
  rw [List.pairwise_cons] at hapart
  rw [List.forall_mem_cons] at hends
  obtain ⟨hfirst, hfirstMem, hlastMem⟩ := hends.1
  have hlt := hlatest latest.last hlastMem
  refine ⟨List.pairwise_cons.mpr ⟨hapart.1, hapart.2⟩, ?_, ?_⟩
  · rw [List.forall_mem_cons]
    refine ⟨⟨Nat.le_of_lt (Nat.lt_of_le_of_lt hfirst hlt),
      List.mem_append_left _ hfirstMem, List.mem_append_right _ List.mem_cons_self⟩, ?_⟩
    intro group hgroup
    obtain ⟨hle, hmemFirst, hmemLast⟩ := hends.2 group hgroup
    exact ⟨hle, List.mem_append_left _ hmemFirst, List.mem_append_left _ hmemLast⟩
  · intro shown hshown
    rw [List.mem_append, List.mem_singleton] at hshown
    rcases hshown with hshown | rfl
    · obtain ⟨group, hgroup, hle, hge⟩ := hcovers shown hshown
      rw [List.mem_cons] at hgroup
      rcases hgroup with rfl | hgroup
      · exact ⟨_, List.mem_cons_self, hle, Nat.le_of_lt (hlatest shown hshown)⟩
      · exact ⟨group, List.mem_cons_of_mem _ hgroup, hle, hge⟩
    · exact ⟨_, List.mem_cons_self, Nat.le_of_lt (Nat.lt_of_le_of_lt hfirst hlt), Nat.le_refl _⟩

/-- A position that is far from all groups begins one of its own. -/
theorem Gathers.begin (hgathers : Gathers context positions groups)
    (hfar : ∀ group ∈ groups, group.last + 2 * context + 1 < position) :
    Gathers context (positions ++ [position]) (⟨position, position⟩ :: groups) := by
  obtain ⟨hapart, hends, hcovers⟩ := hgathers
  have hlast : position ∈ positions ++ [position] :=
    List.mem_append_right _ List.mem_cons_self
  refine ⟨List.pairwise_cons.mpr ⟨hfar, hapart⟩, ?_, ?_⟩
  · rw [List.forall_mem_cons]
    refine ⟨⟨Nat.le_refl _, hlast, hlast⟩, fun group hgroup => ?_⟩
    obtain ⟨hle, hmemFirst, hmemLast⟩ := hends group hgroup
    exact ⟨hle, List.mem_append_left _ hmemFirst, List.mem_append_left _ hmemLast⟩
  · intro shown hshown
    rw [List.mem_append, List.mem_singleton] at hshown
    rcases hshown with hshown | rfl
    · obtain ⟨group, hgroup, hle, hge⟩ := hcovers shown hshown
      exact ⟨group, List.mem_cons_of_mem _ hgroup, hle, hge⟩
    · exact ⟨_, List.mem_cons_self, Nat.le_refl _, Nat.le_refl _⟩

theorem Gathers.addChange (hgathers : Gathers context positions groups)
    (hlatest : ∀ earlier ∈ positions, earlier < position) :
    Gathers context (positions ++ [position]) (Group.addChange context groups position) := by
  cases groups with
  | nil => exact hgathers.begin (List.forall_mem_nil _)
  | cons latest earlier =>
    rw [Group.addChange]
    by_cases hnear : position - latest.last ≤ 2 * context + 1
    · rw [if_pos hnear]
      exact hgathers.extend hlatest
    · rw [if_neg hnear]
      refine hgathers.begin ?_
      have hends := (List.forall_mem_cons.mp hgathers.ends).1
      have hapart := (List.pairwise_cons.mp hgathers.apart).1
      rw [List.forall_mem_cons]
      refine ⟨by omega, fun group hgroup => ?_⟩
      calc group.last + 2 * context + 1 < latest.first := hapart group hgroup
        _ ≤ latest.last := hends.1
        _ < position := hlatest latest.last hends.2.2

theorem Gathers.foldl (further : List Nat) (hgathers : Gathers context positions groups)
    (hincreasing : (positions ++ further).Pairwise (· < ·)) :
    Gathers context (positions ++ further) (further.foldl (Group.addChange context) groups) := by
  induction further generalizing positions groups with
  | nil => rwa [List.append_nil]
  | cons position further ih =>
    rw [List.append_cons] at hincreasing ⊢
    refine ih (hgathers.addChange fun earlier hearlier => ?_) hincreasing
    have hbefore := (List.pairwise_append.mp hincreasing).1
    exact (List.pairwise_append.mp hbefore).2.2 earlier hearlier position List.mem_cons_self

end Gathering

/-! ## Groups with their context -/

/-- Groups that stand in order in a script, without meeting, and have every change in one of
them. -/
structure ShowChanges (edits : List Edit) (groups : List Group) : Prop where
  ordered : groups.Pairwise fun earlier later => earlier.last < later.first
  within : ∀ group ∈ groups, group.first ≤ group.last ∧ group.last < edits.length
  shown : ∀ position edit, edits[position]? = some edit → edit.isChange = true →
    ∃ group ∈ groups, group.first ≤ position ∧ position ≤ group.last

theorem groups_showChanges (context : Nat) (edits : List Edit) :
    ShowChanges edits (groups context edits) := by
  obtain ⟨hapart, hends, hcovers⟩ :=
    (gathers_nil context).foldl (changePositions edits) (changePositions_pairwise_lt edits)
  rw [List.nil_append] at hends hcovers
  rw [groups]
  generalize (changePositions edits).foldl (Group.addChange context) [] = gathered at *
  -- both ends of a group are changes, so they stand in the script
  have hlength : ∀ position ∈ changePositions edits, position < edits.length := by
    intro position hposition
    obtain ⟨edit, hedit, -⟩ := mem_changePositions.mp hposition
    exact (List.getElem?_eq_some_iff.mp hedit).1
  refine ⟨?_, ?_, ?_⟩
  · rw [List.pairwise_map, List.pairwise_reverse]
    refine hapart.imp fun {later earlier} hfar => ?_
    simp only [Group.widen]
    omega
  · intro group hgroup
    rw [List.mem_map] at hgroup
    obtain ⟨narrow, hnarrow, rfl⟩ := hgroup
    obtain ⟨hle, -, hlast⟩ := hends narrow (List.mem_reverse.mp hnarrow)
    have hlt := hlength narrow.last hlast
    simp only [Group.widen]
    omega
  · intro position edit hedit hchange
    obtain ⟨narrow, hnarrow, hle, hge⟩ :=
      hcovers position (mem_changePositions.mpr ⟨edit, hedit, hchange⟩)
    have hlt := (List.getElem?_eq_some_iff.mp hedit).1
    refine ⟨_, List.mem_map_of_mem (List.mem_reverse.mpr hnarrow), ?_, ?_⟩
    · exact Nat.le_trans (Nat.sub_le narrow.first context) hle
    · simp only [Group.widen]
      omega

end Diff

end Patchwork
