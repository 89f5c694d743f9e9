import Mathlib.Data.List.Forall2
import Patchwork.Proofs.Apply.Ledger
import Patchwork.Proofs.Apply.Retained
import Patchwork.Proofs.Apply.Scene
import Patchwork.Proofs.Table

/-!
# The times of access stay true

The table of the times at which files were accessed and the files themselves are changed by separate
steps, several for a move, and a hunk may fail between them.  Still every path in the table leads to
a file afterwards, whatever comes of the patch, if every one did before.  Main statement:
`Patch.apply_tracks`.

The table knows paths by their spelling only.  A path in it is left without a file when a hunk
removes that file under another spelling; paths that were resolved against one root, which is no run
of several separators, have no second spelling.
-/

namespace Patchwork

/-- The path was resolved against the root, and can be passed to the system. -/
def Path.ReadAt (root path : Bytes) : Prop :=
  0 ∉ path ∧ ∃ spelled, Path.resolve root spelled = path

/-- Against a root that is no run of several separators, no file has two resolved paths. -/
theorem Path.ReadAt.eq_of_goal {root path other : Bytes} {disk : Disk} (hpath : ReadAt root path)
    (hother : ReadAt root other) (hroot : isAbsolute root = true)
    (htop : isTop root = true → root = [separator]) (hgoal : disk.goal path = disk.goal other)
    (hne : disk.goal path ≠ []) : path = other := by
  obtain ⟨hzero, spelled, rfl⟩ := hpath
  obtain ⟨hotherZero, respelled, rfl⟩ := hother
  rw [Disk.goal_of_resolved (resolved_resolve hroot spelled) hzero] at hgoal hne
  rw [Disk.goal_of_resolved (resolved_resolve hroot respelled) hotherZero] at hgoal
  exact resolve_eq_of_names hroot htop hgoal hne

/-! ## What one hunk does to the table -/

namespace Hunk

/-- The hunk removes the file that the key leads to, under another path. -/
def Strands (hunk : Hunk) (disk : Disk) (key : Bytes) : Prop :=
  ∃ path ∈ hunk.removes, path ≠ key ∧ disk.goal path = disk.goal key

/-- A hunk that was applied removes files nowhere but where the paths lead that it removes, it
leaves files at the paths that it writes, unless it removes them again, and the times of access
follow the change that it leaves. -/
structure Noted (context : Int) (before : Workspace) (hunk : Hunk) (change : Change)
    (after : Workspace) : Prop where
  describes : change.Describes context hunk
  retains : before.disk.Retains (before.disk.goals hunk.removes) after.disk
  removed : ∀ path ∈ hunk.removes, before.disk.goal path ≠ []
  written : ∀ path ∈ hunk.writes, before.disk.goal path ∉ before.disk.goals hunk.removes →
    after.disk.IsFile path
  accessed : after.accessed = change.touch before.now before.accessed

/-- What comes before and takes no file away makes no difference. -/
theorem Noted.of_gains {context : Int} {before middle after : Workspace} {hunk : Hunk}
    {change : Change} (hnoted : Noted context middle hunk change after)
    (hgains : before.Gains middle) : Noted context before hunk change after := by
  have hgoal := Disk.goal_of_current hgains.retains.current
  have hgoals : middle.disk.goals hunk.removes = before.disk.goals hunk.removes := by
    simp only [Disk.goals, hgoal]
  obtain ⟨hdescribes, hretains, hremoved, hwritten, haccessed⟩ := hnoted
  rw [hgoals] at hretains
  simp only [hgoals, hgoal] at hremoved hwritten
  rw [hgains.accessed, hgains.now] at haccessed
  exact ⟨hdescribes, (hgains.retains.mono (Set.empty_subset _)).trans hretains, hremoved, hwritten,
    haccessed⟩

section Noting

variable {context : Int} {before after : Workspace} {hunk : Hunk} {change : Change}
  {path content : Bytes}
  (hdescribes : change.Describes context hunk)
  (haccessed : after.accessed = change.touch before.now before.accessed)

include hdescribes haccessed

/-- A hunk that only writes a file is noted when the file is written. -/
theorem noted_of_writeFile (hwritten : before.disk.writeFile path content = .ok after.disk)
    (hwrites : hunk.writes = [path]) (hremoves : hunk.removes = []) :
    Noted context before hunk change after where
  describes := hdescribes
  retains := (Disk.writeFile_retains hwritten).mono (Set.empty_subset _)
  removed := by
    rw [hremoves]
    exact nofun
  written := by
    rw [hwrites, List.forall_mem_singleton]
    exact fun _ => Disk.isFile_writeFile hwritten
  accessed := haccessed

/-- A hunk that removes a file is noted when the file is removed, behind all that it writes. -/
theorem noted_of_removeFile {disk : Disk} (hretains : before.disk.Retains ∅ disk)
    (hremoved : disk.removeFile path = .ok after.disk) (hremoves : hunk.removes = [path])
    (hwritten : ∀ other ∈ hunk.writes, disk.IsFile other) :
    Noted context before hunk change after := by
  have hgoal := Disk.goal_of_current hretains.current
  have hlost := Disk.removeFile_retains hremoved
  have hgoals : before.disk.goals hunk.removes = {disk.goal path} := by
    ext location
    simp [Disk.goals, hremoves, hgoal, eq_comm]
  refine ⟨hdescribes, ?_, ?_, fun other hother hspared => ?_, haccessed⟩
  · rw [hgoals]
    exact (hretains.mono (Set.empty_subset _)).trans hlost
  · rw [hremoves, List.forall_mem_singleton, ← hgoal]
    exact Disk.goal_ne_top_of_removeFile hremoved
  · rw [hgoals, ← hgoal] at hspared
    exact hlost.isFile (hwritten other hother) hspared

end Noting

end Hunk

namespace Step

/-- The step applies the hunk and notes it, or it fails and takes no file away. -/
def Notes (context : Int) (hunk : Hunk) (step : Step Change) : Prop :=
  ∀ before : Workspace, step.Ensures before (hunk.Noted context before)
    fun _ after => before.Gains after

theorem notes_bind {α : Type} {context : Int} {hunk : Hunk} {step : Step α}
    {next : α → Step Change} (hstep : step.Gaining)
    (hnext : ∀ result, (next result).Notes context hunk) : (step >>= next).Notes context hunk := by
  intro before
  refine hstep.ensures_bind (fun result middle hgains => ?_) fun _ _ => id
  exact (hnext result middle).imp (fun _ _ hnoted => hnoted.of_gains hgains)
    fun _ _ => hgains.trans

end Step

namespace Hunk

theorem applyAdd_notes (context : Int) (path contents : Bytes) :
    (applyAdd path contents).Notes context (.add path contents) := by
  apply Step.notes_bind (Step.gaining_log _ _)
  intro _
  apply Step.notes_bind (Step.gaining_makeParents _)
  intro _ before
  refine Step.ensures_bind (Step.ensures_writeFile (fun written hwritten => ?_)
    fun _ _ => .refl before)
  refine Step.ensures_bind (Step.ensures_setAccessed (Step.ensures_pure ?_))
  exact noted_of_writeFile rfl rfl hwritten rfl rfl

theorem applyDelete_notes (context : Int) (path : Bytes) :
    (applyDelete path).Notes context (.delete path) := by
  apply Step.notes_bind (Step.gaining_log _ _)
  intro _
  apply Step.notes_bind (Step.gaining_readFile _ _)
  intro old before
  refine Step.ensures_bind (Step.ensures_removeFile _ (fun removed hremoved => ?_)
    fun _ _ _ _ => .refl before)
  refine Step.ensures_bind (Step.ensures_clearAccessed (Step.ensures_pure ?_))
  exact noted_of_removeFile rfl rfl (.refl ∅ before.disk) hremoved rfl nofun

theorem store_notes {context : Int} {path old new : Bytes} {destination : Option Bytes}
    {chunks : List Chunk} (hupdated : Placement.updateContent old chunks = .ok new) :
    (store context path destination old new).Notes context (.update path destination chunks) := by
  cases destination with
  | none =>
    intro before
    refine Step.ensures_bind (Step.ensures_writeFile (fun written hwritten => ?_)
      fun _ _ => .refl before)
    refine Step.ensures_bind (Step.ensures_setAccessed (Step.ensures_pure ?_))
    exact noted_of_writeFile ⟨hupdated, rfl⟩
      (congrArg (Table.insert path before.now) (if_pos rfl).symm) hwritten rfl (if_pos rfl)
  | some moved =>
    apply Step.notes_bind (Step.gaining_makeParents _)
    intro _ before
    refine Step.ensures_bind (Step.ensures_writeFile (fun written hwritten => ?_)
      fun _ _ => .refl before)
    have hgains := Workspace.gains_of_retains (Disk.writeFile_retains hwritten)
    change Step.Ensures (if moved ≠ path then _ else _) _ _ _
    split
    · rename_i hmoved
      refine Step.ensures_bind (Step.ensures_removeFile _ (fun removed hremoved => ?_)
        fun _ _ _ _ => hgains)
      refine Step.ensures_bind (Step.ensures_clearAccessed ?_)
      refine Step.ensures_bind (Step.ensures_setAccessed (Step.ensures_pure ?_))
      refine noted_of_removeFile ⟨hupdated, rfl⟩
        (congrArg (Table.insert moved before.now) (if_neg hmoved).symm)
        (Disk.writeFile_retains hwritten) hremoved (if_neg hmoved) ?_
      exact List.forall_mem_singleton.mpr (Disk.isFile_writeFile hwritten)
    · rename_i hsame
      rw [not_not] at hsame
      refine Step.ensures_bind (Step.ensures_setAccessed (Step.ensures_pure ?_))
      exact noted_of_writeFile ⟨hupdated, rfl⟩
        (congrArg (Table.insert moved before.now) (if_pos hsame).symm) hwritten rfl (if_pos hsame)

/-- A hunk is noted in the times of access, or it fails and takes no file away. -/
theorem apply_notes (context : Int) (hunk : Hunk) : (hunk.apply context).Notes context hunk := by
  cases hunk with
  | add path contents => exact applyAdd_notes context path contents
  | delete path => exact applyDelete_notes context path
  | update path destination chunks =>
    rw [apply, applyUpdate_eq]
    apply Step.notes_bind (Step.gaining_log _ _)
    intro _
    apply Step.notes_bind (Step.gaining_readFile _ _)
    intro old before
    have hgains := before.gains_logAll .debug (Placement.notes (Lines.ofFile old) chunks)
    refine Step.ensures_bind (Step.ensures_updatedContent_logged rfl (fun new hupdated => ?_)
      fun _ _ => hgains)
    exact (store_notes hupdated _).imp (fun _ _ hnoted => hnoted.of_gains hgains)
      fun _ _ => hgains.trans

/-- A hunk that moves a file writes another path than the one that it removes. -/
theorem ne_of_mem_removes {hunk : Hunk} {removed written : Bytes} (hremoved : removed ∈ hunk.removes)
    (hwritten : written ∈ hunk.writes) : removed ≠ written := by
  cases hunk with
  | add => cases hremoved
  | delete => cases hwritten
  | update path destination chunks =>
    rw [removes] at hremoved
    split at hremoved
    · cases hremoved
    · rename_i hmoved
      rw [List.mem_singleton.mp hremoved, List.mem_singleton.mp hwritten]
      exact Ne.symm hmoved

end Hunk

namespace Change.Describes

variable {context : Int} {change : Change} {hunk : Hunk} {key : Bytes} {now : Time}
  {accessed : AccessTable}

/-- The table has the paths that the hunk writes, and those that it had and the hunk does not
remove. -/
theorem mem_keys_touch (hdescribes : change.Describes context hunk) :
    key ∈ Table.keys (change.touch now accessed) ↔
      key ∈ hunk.writes ∨ key ∈ Table.keys accessed ∧ key ∉ hunk.removes := by
  cases hunk with
  | add path contents =>
    obtain rfl : change = { kind := .add, path, newContent := contents } := hdescribes
    simp [touch, Table.mem_keys_insert, Hunk.writes, Hunk.removes]
  | delete path =>
    have hchange : change = { kind := .delete, path, oldContent := change.oldContent } := hdescribes
    rw [hchange]
    simp [touch, Table.mem_keys_erase, Hunk.writes, Hunk.removes]
  | update path destination chunks =>
    rw [hdescribes.2]
    simp only [touch, target, Table.mem_keys_insert, Hunk.writes, Hunk.removes]
    by_cases hsame : destination.getD path = path
    · simp [hsame]
    · simp [hsame, Table.mem_keys_erase]

/-- The times at which other files were accessed stay as they are. -/
theorem find?_touch (hdescribes : change.Describes context hunk) (hkey : key ∉ hunk.paths) :
    Table.find? key (change.touch now accessed) = Table.find? key accessed := by
  obtain ⟨hpath, htarget⟩ := hdescribes.paths_eq
  have hne : key ≠ change.path := by
    rintro rfl
    exact hkey (hpath ▸ List.mem_cons_self)
  have hother : key ≠ change.target := by
    rintro rfl
    exact hkey (htarget ▸ hunk.target_mem_paths)
  rw [touch]
  split
  · exact Table.find?_insert_of_ne hne _ _
  · exact Table.find?_erase_of_ne hne _
  · rw [Table.find?_insert_of_ne hother]
    split
    · rfl
    · exact Table.find?_erase_of_ne hne _

end Change.Describes

/-- What a report names as added or modified is what the hunks wrote that its changes describe. -/
theorem Report.Balanced.mem_recorded {context : Int} {report : Report} {completed : List Hunk}
    {path : Bytes} (hbalanced : report.Balanced)
    (hdescribes : List.Forall₂ (Change.Describes context) report.changes completed) :
    path ∈ report.added ∨ path ∈ report.modified ↔ ∃ hunk ∈ completed, path ∈ hunk.writes := by
  rw [hbalanced.added, hbalanced.modified]
  clear hbalanced
  generalize report.changes = changes at hdescribes
  induction hdescribes with
  | nil => simp
  | @cons change hunk changes completed hhead _ ih =>
    rw [List.exists_mem_cons_iff, ← ih]
    cases hunk with
    | add target contents =>
      obtain rfl : change = { kind := .add, path := target, newContent := contents } := hhead
      simp [Hunk.writes, or_assoc]
    | delete target =>
      have hchange : change =
          { kind := .delete, path := target, oldContent := change.oldContent } := hhead
      rw [hchange]
      simp [Hunk.writes]
    | update source destination chunks =>
      rw [hhead.2]
      simp [Hunk.writes, Change.target, or_left_comm]

/-! ## What a whole patch does to the table -/

namespace Patch

/-- One of the hunks writes the path, and no later one removes it. -/
def Leaves (hunks : List Hunk) (path : Bytes) : Prop :=
  ∃ earlier hunk later, hunks = earlier ++ hunk :: later ∧ path ∈ hunk.writes ∧
    ∀ other ∈ later, path ∉ other.removes

theorem leaves_concat {hunks : List Hunk} {last : Hunk} {path : Bytes} :
    Leaves (hunks ++ [last]) path ↔
      path ∈ last.writes ∨ Leaves hunks path ∧ path ∉ last.removes := by
  constructor
  · rintro ⟨earlier, hunk, later, hsplit, hwritten, hlater⟩
    rcases List.eq_nil_or_concat later with rfl | ⟨init, final, rfl⟩
    · obtain ⟨-, hlast⟩ := List.append_inj' hsplit rfl
      obtain rfl := List.singleton_inj.mp hlast
      exact .inl hwritten
    · rw [List.concat_eq_append, ← List.cons_append, ← List.append_assoc] at hsplit
      obtain ⟨hinit, hlast⟩ := List.append_inj' hsplit rfl
      obtain rfl := List.singleton_inj.mp hlast
      rw [List.concat_eq_append, List.forall_mem_append, List.forall_mem_singleton] at hlater
      exact .inr ⟨⟨earlier, hunk, init, hinit, hwritten, hlater.1⟩, hlater.2⟩
  · rintro (hwritten | ⟨⟨earlier, hunk, later, rfl, hwritten, hlater⟩, hkept⟩)
    · exact ⟨hunks, last, [], rfl, hwritten, nofun⟩
    · refine ⟨earlier, hunk, later ++ [last], by simp, hwritten, ?_⟩
      rw [List.forall_mem_append, List.forall_mem_singleton]
      exact ⟨hlater, hkept⟩

/-- What holds of the report and the workspace when some hunks were applied, of a workspace in which
every path in the table led to a file. -/
structure Tracks (context : Int) (before : Workspace) (completed : List Hunk) (report : Report)
    (after : Workspace) : Prop where
  describes : List.Forall₂ (Change.Describes context) report.changes completed
  balanced : report.Balanced
  current : after.disk.current = before.disk.current
  removed : ∀ hunk ∈ completed, ∀ path ∈ hunk.removes, before.disk.goal path ≠ []
  /-- A path in the table leads to a file, unless that was removed under another path. -/
  file : ∀ key ∈ Table.keys after.accessed,
    after.disk.IsFile key ∨ ∃ hunk ∈ completed, hunk.Strands before.disk key
  mem_keys : ∀ key, key ∈ Table.keys after.accessed ↔
    Leaves completed key ∨
      key ∈ Table.keys before.accessed ∧ ∀ hunk ∈ completed, key ∉ hunk.removes
  unnamed : ∀ key, (∀ hunk ∈ completed, key ∉ hunk.paths) →
    Table.find? key after.accessed = Table.find? key before.accessed

namespace Tracks

variable {context : Int} {before middle after : Workspace} {completed : List Hunk} {hunk : Hunk}
  {change : Change} {report : Report}

theorem nil (context : Int) (hfiles : ∀ key ∈ Table.keys before.accessed, before.disk.IsFile key) :
    Tracks context before [] {} before where
  describes := .nil
  balanced := ⟨rfl, rfl, rfl⟩
  current := rfl
  removed := nofun
  file key hkey := .inl (hfiles key hkey)
  mem_keys key := by
    have hnone : ¬ Leaves [] key := fun ⟨earlier, _, _, hnil, _⟩ => by simp at hnil
    simp [hnone]
  unnamed _ _ := rfl

/-- Where no file is taken away, and the table stays as it is, nothing is lost. -/
theorem of_gains (htracks : Tracks context before completed report middle)
    (hgains : middle.Gains after) : Tracks context before completed report after where
  describes := htracks.describes
  balanced := htracks.balanced
  current := hgains.retains.current.trans htracks.current
  removed := htracks.removed
  file key hkey := by
    rw [hgains.accessed] at hkey
    exact (htracks.file key hkey).imp_left fun hfile =>
      hgains.retains.isFile hfile (Set.notMem_empty _)
  mem_keys := by
    rw [hgains.accessed]
    exact htracks.mem_keys
  unnamed := by
    rw [hgains.accessed]
    exact htracks.unnamed

theorem fail (htracks : Tracks context before completed report after) (failure : Failure) :
    Tracks context before completed { report with error := some failure } after where
  __ := htracks
  balanced := ⟨htracks.balanced.added, htracks.balanced.modified, htracks.balanced.deleted⟩

/-- One more hunk is applied and noted. -/
theorem concat (htracks : Tracks context before completed report middle)
    (hnoted : hunk.Noted context middle change after) :
    Tracks context before (completed ++ [hunk]) (report.record change) after where
  describes := by
    rw [Report.changes_record]
    exact List.rel_append htracks.describes (.cons hnoted.describes .nil)
  balanced := htracks.balanced.record change
  current := hnoted.retains.current.trans htracks.current
  removed := by
    rw [List.forall_mem_append, List.forall_mem_singleton]
    refine ⟨htracks.removed, fun path hpath => ?_⟩
    rw [← Disk.goal_of_current htracks.current]
    exact hnoted.removed path hpath
  file key hkey := by
    have hgoal := Disk.goal_of_current htracks.current
    rw [hnoted.accessed, hnoted.describes.mem_keys_touch] at hkey
    by_cases hlost : middle.disk.goal key ∈ middle.disk.goals hunk.removes
    · -- the file is gone, and the hunk cannot have removed it under the key itself
      obtain ⟨path, hpath, hsame⟩ := hlost
      have hne : path ≠ key := by
        rcases hkey with hwritten | ⟨-, hkept⟩
        · exact hunk.ne_of_mem_removes hpath hwritten
        · rintro rfl
          exact hkept hpath
      rw [hgoal, hgoal] at hsame
      exact .inr ⟨hunk, List.mem_append_right _ List.mem_cons_self, path, hpath, hne, hsame⟩
    · rcases hkey with hwritten | ⟨hkey, -⟩
      · exact .inl (hnoted.written key hwritten hlost)
      · refine (htracks.file key hkey).imp (hnoted.retains.isFile · hlost) ?_
        rintro ⟨earlier, hearlier, hstrands⟩
        exact ⟨earlier, List.mem_append_left _ hearlier, hstrands⟩
  mem_keys key := by
    rw [hnoted.accessed, hnoted.describes.mem_keys_touch, htracks.mem_keys, leaves_concat,
      List.forall_mem_append, List.forall_mem_singleton]
    tauto
  unnamed key hunnamed := by
    rw [List.forall_mem_append, List.forall_mem_singleton] at hunnamed
    rw [hnoted.accessed, hnoted.describes.find?_touch hunnamed.2, htracks.unnamed key hunnamed.1]

end Tracks

section Runs

variable {context : Int} {before middle : Workspace} {completed hunks : List Hunk}
  {report : Report}

/-- A run over hunks notes those that it completes. -/
theorem applyHunks_tracks (htracks : Tracks context before completed report middle) :
    ∃ more rest, hunks = more ++ rest ∧
      Tracks context before (completed ++ more) (applyHunks context report middle hunks).1
        (applyHunks context report middle hunks).2 := by
  induction hunks generalizing completed report middle with
  | nil => exact ⟨[], [], rfl, by rwa [List.append_nil]⟩
  | cons hunk hunks ih =>
    have hstep := hunk.apply_notes context middle
    rw [Step.Ensures] at hstep
    rw [applyHunks]
    rcases hrun : (hunk.apply context).run middle with ⟨failure | change, after⟩
    · simp only [hrun] at hstep ⊢
      have hgains : middle.Gains (logFailure failure after) :=
        hstep.trans (after.gains_log .error _)
      refine ⟨[], hunk :: hunks, rfl, ?_⟩
      rw [List.append_nil]
      exact (htracks.of_gains hgains).fail failure
    · simp only [hrun] at hstep ⊢
      obtain ⟨more, rest, hsplit, hlast⟩ :=
        ih ((htracks.concat hstep).of_gains (after.gains_log .success change.doneMessage))
      exact ⟨hunk :: more, rest, by rw [hsplit, List.cons_append], by rwa [List.append_cons]⟩

/-- Where all paths were resolved against one root, which is no run of several separators, no hunk
strands a path. -/
theorem Tracks.isFile {root key : Bytes} (htracks : Tracks context before completed report middle)
    (hroot : Path.isAbsolute root = true) (htop : Path.isTop root = true → root = [Path.separator])
    (hpaths : ∀ hunk ∈ completed, ∀ path ∈ hunk.paths, Path.ReadAt root path)
    (hkeys : ∀ key ∈ Table.keys before.accessed, Path.ReadAt root key)
    (hkey : key ∈ Table.keys middle.accessed) : middle.disk.IsFile key := by
  have hread : Path.ReadAt root key := by
    rcases (htracks.mem_keys key).mp hkey with ⟨earlier, hunk, later, rfl, hwritten, -⟩ | ⟨hold, -⟩
    · exact hpaths hunk (by simp) key (Hunk.mem_paths_of_mem_writes hwritten)
    · exact hkeys key hold
  refine (htracks.file key hkey).resolve_right ?_
  rintro ⟨hunk, hhunk, path, hpath, hne, hgoal⟩
  have hspelled := hpaths hunk hhunk path (Hunk.mem_paths_of_mem_removes hpath)
  exact hne (hspelled.eq_of_goal hread hroot htop hgoal (htracks.removed hunk hhunk path hpath))

end Runs

/-- Whatever comes of a patch, the table of the times of access stays true.  Some hunks are
completed, as the changes of the report say.  Every path in the table leads to a file, unless one of
them removed it under another path, which takes paths that were not all resolved against one root,
or a root of several separators.  The table has the paths that were written and not removed later,
among them those that the report names as added or modified, and the ones that it had and that were
not removed; the times under paths that no completed hunk names are the same. -/
theorem apply_tracks (context : Int) (patch : Patch) (before : Workspace)
    (hfiles : ∀ key ∈ Table.keys before.accessed, before.disk.IsFile key) :
    ∃ report after completed rest,
      apply context patch before = (report, after) ∧
      patch = completed ++ rest ∧
      List.Forall₂ (Change.Describes context) report.changes completed ∧
      (∀ key ∈ Table.keys after.accessed,
        after.disk.IsFile key ∨ ∃ hunk ∈ completed, hunk.Strands before.disk key) ∧
      (∀ root, Path.isAbsolute root = true → (Path.isTop root = true → root = [Path.separator]) →
        (∀ hunk ∈ patch, ∀ path ∈ hunk.paths, Path.ReadAt root path) →
        (∀ key ∈ Table.keys before.accessed, Path.ReadAt root key) →
        ∀ key ∈ Table.keys after.accessed, after.disk.IsFile key) ∧
      (∀ path, path ∈ report.added ∨ path ∈ report.modified ↔
        ∃ hunk ∈ completed, path ∈ hunk.writes) ∧
      (∀ key, key ∈ Table.keys after.accessed ↔
        Leaves completed key ∨
          key ∈ Table.keys before.accessed ∧ ∀ hunk ∈ completed, key ∉ hunk.removes) ∧
      ∀ key, (∀ hunk ∈ completed, key ∉ hunk.paths) →
        Table.find? key after.accessed = Table.find? key before.accessed := by
  have hstart := Tracks.nil context hfiles
  have hrun : ∃ completed rest, patch = completed ++ rest ∧
      Tracks context before completed (apply context patch before).1
        (apply context patch before).2 := by
    rw [apply]
    split
    · rename_i hnil
      exact ⟨[], [], hnil, hstart.fail .nothingToDo⟩
    · exact applyHunks_tracks hstart
  obtain ⟨completed, rest, hsplit, htracks⟩ := hrun
  refine ⟨_, _, completed, rest, rfl, hsplit, htracks.describes, htracks.file, ?_,
    fun path => htracks.balanced.mem_recorded htracks.describes, htracks.mem_keys, htracks.unnamed⟩
  intro root hroot htop hpaths hkeys key hkey
  refine htracks.isFile hroot htop (fun hunk hhunk => hpaths hunk ?_) hkeys hkey
  exact hsplit ▸ List.mem_append_left _ hhunk

/-- Two files, accessed under the given paths at different times. -/
def accessedFiles (first second : Bytes) : Workspace :=
  { disk := ⟨[([text "f"], .file (text "a\n")), ([text "g"], .file (text "x\n"))], []⟩
    accessed := [(first, 5), (second, 7)]
    now := 9 }

/-- A file is moved, and to delete it where it stood fails: its new path is in the table, the old
one is not, and the other file has the time that it had. -/
theorem apply_tracks_moveThenDelete :
    (∀ key ∈ Table.keys (accessedFiles (text "/f") (text "/g")).accessed,
      (accessedFiles (text "/f") (text "/g")).disk.IsFile key) ∧
    ∃ report after,
      apply 3 (resolve (text "/") moveThenDelete) (accessedFiles (text "/f") (text "/g")) =
        (report, after) ∧
      report.error = some (.file .readForDeletion (text "/f") .noSuchFile) ∧
      after.accessed = [(text "/d/g", 9), (text "/g", 7)] ∧
      ∀ key ∈ Table.keys after.accessed, after.disk.IsFile key := by
  have hfiles : ∀ key ∈ Table.keys (accessedFiles (text "/f") (text "/g")).accessed,
      (accessedFiles (text "/f") (text "/g")).disk.IsFile key := by
    decide +kernel
  obtain ⟨report, after, completed, rest, happlied, -, -, -, hread, -, -, -⟩ :=
    apply_tracks 3 (resolve (text "/") moveThenDelete) (accessedFiles (text "/f") (text "/g")) hfiles
  have hpaths : ∀ hunk ∈ resolve (text "/") moveThenDelete, ∀ path ∈ hunk.paths,
      Path.ReadAt (text "/") path := by
    intro hunk hhunk path hpath
    refine ⟨?_, exists_resolve_of_mem_paths hhunk hpath⟩
    revert hunk path
    decide
  have hkeys : ∀ key ∈ Table.keys (accessedFiles (text "/f") (text "/g")).accessed,
      Path.ReadAt (text "/") key := by
    intro key hkey
    have hself : 0 ∉ key ∧ Path.resolve (text "/") key = key := by
      revert key
      decide +kernel
    exact ⟨hself.1, key, hself.2⟩
  obtain ⟨rfl, rfl⟩ := Prod.mk.inj happlied
  refine ⟨hfiles, _, _, rfl, ?_, ?_, hread (text "/") rfl (by decide) hpaths hkeys⟩
  · decide +kernel
  · decide +kernel

/-- The table knows paths by their spelling.  A path that is not a resolved one is left without its
file when that is deleted, and so is one of the two resolved paths of a file below a root of two
separators. -/
theorem apply_respelledKey :
    ((∀ key ∈ Table.keys (accessedFiles (text "/./f") (text "/g")).accessed,
        (accessedFiles (text "/./f") (text "/g")).disk.IsFile key) ∧
      (apply 3 (resolve (text "/") [.delete (text "f")])
        (accessedFiles (text "/./f") (text "/g"))).1.error = none ∧
      text "/./f" ∈ Table.keys (apply 3 (resolve (text "/") [.delete (text "f")])
        (accessedFiles (text "/./f") (text "/g"))).2.accessed ∧
      ¬ (apply 3 (resolve (text "/") [.delete (text "f")])
        (accessedFiles (text "/./f") (text "/g"))).2.disk.IsFile (text "/./f")) ∧
    (∀ key ∈ Table.keys (accessedFiles (text "/f") (text "/g")).accessed,
        (accessedFiles (text "/f") (text "/g")).disk.IsFile key) ∧
      (apply 3 (resolve (text "//") [.delete (text "f")])
        (accessedFiles (text "/f") (text "/g"))).1.error = none ∧
      text "/f" ∈ Table.keys (apply 3 (resolve (text "//") [.delete (text "f")])
        (accessedFiles (text "/f") (text "/g"))).2.accessed ∧
      ¬ (apply 3 (resolve (text "//") [.delete (text "f")])
        (accessedFiles (text "/f") (text "/g"))).2.disk.IsFile (text "/f") := by
  decide +kernel

end Patch

end Patchwork
