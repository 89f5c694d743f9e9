import Patchwork.Proofs.Apply.Searches

/-!
# Hunks and the changes they account for

A hunk that is applied leaves a change behind which says what was read and what was written, and
from which the files can be told without the hunk.  A hunk that fails leaves every file as it
was.  Main statement: `Hunk.apply_ensures`.
-/

namespace Patchwork

namespace Hunk

/-- The path at which the file stands when the hunk is applied. -/
def target (hunk : Hunk) : Bytes :=
  hunk.destination.getD hunk.path

/-- Every path of the hunk is resolved and can be passed to the system. -/
def Sound (hunk : Hunk) : Prop :=
  ∀ path ∈ hunk.paths, Path.Resolved path ∧ 0 ∉ path

theorem target_mem_paths (hunk : Hunk) : hunk.target ∈ hunk.paths := by
  rw [target, paths]
  cases hunk.destination <;> simp

theorem paths_resolve (root : Bytes) (hunk : Hunk) :
    (hunk.resolve root).paths = hunk.paths.map (Path.resolve root) := by
  cases hunk with
  | add | delete => rfl
  | update path destination chunks => cases destination <;> rfl

end Hunk

namespace Change

/-- The file was moved to another spelling of the path that it had. -/
def Aliased (change : Change) : Prop :=
  change.target ≠ change.path ∧ Path.names change.target = Path.names change.path

/-- The files after a change to given files: first the new content stands at the target, and
then nothing stands at a path that was deleted or moved away from. -/
def replay (change : Change) (files : Disk.Files) : Disk.Files :=
  match change.kind with
  | .add => Function.update files (Path.names change.path) (some change.newContent)
  | .delete => Function.update files (Path.names change.path) none
  | .update =>
    let written := Function.update files (Path.names change.target) (some change.newContent)
    if change.target = change.path then written
    else Function.update written (Path.names change.path) none

/-- The times of access after a change at a given time: a path that was deleted or moved away from
is forgotten, and a file that was written was accessed then. -/
def touch (change : Change) (now : Time) (accessed : AccessTable) : AccessTable :=
  match change.kind with
  | .add => Table.insert change.path now accessed
  | .delete => Table.erase change.path accessed
  | .update =>
    Table.insert change.target now
      (if change.target = change.path then accessed else Table.erase change.path accessed)

/-- The change is one that the hunk asks for, with diffs of the given context. -/
def Describes (context : Int) (change : Change) : Hunk → Prop
  | .add path contents => change = { kind := .add, path, newContent := contents }
  | .delete path => change = { kind := .delete, path, oldContent := change.oldContent }
  | .update path destination chunks =>
    Placement.updateContent change.oldContent chunks = .ok change.newContent ∧
      change =
        { kind := .update, path, oldContent := change.oldContent, newContent := change.newContent,
          unifiedDiff := Diff.unified path (destination.getD path) change.oldContent
            change.newContent context,
          destination }

theorem Describes.paths_eq {context : Int} {change : Change} {hunk : Hunk}
    (hdescribes : change.Describes context hunk) :
    change.path = hunk.path ∧ change.target = hunk.target := by
  cases hunk with
  | add | delete => rw [Describes.eq_def] at hdescribes; rw [hdescribes]; exact ⟨rfl, rfl⟩
  | update => rw [hdescribes.2]; exact ⟨rfl, rfl⟩

end Change

namespace Hunk

/-- A change accounts for a hunk that was applied: it describes the hunk, holds what was read
before and what can be read after it, and says what became of the files and of the times of
access. -/
structure Accounted (context : Int) (before : Workspace) (hunk : Hunk) (change : Change)
    (after : Workspace) : Prop where
  describes : change.Describes context hunk
  oldContent : change.kind ≠ .add →
    before.disk.status change.path = .ok (.file change.oldContent)
  newContent : change.kind ≠ .delete →
    (after.disk.status change.target = .ok (.file change.newContent) ↔ ¬ change.Aliased)
  files : after.disk.files = change.replay before.disk.files
  accessed : after.accessed = change.touch before.now before.accessed
  settings : after.settings = before.settings

/-- A hunk that failed changed nothing but that directories may now stand on the way to its
target. -/
structure Untouched (before : Workspace) (hunk : Hunk) (after : Workspace) : Prop where
  grows : before.disk.Grows after.disk (Path.names hunk.target)
  accessed : after.accessed = before.accessed
  settings : after.settings = before.settings

/-- Below a root that is no run of several separators, no file is moved to another spelling of
its path. -/
theorem Accounted.not_aliased {context : Int} {before after : Workspace} {hunk : Hunk}
    {change : Change} {root : Bytes} (haccounted : Accounted context before hunk change after)
    (hroot : Path.isAbsolute root = true) (htop : Path.isTop root = true → root = [Path.separator])
    (hsound : hunk.Sound)
    (hresolved : ∀ path ∈ hunk.paths, ∃ spelled, Path.resolve root spelled = path) :
    ¬ change.Aliased := by
  rintro ⟨hne, hnames⟩
  have hdescribes := haccounted.describes
  have hkind : change.kind ≠ .add := by
    intro hadd
    cases hunk with
    | add path contents =>
      have hchange : change = { kind := .add, path, newContent := contents } := hdescribes
      exact hne (by rw [hchange]; rfl)
    | delete path =>
      have hchange : change = { kind := .delete, path, oldContent := change.oldContent } :=
        hdescribes
      rw [hchange] at hadd
      cases hadd
    | update path destination chunks =>
      rw [hdescribes.2] at hadd
      cases hadd
  obtain ⟨hpath, htarget⟩ := hdescribes.paths_eq
  have hstatus := haccounted.oldContent hkind
  rw [hpath] at hne hnames hstatus
  rw [htarget] at hne hnames
  obtain ⟨hpathResolved, hpathZero⟩ := hsound hunk.path List.mem_cons_self
  have hnode := ((Disk.status_eq_ok_iff hpathResolved hpathZero).mp hstatus).2.2
  obtain ⟨spelled, hspelled⟩ := hresolved hunk.path List.mem_cons_self
  obtain ⟨other, hother⟩ := hresolved hunk.target hunk.target_mem_paths
  rw [← hspelled] at hne hnames hnode
  rw [← hother] at hne hnames
  refine hne (Path.resolve_eq_of_names hroot htop hnames ?_)
  rw [hnames]
  exact Disk.ne_top_of_not_directory (by rw [hnode]; exact nofun)

section Kinds

variable {context : Int} {before : Workspace} {path contents : Bytes}

theorem applyAdd_ensures (hpath : Path.Resolved path) (hzero : 0 ∉ path)
    (hlog : before.settings.file = []) :
    (applyAdd path contents).Ensures before (Accounted context before (.add path contents))
      fun failure after => failure.message ≠ [] ∧ Untouched before (.add path contents) after := by
  refine Step.ensures_bind (Step.ensures_log hlog _ _ fun heard console => ?_)
  refine Step.ensures_bind (Step.ensures_makeParents hpath hzero (fun grown hgrows => ?_)
    fun failure grown hgrows hmessage => ⟨hmessage, hgrows, rfl, rfl⟩)
  refine Step.ensures_bind (Step.ensures_writeFile (fun written hwritten => ?_)
    fun failure hmessage => ⟨hmessage, hgrows, rfl, rfl⟩)
  refine Step.ensures_bind (Step.ensures_setAccessed (Step.ensures_pure ?_))
  exact {
    describes := rfl
    oldContent := fun hkind => absurd rfl hkind
    newContent := fun _ => iff_of_true (Disk.status_writeFile hpath hzero hwritten)
      fun haliased => haliased.1 rfl
    files := by
      rw [Disk.files_writeFile hpath hzero hwritten, hgrows.files_eq]
      rfl
    accessed := rfl
    settings := rfl }

theorem applyDelete_ensures (hpath : Path.Resolved path) (hzero : 0 ∉ path)
    (hlog : before.settings.file = []) :
    (applyDelete path).Ensures before (Accounted context before (.delete path))
      fun failure after => failure.message ≠ [] ∧ Untouched before (.delete path) after := by
  refine Step.ensures_bind (Step.ensures_log hlog _ _ fun heard console => ?_)
  refine Step.ensures_bind (Step.ensures_readFile _ (fun content hstatus => ?_)
    fun failure hmessage => ⟨hmessage, .refl _ _, rfl, rfl⟩)
  refine Step.ensures_bind (Step.ensures_removeFile _ (fun removed hremoved => ?_)
    fun failure _ _ hmessage => ⟨hmessage, .refl _ _, rfl, rfl⟩)
  refine Step.ensures_bind (Step.ensures_clearAccessed (Step.ensures_pure ?_))
  exact {
    describes := rfl
    oldContent := fun _ => hstatus
    newContent := fun hkind => absurd rfl hkind
    files := Disk.files_removeFile hpath hzero hremoved
    accessed := rfl
    settings := rfl }

section Updates

variable {destination : Option Bytes} {chunks : List Chunk} {old new : Bytes} {grown written : Disk}
  {after : Workspace}

/-- The change that an update leaves. -/
def updateChange (context : Int) (path : Bytes) (destination : Option Bytes) (old new : Bytes) :
    Change :=
  { kind := .update, path, oldContent := old, newContent := new,
    unifiedDiff := Diff.unified path (destination.getD path) old new context, destination }

variable (hpath : Path.Resolved path) (hzero : 0 ∉ path)
  (hstatus : before.disk.status path = .ok (.file old))

include hpath hzero hstatus

/-- The file that was read is still there when the new one is written, so it can be removed. -/
theorem removeFile_of_writeFile {target : Bytes} (htarget : Path.Resolved target)
    (htargetZero : 0 ∉ target) (hgrows : before.disk.Grows grown (Path.names target))
    (hwritten : grown.writeFile target new = .ok written) :
    written.removeFile path = .ok (written.erase (Path.names path)) :=
  (Disk.removeFile_eq_ok_iff hpath hzero).mpr
    ⟨Disk.exists_status_of_writeFile htarget htargetZero hpath hzero hwritten
      (hgrows.status hpath hzero hstatus), rfl⟩

variable (hgrows : before.disk.Grows grown (Path.names (destination.getD path)))
  (hupdated : Placement.updateContent old chunks = .ok new)
  (hsettings : after.settings = before.settings)

include hgrows hupdated hsettings

/-- An update that writes its file where it stood accounts for itself. -/
theorem accounted_of_written (hsame : destination.getD path = path)
    (hwritten : grown.writeFile path new = .ok after.disk)
    (haccessed : after.accessed = Table.insert path before.now before.accessed) :
    Accounted context before (.update path destination chunks)
      (updateChange context path destination old new) after where
  describes := ⟨hupdated, rfl⟩
  oldContent := fun _ => hstatus
  newContent := fun _ => by
    rw [Change.target, updateChange, hsame]
    exact iff_of_true (Disk.status_writeFile hpath hzero hwritten) fun haliased => haliased.1 hsame
  files := by
    rw [Disk.files_writeFile hpath hzero hwritten, hgrows.files_eq]
    simp only [Change.replay, Change.target, updateChange, hsame, if_true]
  accessed := by
    rw [haccessed]
    simp only [Change.touch, Change.target, updateChange, hsame, if_true]
  settings := hsettings

/-- An update that writes its file at another path and removes the old one accounts for itself. -/
theorem accounted_of_moved (htarget : Path.Resolved (destination.getD path))
    (htargetZero : 0 ∉ destination.getD path) (hmoved : destination.getD path ≠ path)
    (hwritten : grown.writeFile (destination.getD path) new = .ok written)
    (hremoved : written.removeFile path = .ok after.disk)
    (haccessed : after.accessed =
      Table.insert (destination.getD path) before.now (Table.erase path before.accessed)) :
    Accounted context before (.update path destination chunks)
      (updateChange context path destination old new) after where
  describes := ⟨hupdated, rfl⟩
  oldContent := fun _ => hstatus
  newContent := fun _ => by
    have hread := Disk.status_writeFile htarget htargetZero hwritten
    refine (Disk.status_removeFile_iff hpath hzero htarget htargetZero hremoved hread).trans ?_
    simp [Change.Aliased, Change.target, updateChange, hmoved]
  files := by
    rw [Disk.files_removeFile hpath hzero hremoved,
      Disk.files_writeFile htarget htargetZero hwritten, hgrows.files_eq]
    exact (if_neg hmoved).symm
  accessed := by
    rw [haccessed]
    exact congrArg (Table.insert _ before.now) (if_neg hmoved).symm
  settings := hsettings

end Updates

theorem applyUpdate_ensures {destination : Option Bytes} {chunks : List Chunk}
    (hpath : Path.Resolved path) (hzero : 0 ∉ path)
    (htarget : Path.Resolved (destination.getD path)) (htargetZero : 0 ∉ destination.getD path)
    (hlog : before.settings.file = []) :
    (applyUpdate context path destination chunks).Ensures before
      (Accounted context before (.update path destination chunks))
      fun failure after =>
        failure.message ≠ [] ∧ Untouched before (.update path destination chunks) after := by
  refine Step.ensures_bind (Step.ensures_log hlog _ _ fun heard console => ?_)
  refine Step.ensures_bind (Step.ensures_readFile _ (fun old hstatus => ?_)
    fun failure hmessage => ⟨hmessage, .refl _ _, rfl, rfl⟩)
  refine Step.ensures_bind (Step.ensures_updatedContent hlog (fun new heard console hupdated => ?_)
    fun failure _ _ hmessage => ⟨hmessage, .refl _ _, rfl, rfl⟩)
  cases destination with
  | none =>
    refine Step.ensures_bind (Step.ensures_writeFile (fun written hwritten => ?_)
      fun failure hmessage => ⟨hmessage, .refl _ _, rfl, rfl⟩)
    refine Step.ensures_bind (Step.ensures_setAccessed (Step.ensures_pure ?_))
    exact accounted_of_written hpath hzero hstatus (.refl _ _) hupdated rfl rfl hwritten rfl
  | some moved =>
    refine Step.ensures_bind (Step.ensures_makeParents htarget htargetZero (fun grown hgrows => ?_)
      fun failure grown hgrows hmessage => ⟨hmessage, hgrows, rfl, rfl⟩)
    refine Step.ensures_bind (Step.ensures_writeFile (fun written hwritten => ?_)
      fun failure hmessage => ⟨hmessage, hgrows, rfl, rfl⟩)
    split
    · rename_i hmoved
      have herased :=
        removeFile_of_writeFile hpath hzero hstatus htarget htargetZero hgrows hwritten
      refine Step.ensures_bind (Step.ensures_removeFile _ (fun removed hremoved => ?_)
        fun failure problem hproblem => ?_)
      · refine Step.ensures_bind (Step.ensures_clearAccessed ?_)
        refine Step.ensures_bind (Step.ensures_setAccessed (Step.ensures_pure ?_))
        exact accounted_of_moved hpath hzero hstatus hgrows hupdated rfl htarget htargetZero hmoved
          hwritten hremoved rfl
      · cases hproblem.symm.trans herased
    · rename_i hsame
      obtain rfl := Decidable.not_not.mp hsame
      refine Step.ensures_bind (Step.ensures_setAccessed (Step.ensures_pure ?_))
      exact accounted_of_written hpath hzero hstatus hgrows hupdated rfl rfl hwritten rfl

end Kinds

/-- A hunk is accounted for by the change that it leaves, or it fails without a trace. -/
theorem apply_ensures {context : Int} {before : Workspace} {hunk : Hunk} (hsound : hunk.Sound)
    (hlog : before.settings.file = []) :
    (hunk.apply context).Ensures before (Accounted context before hunk)
      fun failure after => failure.message ≠ [] ∧ Untouched before hunk after := by
  have hpath := hsound hunk.path List.mem_cons_self
  cases hunk with
  | add path contents => exact applyAdd_ensures hpath.1 hpath.2 hlog
  | delete path => exact applyDelete_ensures hpath.1 hpath.2 hlog
  | update path destination chunks =>
    have htarget : Path.Resolved (destination.getD path) ∧ 0 ∉ destination.getD path := by
      cases destination with
      | none => exact hpath
      | some moved => exact hsound moved (List.mem_cons_of_mem _ List.mem_cons_self)
    exact applyUpdate_ensures hpath.1 hpath.2 htarget.1 htarget.2 hlog

end Hunk

end Patchwork
