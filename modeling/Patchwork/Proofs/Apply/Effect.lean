import Patchwork.Proofs.Apply.Confined
import Patchwork.Proofs.Apply.Hunk
import Patchwork.Proofs.Apply.Quiet
import Patchwork.Proofs.Apply.Scene
import Patchwork.Proofs.Table

/-!
# What hunks do to a scene

Off the log, a workspace shows a scene, and a hunk turns that into the scene that it leaves, or it
fails because it cannot be applied there.  Main statement: `Hunk.apply_enacts`.
-/

namespace Patchwork

namespace Tree

variable {tree other : Tree} {location : Location} {path content : Bytes}

/-- The trees are the same on the way to the location, and at it. -/
def AgreesTo (tree other : Tree) (location : Location) : Prop :=
  ∀ above, above <+: location → tree above = other above

theorem AgreesTo.symm (hagrees : tree.AgreesTo other location) : other.AgreesTo tree location :=
  fun above habove => (hagrees above habove).symm

theorem AgreesTo.mono {above : Location} (hagrees : tree.AgreesTo other location)
    (hway : above <+: location) : tree.AgreesTo other above :=
  fun _ hbelow => hagrees _ (hbelow.trans hway)

theorem AgreesTo.grounded (hagrees : tree.AgreesTo other location)
    (hgrounded : tree.Grounded location) : other.Grounded location := by
  intro above name hway hstanding
  rw [← hagrees _ hway] at hstanding
  rw [← hagrees _ ((List.prefix_append _ _).trans hway)]
  exact hgrounded above name hway hstanding

theorem AgreesTo.near (hagrees : tree.AgreesTo other location) (hnear : tree.Near location) :
    other.Near location := by
  obtain ⟨above, hway, hdirectory, hlength⟩ := hnear
  exact ⟨above, hway, hagrees above hway ▸ hdirectory, hlength⟩

theorem AgreesTo.holds (hagrees : tree.AgreesTo other (Path.names path))
    (hholds : tree.Holds path content) : other.Holds path content :=
  ⟨hholds.fits, hagrees _ (List.prefix_refl _) ▸ hholds.file⟩

theorem AgreesTo.admits (hagrees : tree.AgreesTo other (Path.names path))
    (hadmits : tree.Admits path) : other.Admits path := by
  refine ⟨hadmits.fits, hagrees _ (List.prefix_refl _) ▸ hadmits.free, fun above habove old => ?_⟩
  rw [← hagrees above (habove.trans (List.dropLast_prefix _))]
  exact hadmits.passable above habove old

end Tree

namespace Disk

/-- What stands at every location when a file was removed. -/
theorem node?_of_removed {disk : Disk} {target : Location} {content : Bytes}
    (hfile : disk.node? target = some (.file content)) (location : Location) :
    (disk.erase target).node? location = if location = target then none else disk.node? location := by
  split
  · rename_i htarget
    have hne : disk.node? target ≠ some .directory := by simp [hfile]
    rw [htarget]
    exact node?_erase_self disk (ne_top_of_not_directory hne)
  · rename_i hother
    exact node?_erase_of_ne disk hother

/-- What stands at every location when a file was written. -/
theorem node?_of_written {disk : Disk} {target : Location}
    (hfree : disk.node? target ≠ some .directory) (content : Bytes) (location : Location) :
    (disk.put target (.file content)).node? location =
      if location = target then some (.file content) else disk.node? location := by
  split
  · rename_i htarget
    rw [htarget]
    exact node?_put_self disk (ne_top_of_not_directory hfree) _
  · rename_i hother
    exact node?_put_of_ne disk hother _

variable {disk grown next : Disk} {path content : Bytes} (hpath : Path.Resolved path)
  (hzero : 0 ∉ path)

include hpath hzero

/-- A file is written where the way is open and no directory stands. -/
theorem exists_writeFile (hfits : Fits path) (hreaches : disk.Reaches (Path.names path))
    (hfree : disk.node? (Path.names path) ≠ some .directory) (content : Bytes) :
    ∃ next, disk.writeFile path content = .ok next := by
  have hlocated := (locate_eq_ok_iff hpath hzero).mpr ⟨hfits, hreaches, rfl⟩
  have hopen : (path.getLast? == some Path.separator) = false := by
    rw [beq_eq_false_iff_ne]
    intro hslash
    rw [hpath.names_eq_nil hslash] at hfree
    exact hfree (node?_top disk)
  rw [writeFile, openForWriting, hlocated]
  cases hnode : disk.node? (Path.names path) with
  | none =>
    simp only [hopen]
    exact ⟨_, rfl⟩
  | some node =>
    cases node with
    | directory => exact absurd hnode hfree
    | file old => exact ⟨_, rfl⟩

/-- A file that the tree holds is found under its path. -/
theorem status_of_holds (hgrounded : Tree.Grounded disk.node? (Path.names path))
    (hholds : Tree.Holds disk.node? path content) : disk.status path = .ok (.file content) := by
  refine (status_eq_ok_iff hpath hzero).mpr ⟨hholds.fits, ?_, hholds.file⟩
  rw [reaches_iff_open]
  have hfile := hholds.file
  rcases List.eq_nil_or_concat (Path.names path) with htop | ⟨init, last, hsplit⟩
  · rw [htop, node?_top] at hfile
    cases hfile
  · rw [hsplit, List.concat_eq_append] at hgrounded hfile ⊢
    rw [List.dropLast_concat]
    exact hgrounded.open (by simp [hfile])

theorem holds_of_status (hstatus : disk.status path = .ok (.file content)) :
    Tree.Holds disk.node? path content := by
  obtain ⟨hfits, -, hfile⟩ := (status_eq_ok_iff hpath hzero).mp hstatus
  exact ⟨hfits, hfile⟩

/-- A file can be written where the directories on the way were made. -/
theorem admits_of_writeFile (hgrows : disk.Grows grown (Path.names path))
    (hwritten : grown.writeFile path content = .ok next) : Tree.Admits disk.node? path := by
  obtain ⟨hfits, hreaches, hfree, -⟩ := writeFile_spec hpath hzero hwritten
  refine ⟨hfits, fun hdirectory => hfree (hgrows.node? hdirectory), fun above habove old hfile => ?_⟩
  have hmade := reaches_iff_open.mp hreaches above habove
  rw [hgrows.node? hfile] at hmade
  cases hmade

/-- What stands at every location when directories were made and a file was written. -/
theorem node?_of_writeFile (hgrows : disk.Grows grown (Path.names path))
    (hwritten : grown.writeFile path content = .ok next) (location : Location) :
    next.node? location =
      if location = Path.names path then some (.file content)
      else if disk.node? location = none ∧ location <+: Path.names path then some .directory
      else disk.node? location := by
  obtain ⟨-, hreaches, hfree, rfl⟩ := writeFile_spec hpath hzero hwritten
  by_cases htarget : location = Path.names path
  · rw [if_pos htarget, htarget]
    exact node?_put_self grown (ne_top_of_not_directory hfree) _
  · rw [if_neg htarget, node?_put_of_ne grown htarget]
    split
    · rename_i hmade
      exact reaches_iff_open.mp hreaches location (Location.prefix_dropLast hmade.2 htarget)
    · rename_i hkept
      rcases hgrows location with heq | ⟨hnone, -, hway, -⟩
      · exact heq
      · exact absurd ⟨hnone, hway⟩ hkept

end Disk

namespace Workspace

/-- Off the log, the workspace is as the scene says. -/
structure Displays (workspace : Workspace) (scene : Scene) : Prop where
  tree : ∀ location, location ∉ workspace.touched [] →
    workspace.disk.node? location = scene.tree location
  accessed : ∀ path, path ∈ Table.keys workspace.accessed ↔ path ∈ scene.accessed

/-- What stands on the disk, the log included, and where files were accessed. -/
def scene (workspace : Workspace) : Scene where
  tree := workspace.disk.node?
  accessed := {path | path ∈ Table.keys workspace.accessed}

theorem displays_scene (workspace : Workspace) : workspace.Displays workspace.scene :=
  ⟨fun _ _ => rfl, fun _ => Iff.rfl⟩

/-- The log is not kept on the way to the path, or at it. -/
def Unlogged (workspace : Workspace) (path : Bytes) : Prop :=
  ∀ location, location <+: Path.names path → location ∉ workspace.touched []

variable {before after : Workspace} {scene : Scene} {path : Bytes}

theorem touched_eq (hsettings : after.settings = before.settings)
    (hcurrent : after.disk.current = before.disk.current) :
    after.touched [] = before.touched [] := by
  ext location
  simp only [touched, Disk.goals, hsettings, Disk.goal_of_current hcurrent]

/-- Where no log file is kept, the log is nowhere. -/
theorem notMem_touched (hfile : before.settings.file = []) (location : Location) :
    location ∉ before.touched [] := by
  rintro (⟨path, hpath, -⟩ | ⟨hset, -⟩)
  · cases hpath
  · exact hset hfile

theorem OnlyLogs.touched_eq (hlogs : before.OnlyLogs after) :
    after.touched [] = before.touched [] :=
  Workspace.touched_eq hlogs.settings hlogs.current

/-- Writing to the log leaves the scene as it is. -/
theorem Displays.of_onlyLogs (hdisplays : before.Displays scene) (hlogs : before.OnlyLogs after) :
    after.Displays scene := by
  refine ⟨fun location hoff => ?_, fun path => ?_⟩
  · rw [hlogs.touched_eq] at hoff
    rw [← hdisplays.tree location hoff]
    apply hlogs.node? location
    rw [or_iff_not_imp_left]
    rintro hset rfl
    exact hoff (.inr ⟨hset, rfl⟩)
  · rw [hlogs.accessed]
    exact hdisplays.accessed path

theorem Unlogged.of_onlyLogs (hoff : before.Unlogged path) (hlogs : before.OnlyLogs after) :
    after.Unlogged path := by
  intro location hway
  rw [hlogs.touched_eq]
  exact hoff location hway

theorem Displays.agrees (hdisplays : before.Displays scene) (hoff : before.Unlogged path) :
    scene.tree.AgreesTo before.disk.node? (Path.names path) :=
  fun location hway => (hdisplays.tree location (hoff location hway)).symm

/-- A hunk that changes the workspace as it changes scenes leaves its scene. -/
theorem Displays.leave {hunk : Hunk} {content : Bytes} (hdisplays : before.Displays scene)
    (hsettings : after.settings = before.settings)
    (hcurrent : after.disk.current = before.disk.current)
    (htree : ∀ location, after.disk.node? location =
      hunk.leaveAt content location (before.disk.node? location))
    (haccessed : ∀ path, path ∈ Table.keys after.accessed ↔
      path ∈ Table.keys before.accessed ∧ path ∉ hunk.removes ∨ path ∈ hunk.writes) :
    after.Displays (hunk.leave content scene) := by
  refine ⟨fun location hoff => ?_, fun path => ?_⟩
  · rw [Workspace.touched_eq hsettings hcurrent] at hoff
    rw [htree, Hunk.tree_leave, hdisplays.tree location hoff]
  · rw [haccessed, Hunk.mem_accessed_leave, hdisplays.accessed]

end Workspace

namespace Step

variable {α : Type} {before : Workspace} {path content : Bytes} {failed : Failure → Workspace → Prop}

/-- A log entry is written before what follows. -/
theorem ensures_logged {done : α → Workspace → Prop} {next : Step α} (level : Log.Level)
    (message : Bytes) (hnext : ∀ after, before.OnlyLogs after → next.Ensures after done failed) :
    (do log level message; next).Ensures before done failed :=
  ensures_bind (hnext _ (before.onlyLogs_log level message))

/-- A file is read if one is there. -/
theorem ensures_readFile_iff {done : Bytes → Workspace → Prop} (action : FileAction)
    (hdone : ∀ content, before.disk.status path = .ok (.file content) → done content before)
    (hfailed : ∀ failure, (∀ content, before.disk.status path ≠ .ok (.file content)) →
      failed failure before) :
    (readFile action path).Ensures before done failed := by
  refine ensures_get ?_
  cases hstatus : before.disk.status path with
  | ok node =>
    cases node with
    | file content => exact ensures_pure (hdone content hstatus)
    | directory => exact ensures_throw (hfailed _ (by simp [hstatus]))
  | error problem => exact ensures_throw (hfailed _ (by simp [hstatus]))

/-- An update has a content if its chunks have a place. -/
theorem ensures_updatedContent_iff {done : Bytes → Workspace → Prop} {chunks : List Chunk}
    (hdone : ∀ updated after, Placement.updateContent content chunks = .ok updated →
      before.OnlyLogs after → done updated after)
    (hfailed : ∀ failure after, (∀ updated, Placement.updateContent content chunks ≠ .ok updated) →
      failed failure after) :
    (updatedContent path content chunks).Ensures before done failed := by
  have hlogs := before.onlyLogs_logAll .debug (Placement.notes (Lines.ofFile content) chunks)
  exact ensures_updatedContent_logged rfl (fun updated hupdated => hdone updated _ hupdated hlogs)
    fun problem hproblem => hfailed _ _ (by simp [hproblem])

/-- The directories on the way to a file are made and the file is written, if the tree admits it. -/
theorem ensures_deliver {done : α → Workspace → Prop} {next : Step α}
    (hpath : Path.Resolved path) (hzero : 0 ∉ path)
    (hgrounded : Tree.Grounded before.disk.node? (Path.names path))
    (hnear : Tree.Near before.disk.node? (Path.names path).dropLast)
    (hdone : ∀ grown written, before.disk.Grows grown (Path.names path) →
      written.current = before.disk.current → grown.writeFile path content = .ok written →
      next.Ensures { before with disk := written } done failed)
    (hfailed : ∀ failure after, ¬ Tree.Admits before.disk.node? path → failed failure after) :
    (do makeParents path; writeFile path content; next).Ensures before done failed := by
  have hgrows : before.disk.Grows (before.disk.createDirectories (Path.parent path)).1
      (Path.names path) := Disk.createDirectories_grows hpath hzero
  have hcurrent := (Disk.createDirectories_keeps ∅ before.disk (Path.parent path)).current
  have hmake : Tree.Admits before.disk.node? path → ∃ grown,
      before.disk.createDirectories (Path.parent path) = (grown, none) ∧
        grown.Reaches (Path.names path) := fun hadmits =>
    Disk.createDirectories_spec hpath hzero hadmits.fits
      (hgrounded.mono (List.dropLast_prefix _)) hadmits.passable hnear
  refine ensures_bind (ensures_get ?_)
  rcases hmade : before.disk.createDirectories (Path.parent path) with ⟨grown, problem?⟩
  rw [hmade] at hgrows hcurrent
  simp only [hmade] at hmake
  refine ensures_bind ?_
  cases problem? with
  | some problem =>
    refine hfailed _ _ fun hadmits => ?_
    obtain ⟨made, heq, -⟩ := hmake hadmits
    cases heq
  | none =>
    refine ensures_bind (ensures_changeDisk (fun written hwritten => ?_) fun problem hproblem => ?_)
    · refine hdone grown written hgrows ?_ hwritten
      obtain ⟨-, -, -, rfl⟩ := Disk.writeFile_spec hpath hzero hwritten
      exact hcurrent
    · refine hfailed _ _ fun hadmits => ?_
      obtain ⟨made, heq, hreaches⟩ := hmake hadmits
      obtain rfl : grown = made := (Prod.mk.inj heq).1
      have hfree : grown.node? (Path.names path) ≠ some .directory := by
        rcases hgrows (Path.names path) with hkept | ⟨-, -, -, hne⟩
        · rw [hkept]
          exact hadmits.free
        · exact absurd rfl hne
      obtain ⟨written, hwritten⟩ := Disk.exists_writeFile hpath hzero hadmits.fits hreaches hfree
        content
      rw [hproblem] at hwritten
      cases hwritten

/-- The step leaves what the hunk turns the scene into, or it fails because the hunk cannot be
applied there. -/
def Enacts (hunk : Hunk) (scene : Scene) (step : Step α) (before : Workspace) : Prop :=
  step.Ensures before (fun _ after => ∃ next, hunk.Turns scene next ∧ after.Displays next)
    fun _ _ => ∀ content, ¬ hunk.Applies scene.tree content

end Step

namespace Hunk

variable {before : Workspace} {scene : Scene} {path old new : Bytes} {destination : Option Bytes}
  {chunks : List Chunk}

theorem applyAdd_enacts {contents : Bytes} (hpath : Path.Resolved path) (hzero : 0 ∉ path)
    (hdisplays : before.Displays scene) (hoff : before.Unlogged path)
    (hprepared : (add path contents).Prepared scene.tree) :
    (applyAdd path contents).Enacts (.add path contents) scene before := by
  refine Step.ensures_logged _ _ fun middle hlogs => ?_
  have hshown := hdisplays.of_onlyLogs hlogs
  have hagrees := hshown.agrees (hoff.of_onlyLogs hlogs)
  refine Step.ensures_deliver hpath hzero
    (hagrees.grounded (hprepared.grounded path List.mem_cons_self))
    ((hagrees.mono (List.dropLast_prefix _)).near (hprepared.near path List.mem_cons_self))
    (fun grown written hgrows hcurrent hwritten => ?_) fun _ _ hrefused content happlies => ?_
  · refine Step.ensures_bind (Step.ensures_setAccessed (Step.ensures_pure ?_))
    have hadmits := hagrees.symm.admits (Disk.admits_of_writeFile hpath hzero hgrows hwritten)
    refine ⟨_, ⟨contents, .add hadmits, rfl⟩, hshown.leave rfl hcurrent (fun location => ?_)
      fun other => ?_⟩
    · rw [Disk.node?_of_writeFile hpath hzero hgrows hwritten]
      simp [leaveAt, removes, writes, makes]
    · rw [Table.mem_keys_insert]
      simp [removes, writes, or_comm]
  · cases happlies with
    | add hadmits => exact hrefused (hagrees.admits hadmits)

theorem applyDelete_enacts (hpath : Path.Resolved path) (hzero : 0 ∉ path)
    (hdisplays : before.Displays scene) (hoff : before.Unlogged path)
    (hprepared : (delete path).Prepared scene.tree) :
    (applyDelete path).Enacts (.delete path) scene before := by
  refine Step.ensures_logged _ _ fun middle hlogs => ?_
  have hshown := hdisplays.of_onlyLogs hlogs
  have hagrees := hshown.agrees (hoff.of_onlyLogs hlogs)
  refine Step.ensures_bind (Step.ensures_readFile_iff _ (fun old hstatus => ?_)
    fun _ hmissing content happlies => ?_)
  · refine Step.ensures_bind (Step.ensures_changeDisk (fun removed hremoved => ?_)
      fun problem hproblem => ?_)
    · refine Step.ensures_bind (Step.ensures_clearAccessed (Step.ensures_pure ?_))
      obtain ⟨-, rfl⟩ := (Disk.removeFile_eq_ok_iff hpath hzero).mp hremoved
      have hholds := Disk.holds_of_status hpath hzero hstatus
      refine ⟨_, ⟨[], .delete (hagrees.symm.holds hholds), rfl⟩,
        hshown.leave rfl rfl (fun location => ?_) fun other => ?_⟩
      · rw [Disk.node?_of_removed hholds.file]
        simp [leaveAt, removes, writes, makes]
      · rw [Table.mem_keys_erase]
        simp [removes, writes]
    · rw [(Disk.removeFile_eq_ok_iff hpath hzero).mpr ⟨⟨old, hstatus⟩, rfl⟩] at hproblem
      cases hproblem
  · cases happlies with
    | delete hholds =>
      exact hmissing _ (Disk.status_of_holds hpath hzero
        (hagrees.grounded (hprepared.grounded path List.mem_cons_self)) (hagrees.holds hholds))

/-- The last part of an update that leaves the file where it is. -/
theorem store_here_enacts (context : Int) (hsound : (update path none chunks).Sound)
    (hdisplays : before.Displays scene) (hholds : scene.tree.Holds path old)
    (hstatus : before.disk.status path = .ok (.file old))
    (hupdated : Placement.updateContent old chunks = .ok new) :
    (store context path none old new).Enacts (.update path none chunks) scene before := by
  obtain ⟨hpath, hzero⟩ := hsound path List.mem_cons_self
  refine Step.ensures_bind (Step.ensures_changeDisk (fun written hwritten => ?_)
    fun problem hproblem => ?_)
  · refine Step.ensures_bind (Step.ensures_setAccessed (Step.ensures_pure ?_))
    obtain ⟨-, -, hfree, rfl⟩ := Disk.writeFile_spec hpath hzero hwritten
    refine ⟨_, ⟨new, .update hholds hupdated (by simp), rfl⟩,
      hdisplays.leave rfl rfl (fun location => ?_) fun other => ?_⟩
    · rw [Disk.node?_of_written hfree]
      simp [leaveAt, removes, writes, makes]
    · rw [Table.mem_keys_insert]
      simp [removes, writes, or_comm]
  · obtain ⟨hfits, hreaches, hfile⟩ := (Disk.status_eq_ok_iff hpath hzero).mp hstatus
    obtain ⟨written, hwritten⟩ := Disk.exists_writeFile hpath hzero hfits hreaches
      (by simp [hfile]) new
    rw [hproblem] at hwritten
    cases hwritten

/-- The last part of an update that moves the file, perhaps to where it is. -/
theorem store_moved_enacts (context : Int) {moved : Bytes}
    (hsound : (update path (some moved) chunks).Sound) (hdisplays : before.Displays scene)
    (hoff : before.Unlogged moved) (hprepared : (update path (some moved) chunks).Prepared scene.tree)
    (hholds : scene.tree.Holds path old) (hstatus : before.disk.status path = .ok (.file old))
    (hupdated : Placement.updateContent old chunks = .ok new) :
    (store context path (some moved) old new).Enacts (.update path (some moved) chunks) scene
      before := by
  obtain ⟨hpath, hzero⟩ := hsound path List.mem_cons_self
  have hmoved : moved ∈ (update path (some moved) chunks).paths :=
    List.mem_cons_of_mem _ List.mem_cons_self
  obtain ⟨htarget, htargetZero⟩ := hsound moved hmoved
  have hagrees := hdisplays.agrees hoff
  refine Step.ensures_deliver htarget htargetZero
    (hagrees.grounded (hprepared.grounded moved hmoved))
    ((hagrees.mono (List.dropLast_prefix _)).near (hprepared.near moved List.mem_cons_self))
    (fun grown written hgrows hcurrent hwritten => ?_) fun _ _ hrefused content happlies => ?_
  · have hadmits := hagrees.symm.admits
      (Disk.admits_of_writeFile htarget htargetZero hgrows hwritten)
    have hturns : (update path (some moved) chunks).Turns scene
        ((update path (some moved) chunks).leave new scene) :=
      ⟨new, .update hholds hupdated fun other hother => Option.some.inj hother ▸ hadmits, rfl⟩
    split
    · rename_i hne
      -- the file that was read is still there, so it can be removed
      obtain ⟨present, hpresent⟩ := Disk.exists_status_of_writeFile htarget htargetZero hpath
        hzero hwritten (hgrows.status hpath hzero hstatus)
      refine Step.ensures_bind (Step.ensures_changeDisk (fun removed hremoved => ?_)
        fun problem hproblem => ?_)
      · refine Step.ensures_bind (Step.ensures_clearAccessed ?_)
        refine Step.ensures_bind (Step.ensures_setAccessed (Step.ensures_pure ?_))
        obtain ⟨-, rfl⟩ := (Disk.removeFile_eq_ok_iff hpath hzero).mp hremoved
        refine ⟨_, hturns, hdisplays.leave rfl hcurrent (fun location => ?_) fun other => ?_⟩
        · rw [Disk.node?_of_removed (Disk.holds_of_status hpath hzero hpresent).file,
            Disk.node?_of_writeFile htarget htargetZero hgrows hwritten]
          simp [leaveAt, removes, writes, makes, hne]
        · rw [Table.mem_keys_insert, Table.mem_keys_erase]
          simp [removes, writes, hne, or_comm]
      · rw [(Disk.removeFile_eq_ok_iff hpath hzero).mpr ⟨⟨present, hpresent⟩, rfl⟩] at hproblem
        cases hproblem
    · rename_i hsame
      rw [not_not] at hsame
      refine Step.ensures_bind (Step.ensures_setAccessed (Step.ensures_pure ?_))
      refine ⟨_, hturns, hdisplays.leave rfl hcurrent (fun location => ?_) fun other => ?_⟩
      · rw [Disk.node?_of_writeFile htarget htargetZero hgrows hwritten]
        simp [leaveAt, removes, writes, makes, hsame]
      · rw [Table.mem_keys_insert]
        simp [removes, writes, hsame, or_comm]
  · cases happlies with
    | update _ _ hadmits => exact hrefused (hagrees.admits (hadmits moved rfl))

/-- The last part of an update, when the file is read and its new content is known. -/
theorem store_enacts (context : Int) (hsound : (update path destination chunks).Sound)
    (hdisplays : before.Displays scene)
    (hoff : ∀ named ∈ (update path destination chunks).paths, before.Unlogged named)
    (hprepared : (update path destination chunks).Prepared scene.tree)
    (hholds : scene.tree.Holds path old)
    (hupdated : Placement.updateContent old chunks = .ok new) :
    (store context path destination old new).Enacts (.update path destination chunks) scene
      before := by
  obtain ⟨hpath, hzero⟩ := hsound path List.mem_cons_self
  have hagrees := hdisplays.agrees (hoff path List.mem_cons_self)
  have hgrounded := hagrees.grounded (hprepared.grounded path List.mem_cons_self)
  have hstatus := Disk.status_of_holds hpath hzero hgrounded (hagrees.holds hholds)
  cases destination with
  | none => exact store_here_enacts context hsound hdisplays hholds hstatus hupdated
  | some moved =>
    exact store_moved_enacts context hsound hdisplays
      (hoff moved (List.mem_cons_of_mem _ List.mem_cons_self)) hprepared hholds hstatus hupdated

theorem applyUpdate_enacts (context : Int) (hsound : (update path destination chunks).Sound)
    (hdisplays : before.Displays scene)
    (hoff : ∀ named ∈ (update path destination chunks).paths, before.Unlogged named)
    (hprepared : (update path destination chunks).Prepared scene.tree) :
    (applyUpdate context path destination chunks).Enacts (.update path destination chunks) scene
      before := by
  obtain ⟨hpath, hzero⟩ := hsound path List.mem_cons_self
  rw [applyUpdate_eq]
  refine Step.ensures_logged _ _ fun middle hlogs => ?_
  have hshown := hdisplays.of_onlyLogs hlogs
  have hagrees := hshown.agrees ((hoff path List.mem_cons_self).of_onlyLogs hlogs)
  have hgrounded := hagrees.grounded (hprepared.grounded path List.mem_cons_self)
  refine Step.ensures_bind (Step.ensures_readFile_iff _ (fun old hstatus => ?_)
    fun _ hmissing content happlies => ?_)
  · have hholds := hagrees.symm.holds (Disk.holds_of_status hpath hzero hstatus)
    refine Step.ensures_bind (Step.ensures_updatedContent_iff (fun new after hupdated hnoted => ?_)
      fun _ _ hunplaced content happlies => ?_)
    · have hboth := hlogs.trans hnoted
      exact store_enacts context hsound (hdisplays.of_onlyLogs hboth)
        (fun other hother => (hoff other hother).of_onlyLogs hboth) hprepared hholds hupdated
    · cases happlies with
      | update hholds' hupdated =>
        obtain rfl := Node.file.inj (Option.some.inj (hholds.file.symm.trans hholds'.file))
        exact hunplaced _ hupdated
  · cases happlies with
    | update hholds =>
      exact hmissing _ (Disk.status_of_holds hpath hzero hgrounded (hagrees.holds hholds))

/-- A hunk does to a workspace what it does to the scene that the workspace displays. -/
theorem apply_enacts (context : Int) {hunk : Hunk} (hsound : hunk.Sound)
    (hdisplays : before.Displays scene) (hoff : ∀ path ∈ hunk.paths, before.Unlogged path)
    (hprepared : hunk.Prepared scene.tree) : (hunk.apply context).Enacts hunk scene before := by
  obtain ⟨hpath, hzero⟩ := hsound hunk.path List.mem_cons_self
  have hown := hoff hunk.path List.mem_cons_self
  cases hunk with
  | add path contents => exact applyAdd_enacts hpath hzero hdisplays hown hprepared
  | delete path => exact applyDelete_enacts hpath hzero hdisplays hown hprepared
  | update path destination chunks =>
    exact applyUpdate_enacts context hsound hdisplays hoff hprepared

end Hunk

end Patchwork
