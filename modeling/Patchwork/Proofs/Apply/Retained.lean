import Mathlib.Data.Set.Insert
import Patchwork.Proofs.Apply.Confined

/-!
# Files that stay files

Writing takes no file away, whatever the file holds afterwards, and neither does making directories;
a file is gone only where one was removed.  So a step of a hunk that removes nothing leaves a file
at every path that led to one.  Main statements: `Disk.Retains.isFile` and `Disk.isFile_writeFile`.

Nothing is asked of the paths, and the log may be kept in a file, which may be any of them.
-/

namespace Patchwork

namespace Disk

/-- The path leads to a file. -/
def IsFile (disk : Disk) (path : Bytes) : Prop :=
  ∃ content, disk.status path = .ok (.file content)

instance (disk : Disk) (path : Bytes) : Decidable (disk.IsFile path) :=
  match hstatus : disk.status path with
  | .ok (.file content) => .isTrue ⟨content, hstatus⟩
  | .ok .directory => .isFalse fun ⟨_, hfile⟩ => nomatch hstatus.symm.trans hfile
  | .error _ => .isFalse fun ⟨_, hfile⟩ => nomatch hstatus.symm.trans hfile

/-- Directories stay where they are, and so do the files that stand at none of the lost locations,
though they may hold something else. -/
structure Retains (lost : Set Location) (before after : Disk) : Prop where
  current : after.current = before.current
  directory : ∀ {location : Location}, before.node? location = some .directory →
    after.node? location = some .directory
  file : ∀ {location : Location} {content : Bytes}, location ∉ lost →
    before.node? location = some (.file content) → ∃ held, after.node? location = some (.file held)

section Retaining

variable {lost : Set Location} {before middle after disk next : Disk} {location : Location}
  {path content : Bytes}

theorem Retains.refl (lost : Set Location) (disk : Disk) : Retains lost disk disk :=
  ⟨rfl, id, fun {_ content} _ hfile => ⟨content, hfile⟩⟩

theorem Retains.trans (hfirst : Retains lost before middle) (hsecond : Retains lost middle after) :
    Retains lost before after where
  current := hsecond.current.trans hfirst.current
  directory hdirectory := hsecond.directory (hfirst.directory hdirectory)
  file hspared hfile := by
    obtain ⟨held, hheld⟩ := hfirst.file hspared hfile
    exact hsecond.file hspared hheld

theorem Retains.mono {more : Set Location} (hretains : Retains lost before after)
    (hsubset : lost ⊆ more) : Retains more before after :=
  ⟨hretains.current, hretains.directory,
    fun hspared hfile => hretains.file (fun hlost => hspared (hsubset hlost)) hfile⟩

theorem Keeps.retains (hkeeps : Keeps lost before after) : Retains lost before after :=
  ⟨hkeeps.current, hkeeps.node? (.inl rfl),
    fun {_ content} hspared hfile => ⟨content, hkeeps.node? (.inr hspared) hfile⟩⟩

/-- A path still leads to a file, unless it leads to a lost location. -/
theorem Retains.isFile (hretains : Retains lost before after) (hfile : before.IsFile path)
    (hspared : before.goal path ∉ lost) : after.IsFile path := by
  obtain ⟨content, hstatus⟩ := hfile
  have hlocated := locate_of_status hstatus
  obtain ⟨-, hdirectory | hnode⟩ := locate_eq_ok hlocated
  · cases hdirectory
  · obtain ⟨held, hheld⟩ := hretains.file hspared hnode.symm
    exact ⟨held, status_of_directories hretains.current hretains.directory hlocated nofun hheld⟩

/-- A file can be put where no directory stands, and takes no other one away. -/
theorem retains_put_file (hnot : disk.node? location ≠ some .directory) (content : Bytes) :
    Retains ∅ disk (disk.put location (.file content)) where
  current := rfl
  directory {other} hdirectory := by
    rw [node?_put_of_ne, hdirectory]
    rintro rfl
    exact hnot hdirectory
  file {other held} _ hfile := by
    by_cases hsame : other = location
    · subst hsame
      exact ⟨content, node?_put_self disk (ne_top_of_not_directory hnot) _⟩
    · exact ⟨held, by rw [node?_put_of_ne disk hsame, hfile]⟩

theorem writeFile_retains (hwritten : disk.writeFile path content = .ok next) :
    Retains ∅ disk next := by
  obtain ⟨present, hopened, rfl⟩ := writeFile_eq_ok hwritten
  exact retains_put_file (openForWriting_eq_ok hopened).2 _

theorem appendFile_retains (hwritten : disk.appendFile path content = .ok next) :
    Retains ∅ disk next := by
  obtain ⟨present, hopened, rfl⟩ := appendFile_eq_ok hwritten
  exact retains_put_file (openForWriting_eq_ok hopened).2 _

/-- What was written is a file. -/
theorem isFile_writeFile (hwritten : disk.writeFile path content = .ok next) : next.IsFile path := by
  obtain ⟨present, hopened, rfl⟩ := writeFile_eq_ok hwritten
  obtain ⟨standing, hlocated, hstanding⟩ := locate_of_openForWriting hopened
  obtain ⟨-, hnot⟩ := openForWriting_eq_ok hopened
  have hretains := retains_put_file hnot content
  exact ⟨content, status_of_directories hretains.current hretains.directory hlocated hstanding
    (node?_put_self disk (ne_top_of_not_directory hnot) _)⟩

theorem removeFile_retains (hremoved : disk.removeFile path = .ok next) :
    Retains {disk.goal path} disk next :=
  (removeFile_keeps (Set.mem_singleton _) hremoved).retains

theorem goal_ne_top_of_removeFile (hremoved : disk.removeFile path = .ok next) :
    disk.goal path ≠ [] :=
  ne_top_of_not_directory (removeFile_eq_ok hremoved).1

end Retaining

end Disk

namespace Workspace

variable {before middle after : Workspace}

/-- No file has gone, and the times of access are the same. -/
structure Gains (before after : Workspace) : Prop where
  retains : before.disk.Retains ∅ after.disk
  accessed : after.accessed = before.accessed
  now : after.now = before.now

theorem Gains.refl (workspace : Workspace) : Gains workspace workspace :=
  ⟨.refl ∅ workspace.disk, rfl, rfl⟩

theorem Gains.trans (hfirst : Gains before middle) (hsecond : Gains middle after) :
    Gains before after :=
  ⟨hfirst.retains.trans hsecond.retains, hsecond.accessed.trans hfirst.accessed,
    hsecond.now.trans hfirst.now⟩

theorem gains_of_retains {disk : Disk} (hretains : before.disk.Retains ∅ disk) :
    Gains before { before with disk } :=
  ⟨hretains, rfl, rfl⟩

/-- Writing to the log takes no file away. -/
theorem gains_log (workspace : Workspace) (level : Log.Level) (message : Bytes) :
    Gains workspace (workspace.log level message) := by
  obtain ⟨heard, console, heq | ⟨-, disk, happended, heq⟩⟩ := workspace.log_cases level message
  · rw [heq]
    exact ⟨.refl ∅ workspace.disk, rfl, rfl⟩
  · rw [heq]
    exact ⟨Disk.appendFile_retains happended, rfl, rfl⟩

theorem gains_logAll (workspace : Workspace) (level : Log.Level) (messages : List Bytes) :
    Gains workspace (workspace.logAll level messages) :=
  logAll_of_log Gains.refl Gains.trans gains_log workspace level messages

end Workspace

namespace Step

variable {α β : Type} {before : Workspace}

/-- Whatever comes of it, the step takes no file away and leaves the times of access as they are. -/
def Gaining (step : Step α) : Prop :=
  ∀ before : Workspace, step.Ensures before (fun _ after => before.Gains after)
    fun _ after => before.Gains after

/-- A step that takes nothing away comes before what follows. -/
theorem Gaining.ensures_bind {step : Step β} {next : β → Step α} {done : α → Workspace → Prop}
    {failed : Failure → Workspace → Prop} (hstep : step.Gaining)
    (hnext : ∀ result middle, before.Gains middle → (next result).Ensures middle done failed)
    (hfailed : ∀ failure middle, before.Gains middle → failed failure middle) :
    (step >>= next).Ensures before done failed :=
  Step.ensures_bind ((hstep before).imp hnext hfailed)

theorem gaining_log (level : Log.Level) (message : Bytes) : (log level message).Gaining :=
  fun before => before.gains_log level message

theorem gaining_readFile (action : FileAction) (path : Bytes) : (readFile action path).Gaining :=
  fun before => ensures_readFile action (fun _ _ => .refl before) fun _ _ => .refl before

theorem gaining_makeParents (path : Bytes) : (makeParents path).Gaining := by
  intro before
  have hgains := Workspace.gains_of_retains
    (Disk.createDirectories_keeps ∅ before.disk (Path.parent path)).retains
  exact ensures_makeParents_made rfl (fun _ => hgains) fun _ _ => hgains

end Step

end Patchwork
