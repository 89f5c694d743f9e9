import Patchwork.Apply
import Patchwork.Proofs.Disk

/-!
# What steps ensure

A step is described by what holds of its result and the workspace it leaves, and by what holds
of its failure and the workspace it leaves then.  There is one lemma for every way of making a
step, so that the steps of a hunk are read one after another.  The log is kept off the disk
throughout: no log file is set.
-/

namespace Patchwork

namespace Bytes

theorem untilZero_append_ne_nil {opening : Bytes} (hopening : untilZero opening ≠ [])
    (rest : Bytes) : untilZero (opening ++ rest) ≠ [] := by
  rw [untilZero, List.takeWhile_append]
  split
  · exact List.append_ne_nil_of_left_ne_nil
      (fun hnil => hopening (by rw [hnil]; rfl)) _
  · exact hopening

end Bytes

namespace Failure

theorem message_file_ne_nil (action : FileAction) (path : Bytes) (problem : OsError) :
    (file action path problem).message ≠ [] := by
  rw [message, description, List.append_assoc, List.append_assoc]
  · refine Bytes.untilZero_append_ne_nil ?_ _
    cases action <;> decide
  · exact nofun

theorem message_unplaced_ne_nil (path : Bytes) (problem : Placement.Error) :
    (unplaced path problem).message ≠ [] := by
  cases problem with
  | anchorNotFound | linesNotFound =>
    refine Bytes.untilZero_append_ne_nil (Bytes.untilZero_append_ne_nil
      (Bytes.untilZero_append_ne_nil ?_ _) _) _
    decide

theorem message_directoryRead_ne_nil : directoryRead.message ≠ [] := by
  decide

end Failure

namespace Workspace

variable {workspace : Workspace}

/-- Without a log file, an entry reaches only the console and the listener. -/
theorem log_eq (hlog : workspace.settings.file = []) (level : Log.Level) (message : Bytes) :
    ∃ heard console, workspace.log level message = { workspace with heard, console } := by
  obtain ⟨heard, console, heq | ⟨hset, -⟩⟩ := workspace.log_cases level message
  · exact ⟨heard, console, heq⟩
  · exact absurd hlog hset

theorem logAll_eq (hlog : workspace.settings.file = []) (level : Log.Level)
    (messages : List Bytes) :
    ∃ heard console, workspace.logAll level messages = { workspace with heard, console } := by
  induction messages generalizing workspace with
  | nil => exact ⟨_, _, rfl⟩
  | cons message messages ih =>
    obtain ⟨heard, console, heq⟩ := log_eq hlog level message
    rw [logAll, List.foldl_cons, heq]
    exact ih hlog

end Workspace

namespace Step

variable {α β : Type} {before : Workspace}

/-- Run on a workspace, the step ends in a result and a workspace that `done` holds of, or in a
failure and a workspace that `failed` holds of. -/
def Ensures (step : Step α) (before : Workspace) (done : α → Workspace → Prop)
    (failed : Failure → Workspace → Prop) : Prop :=
  match step.run before with
  | (.ok result, after) => done result after
  | (.error failure, after) => failed failure after

variable {done : α → Workspace → Prop} {failed : Failure → Workspace → Prop}

theorem ensures_pure {result : α} (hdone : done result before) :
    (pure result : Step α).Ensures before done failed :=
  hdone

theorem run_bind {σ : Type} (step : ExceptT Failure (StateM σ) β)
    (next : β → ExceptT Failure (StateM σ) α) (before : σ) :
    (step >>= next).run before =
      match step.run before with
      | (.ok result, middle) => (next result).run middle
      | (.error failure, middle) => (.error failure, middle) := by
  change (match step.run before with
    | (result, middle) => (ExceptT.bindCont next result : StateM σ _) middle) = _
  rcases step.run before with ⟨failure | result, middle⟩
  · rfl
  · rfl

/-- Whatever the step is run on, its result is good, if it has one. -/
def Yields (step : Step α) (good : α → Prop) : Prop :=
  ∀ (before : Workspace) (result : α), (step.run before).1 = .ok result → good result

section Yields

variable {good : α → Prop}

theorem yields_pure {result : α} (hresult : good result) : (pure result : Step α).Yields good := by
  intro before other hran
  obtain rfl := Except.ok.inj hran
  exact hresult

theorem yields_throw (failure : Failure) : (throw failure : Step α).Yields good :=
  fun _ _ hran => nomatch hran

theorem yields_bind {step : Step β} {next : β → Step α} {between : β → Prop}
    (hstep : step.Yields between) (hnext : ∀ result, between result → (next result).Yields good) :
    (step >>= next).Yields good := by
  intro before result hran
  rw [run_bind] at hran
  rcases hfirst : step.run before with ⟨failure | first, middle⟩
  · rw [hfirst] at hran
    cases hran
  · rw [hfirst] at hran
    exact hnext first (hstep before first (by rw [hfirst])) middle result hran

/-- What comes last alone decides whether a result is good. -/
theorem yields_last {step : Step β} {next : β → Step α}
    (hnext : ∀ result, (next result).Yields good) : (step >>= next).Yields good :=
  yields_bind (fun _ _ _ => trivial) fun result (_ : True) => hnext result

end Yields

theorem ensures_bind {step : Step β} {next : β → Step α}
    (hstep : step.Ensures before
      (fun result middle => (next result).Ensures middle done failed) failed) :
    (step >>= next).Ensures before done failed := by
  rw [Ensures] at hstep ⊢
  rw [run_bind]
  rcases hran : step.run before with ⟨failure | result, middle⟩
  · simpa only [hran] using hstep
  · simpa only [hran, Ensures] using hstep

theorem ensures_throw {failure : Failure} (hfailed : failed failure before) :
    (throw failure : Step α).Ensures before done failed :=
  hfailed

/-- What is there before a step is what `get` gives. -/
theorem ensures_get {next : Workspace → Step α} (hnext : (next before).Ensures before done failed) :
    ((get : Step Workspace) >>= next).Ensures before done failed :=
  ensures_bind hnext

section Primitives

variable {done : Unit → Workspace → Prop}

theorem ensures_log (hlog : before.settings.file = []) (level : Log.Level) (message : Bytes)
    (hdone : ∀ heard console, done () { before with heard, console }) :
    (log level message).Ensures before done failed := by
  obtain ⟨heard, console, heq⟩ := Workspace.log_eq hlog level message
  change done () (before.log level message)
  rw [heq]
  exact hdone heard console

theorem ensures_setAccessed {path : Bytes}
    (hdone : done ()
      { before with accessed := Table.insert path before.now before.accessed }) :
    (setAccessed path).Ensures before done failed :=
  hdone

theorem ensures_clearAccessed {path : Bytes}
    (hdone : done () { before with accessed := Table.erase path before.accessed }) :
    (clearAccessed path).Ensures before done failed :=
  hdone

theorem ensures_changeDisk {describe : OsError → Failure} {change : Disk → Except OsError Disk}
    (hdone : ∀ disk, change before.disk = .ok disk → done () { before with disk })
    (hfailed : ∀ problem, change before.disk = .error problem → failed (describe problem) before) :
    (changeDisk describe change).Ensures before done failed := by
  refine ensures_get ?_
  cases hchange : change before.disk with
  | ok disk => exact hdone disk hchange
  | error problem => exact ensures_throw (hfailed problem hchange)

end Primitives

section Files

variable {path content : Bytes}

theorem ensures_readFile {done : Bytes → Workspace → Prop} (action : FileAction)
    (hdone : ∀ content, before.disk.status path = .ok (.file content) → done content before)
    (hfailed : ∀ failure, failure.message ≠ [] → failed failure before) :
    (readFile action path).Ensures before done failed := by
  refine ensures_get ?_
  cases hstatus : before.disk.status path with
  | ok node =>
    cases node with
    | file content => exact ensures_pure (hdone content hstatus)
    | directory => exact ensures_throw (hfailed _ Failure.message_directoryRead_ne_nil)
  | error problem => exact ensures_throw (hfailed _ (Failure.message_file_ne_nil _ _ _))

theorem ensures_writeFile {done : Unit → Workspace → Prop}
    (hdone : ∀ disk, before.disk.writeFile path content = .ok disk →
      done () { before with disk })
    (hfailed : ∀ failure, failure.message ≠ [] → failed failure before) :
    (writeFile path content).Ensures before done failed :=
  ensures_changeDisk hdone fun _ _ => hfailed _ (Failure.message_file_ne_nil _ _ _)

theorem ensures_removeFile {done : Unit → Workspace → Prop} (action : FileAction)
    (hdone : ∀ disk, before.disk.removeFile path = .ok disk → done () { before with disk })
    (hfailed : ∀ failure problem, before.disk.removeFile path = .error problem →
      failure.message ≠ [] → failed failure before) :
    (removeFile action path).Ensures before done failed :=
  ensures_changeDisk hdone fun problem hproblem =>
    hfailed _ problem hproblem (Failure.message_file_ne_nil _ _ _)

/-- The directories are made as far as they can be. -/
theorem ensures_makeParents_made {done : Unit → Workspace → Prop} {grown : Disk}
    {problem? : Option OsError}
    (hmade : before.disk.createDirectories (Path.parent path) = (grown, problem?))
    (hdone : problem? = none → done () { before with disk := grown })
    (hfailed : ∀ problem, problem? = some problem →
      failed (.file .makeParents path problem) { before with disk := grown }) :
    (makeParents path).Ensures before done failed := by
  refine ensures_get ?_
  rw [hmade]
  refine ensures_bind ?_
  cases problem? with
  | none => exact hdone rfl
  | some problem => exact hfailed problem rfl

theorem ensures_makeParents {done : Unit → Workspace → Prop} (hpath : Path.Resolved path)
    (hzero : 0 ∉ path)
    (hdone : ∀ disk, before.disk.Grows disk (Path.names path) → done () { before with disk })
    (hfailed : ∀ failure disk, before.disk.Grows disk (Path.names path) →
      failure.message ≠ [] → failed failure { before with disk }) :
    (makeParents path).Ensures before done failed := by
  have hgrows : before.disk.Grows (before.disk.createDirectories (Path.parent path)).1
      (Path.names path) := Disk.createDirectories_grows hpath hzero
  exact ensures_makeParents_made rfl (fun _ => hdone _ hgrows)
    fun _ _ => hfailed _ _ hgrows (Failure.message_file_ne_nil _ _ _)

end Files

end Step

end Patchwork
