import Patchwork.Proofs.Apply.Searches
import Patchwork.Proofs.Frame

/-!
# Steps that write nothing but the log

Until a patch is applied, files are only looked at: their contents and the times at which they were
accessed stay the same, whatever comes of the steps.  Main statement: `Patch.rehearse_quiet`.
-/

namespace Patchwork

namespace Workspace

variable {before middle after : Workspace}

/-- Nothing has changed but the log: its file, the console and what the listener heard. -/
structure OnlyLogs (before after : Workspace) : Prop where
  accessed : after.accessed = before.accessed
  settings : after.settings = before.settings
  current : after.disk.current = before.disk.current
  node? : ∀ location,
    before.settings.file = [] ∨ location ≠ before.disk.goal before.settings.file →
      after.disk.node? location = before.disk.node? location
  /-- Where no log file is kept, the disk is the same throughout. -/
  unlogged : before.settings.file = [] → after.disk = before.disk

namespace OnlyLogs

theorem refl (workspace : Workspace) : OnlyLogs workspace workspace :=
  ⟨rfl, rfl, rfl, fun _ _ => rfl, fun _ => rfl⟩

theorem trans (hfirst : OnlyLogs before middle) (hsecond : OnlyLogs middle after) :
    OnlyLogs before after where
  accessed := hsecond.accessed.trans hfirst.accessed
  settings := hsecond.settings.trans hfirst.settings
  current := hsecond.current.trans hfirst.current
  node? location hspared := by
    have hmiddle : middle.settings.file = [] ∨
        location ≠ middle.disk.goal middle.settings.file := by
      rwa [hfirst.settings, Disk.goal_of_current hfirst.current]
    exact (hsecond.node? location hmiddle).trans (hfirst.node? location hspared)
  unlogged hfile := by
    have hmiddle : middle.settings.file = [] := by rw [hfirst.settings, hfile]
    exact (hsecond.unlogged hmiddle).trans (hfirst.unlogged hfile)

end OnlyLogs

theorem onlyLogs_log (workspace : Workspace) (level : Log.Level) (message : Bytes) :
    OnlyLogs workspace (workspace.log level message) := by
  obtain ⟨heard, console, heq | ⟨hset, disk, happended, heq⟩⟩ := workspace.log_cases level message
  · rw [heq]
    exact ⟨rfl, rfl, rfl, fun _ _ => rfl, fun _ => rfl⟩
  · obtain ⟨present, -, rfl⟩ := Disk.appendFile_eq_ok happended
    rw [heq]
    exact {
      accessed := rfl
      settings := rfl
      current := rfl
      node? := fun other hspared => Disk.node?_put_of_ne _ (hspared.resolve_left hset) _
      unlogged := fun hfile => absurd hfile hset }

theorem onlyLogs_logAll (workspace : Workspace) (level : Log.Level) (messages : List Bytes) :
    OnlyLogs workspace (workspace.logAll level messages) :=
  logAll_of_log OnlyLogs.refl OnlyLogs.trans onlyLogs_log workspace level messages

end Workspace

namespace Step

variable {α β : Type}

/-- Whatever comes of it, the step writes nothing but the log. -/
def Quiet (step : Step α) : Prop :=
  ∀ before : Workspace, before.OnlyLogs (step.run before).2

theorem quiet_pure (result : α) : (pure result : Step α).Quiet :=
  fun before => .refl before

theorem quiet_throw (failure : Failure) : (throw failure : Step α).Quiet :=
  fun before => .refl before

theorem quiet_bind {step : Step β} {next : β → Step α} (hstep : step.Quiet)
    (hnext : ∀ result, (next result).Quiet) : (step >>= next).Quiet := by
  intro before
  have hfirst := hstep before
  rw [run_bind]
  rcases hran : step.run before with ⟨failure | result, middle⟩
  · rw [hran] at hfirst
    exact hfirst
  · rw [hran] at hfirst
    exact hfirst.trans (hnext result middle)

theorem quiet_get : (get : Step Workspace).Quiet :=
  fun before => .refl before

theorem quiet_readFile (action : FileAction) (path : Bytes) : (readFile action path).Quiet := by
  apply quiet_bind quiet_get
  intro workspace
  split
  · exact quiet_pure _
  · exact quiet_throw _
  · exact quiet_throw _

theorem quiet_updatedContent (path content : Bytes) (chunks : List Chunk) :
    (updatedContent path content chunks).Quiet := by
  intro before
  rw [run_updatedContent]
  exact before.onlyLogs_logAll .debug _

end Step

theorem Hunk.rehearse_quiet (hunk : Hunk) : hunk.rehearse.Quiet := by
  cases hunk with
  | add | delete => exact Step.quiet_pure ()
  | update path destination chunks =>
    apply Step.quiet_bind (Step.quiet_readFile _ _)
    intro content
    apply Step.quiet_bind (Step.quiet_updatedContent _ _ _)
    exact fun _ => Step.quiet_pure ()

namespace Patch

theorem forM_rehearse_quiet (hunks : List Hunk) : (hunks.forM Hunk.rehearse).Quiet := by
  induction hunks with
  | nil => exact Step.quiet_pure ()
  | cons hunk hunks ih =>
    apply Step.quiet_bind hunk.rehearse_quiet
    exact fun _ => ih

/-- A rehearsal writes nothing but the log, whether it ends well or not. -/
theorem rehearse_quiet (patch : Patch) : patch.rehearse.Quiet := by
  apply Step.quiet_bind Step.quiet_get
  intro workspace
  split
  · exact Step.quiet_throw _
  · exact forM_rehearse_quiet patch

theorem logFailure_onlyLogs (failure : Failure) (before : Workspace) :
    before.OnlyLogs (logFailure failure before) :=
  before.onlyLogs_log .error _

end Patch

end Patchwork
