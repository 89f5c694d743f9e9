import Patchwork.Proofs.Apply.Searches
import Patchwork.Proofs.Frame

/-!
# What the steps of a hunk leave alone

A hunk touches what stands at its own paths, and the log; everything else is left alone, whether
the hunk succeeds or fails.  Once it has read its file and placed its chunks, only writing and
removing can fail.  Main statements: `Hunk.apply_confined` and `Hunk.apply_outcome`.

The log may go to a file here, unlike where results are accounted for.
-/

namespace Patchwork

/-- Whether an action changes a file or a directory. -/
def FileAction.writes : FileAction → Bool
  | readForUpdate | readForDeletion => false
  | write | makeParents | delete | removeOriginal => true

/-- A file could not be written or removed at one of the paths, or the directories on the way to
it could not be made. -/
def Failure.IsWriteAt (paths : List Bytes) (failure : Failure) : Prop :=
  ∃ action path problem, action.writes = true ∧ path ∈ paths ∧
    failure = .file action path problem

namespace Step

variable {α β : Type} {before : Workspace} {paths : List Bytes} {path content : Bytes}
  {failures : Failure → Prop} {level : Log.Level}

theorem Ensures.imp {step : Step α} {done done' : α → Workspace → Prop}
    {failed failed' : Failure → Workspace → Prop} (hstep : step.Ensures before done failed)
    (hdone : ∀ result after, done result after → done' result after)
    (hfailed : ∀ failure after, failed failure after → failed' failure after) :
    step.Ensures before done' failed' := by
  rw [Ensures] at hstep ⊢
  rcases hran : step.run before with ⟨failure | result, after⟩
  · rw [hran] at hstep
    exact hfailed failure after hstep
  · rw [hran] at hstep
    exact hdone result after hstep

theorem Ensures.and {step : Step α} {done done' : α → Workspace → Prop}
    {failed failed' : Failure → Workspace → Prop} (hfirst : step.Ensures before done failed)
    (hsecond : step.Ensures before done' failed') :
    step.Ensures before (fun result after => done result after ∧ done' result after)
      fun failure after => failed failure after ∧ failed' failure after := by
  rw [Ensures] at hfirst hsecond ⊢
  rcases hran : step.run before with ⟨failure | result, after⟩
  · rw [hran] at hfirst hsecond
    exact ⟨hfirst, hsecond⟩
  · rw [hran] at hfirst hsecond
    exact ⟨hfirst, hsecond⟩

/-- What is ensured under a condition is ensured as an implication. -/
theorem ensures_imp {condition : Prop} {step : Step α} {done : α → Workspace → Prop}
    {failed : Failure → Workspace → Prop} (hstep : condition → step.Ensures before done failed) :
    step.Ensures before (fun result after => condition → done result after)
      fun failure after => condition → failed failure after := by
  simp only [Ensures] at hstep ⊢
  rcases hran : step.run before with ⟨failure | result, after⟩
  · rw [hran] at hstep
    exact hstep
  · rw [hran] at hstep
    exact hstep

/-- Whatever comes of it, the step leaves alone what stands elsewhere than at the given paths, and
it fails in no other ways than the given ones. -/
def Confined (paths : List Bytes) (failures : Failure → Prop) (step : Step α) : Prop :=
  ∀ before : Workspace, step.Ensures before (fun _ after => before.Spares paths after)
    (fun failure after => before.Spares paths after ∧ failures failure)

theorem confined_pure (result : α) : (pure result : Step α).Confined paths failures :=
  fun before => ensures_pure (.refl paths before)

theorem confined_bind {step : Step β} {next : β → Step α} (hstep : step.Confined paths failures)
    (hnext : ∀ result, (next result).Confined paths failures) :
    (step >>= next).Confined paths failures := by
  intro before
  refine ensures_bind ((hstep before).imp (fun result middle hfirst => ?_) fun _ _ => id)
  exact (hnext result middle).imp (fun _ _ hsecond => hfirst.trans hsecond)
    fun _ _ hsecond => ⟨hfirst.trans hsecond.1, hsecond.2⟩

theorem Confined.imp {more : Failure → Prop} {step : Step α}
    (hstep : step.Confined paths failures)
    (hfailures : ∀ failure, failures failure → more failure) : step.Confined paths more :=
  fun before => (hstep before).imp (fun _ _ => id) fun failure _ hfailed =>
    ⟨hfailed.1, hfailures failure hfailed.2⟩

section Primitives

theorem confined_log (message : Bytes) : (log level message).Confined paths failures :=
  fun before => ((before.spares_log level message).mono (List.nil_subset paths) :)

theorem confined_setAccessed (path : Bytes) : (setAccessed path).Confined paths failures :=
  fun before => ensures_setAccessed ⟨.refl _ before.disk, rfl⟩

theorem confined_clearAccessed (path : Bytes) : (clearAccessed path).Confined paths failures :=
  fun before => ensures_clearAccessed ⟨.refl _ before.disk, rfl⟩

theorem confined_readFile (action : FileAction) (path : Bytes) :
    (readFile action path).Confined paths fun _ => True :=
  fun before => ensures_readFile action (fun _ _ => .refl paths before)
    fun _ _ => ⟨.refl paths before, trivial⟩

theorem confined_changeDisk {describe : OsError → Failure} {change : Disk → Except OsError Disk}
    (hkeeps : ∀ disk next (touched : Set Location), disk.goal path ∈ touched →
      change disk = .ok next → disk.Keeps touched next)
    (hpath : path ∈ paths) (hfailures : ∀ problem, failures (describe problem)) :
    (changeDisk describe change).Confined paths failures := by
  intro before
  refine ensures_changeDisk (fun disk hchanged => ?_) fun problem _ => ?_
  · exact Workspace.spares_of_keeps
      (hkeeps _ _ _ (before.goal_mem_touched hpath) hchanged)
  · exact ⟨.refl paths before, hfailures problem⟩

theorem confined_writeFile (hpath : path ∈ paths) (content : Bytes) :
    (writeFile path content).Confined paths (Failure.IsWriteAt paths) :=
  confined_changeDisk (fun _ _ _ => Disk.writeFile_keeps) hpath
    fun problem => ⟨.write, path, problem, rfl, hpath, rfl⟩

theorem confined_removeFile {action : FileAction} (haction : action.writes = true)
    (hpath : path ∈ paths) :
    (removeFile action path).Confined paths (Failure.IsWriteAt paths) :=
  confined_changeDisk (fun _ _ _ => Disk.removeFile_keeps) hpath
    fun problem => ⟨action, path, problem, haction, hpath, rfl⟩

theorem confined_makeParents (hpath : path ∈ paths) :
    (makeParents path).Confined paths (Failure.IsWriteAt paths) := by
  intro before
  have hkeeps := Disk.createDirectories_keeps (before.touched paths) before.disk (Path.parent path)
  exact ensures_makeParents_made rfl (fun _ => Workspace.spares_of_keeps hkeeps) fun problem _ =>
    ⟨Workspace.spares_of_keeps hkeeps, .makeParents, path, problem, rfl, hpath, rfl⟩

/-- A file that is there is read. -/
theorem ensures_readFile_of_status {done : Bytes → Workspace → Prop}
    {failed : Failure → Workspace → Prop} (action : FileAction)
    (hstatus : before.disk.status path = .ok (.file content)) (hdone : done content before) :
    (readFile action path).Ensures before done failed := by
  refine ensures_get ?_
  rw [hstatus]
  exact ensures_pure hdone

/-- The chunks are placed, or what is in their way is said; only the log is written. -/
theorem ensures_place {done : Bytes → Workspace → Prop} {failed : Failure → Workspace → Prop}
    {chunks : List Chunk}
    (hdone : ∀ updated after, Placement.updateContent content chunks = .ok updated →
      before.Spares [] after → done updated after)
    (hfailed : ∀ problem after, Placement.updateContent content chunks = .error problem →
      before.Spares [] after → failed (.unplaced path problem) after) :
    (updatedContent path content chunks).Ensures before done failed := by
  have hspares := before.spares_logAll .debug (Placement.notes (Lines.ofFile content) chunks)
  exact ensures_updatedContent_logged rfl (fun updated hupdated => hdone updated _ hupdated hspares)
    fun problem hproblem => hfailed problem _ hproblem hspares

theorem confined_updatedContent (path content : Bytes) (chunks : List Chunk) :
    (updatedContent path content chunks).Confined paths fun _ => True :=
  fun _ => ensures_place (fun _ _ _ hspares => hspares.mono (List.nil_subset paths))
    fun _ _ _ hspares => ⟨hspares.mono (List.nil_subset paths), trivial⟩

end Primitives

end Step

namespace Hunk

/-- The path of the file that a hunk reads. -/
def source? : Hunk → Option Bytes
  | add _ _ => none
  | delete path | update path _ _ => some path

/-- What stands in the way of an update: a chunk that has no place in the file. -/
def obstacle? (disk : Disk) : Hunk → Option Failure
  | add _ _ | delete _ => none
  | update path _ chunks =>
    match disk.status path with
    | .ok (.file content) =>
      match Placement.updateContent content chunks with
      | .ok _ => none
      | .error problem => some (.unplaced path problem)
    | _ => none

/-- The last part of an update: the new content is written, and a file that was moved is removed
where it stood. -/
def store (context : Int) (path : Bytes) (destination : Option Bytes)
    (oldContent newContent : Bytes) : Step Change := do
  let target := destination.getD path
  let unifiedDiff := Diff.unified path target oldContent newContent context
  match destination with
  | some moved =>
    Step.makeParents moved
    Step.writeFile moved newContent
    if moved ≠ path then
      Step.removeFile .removeOriginal path
      Step.clearAccessed path
  | none => Step.writeFile path newContent
  Step.setAccessed target
  pure { kind := .update, path, oldContent, newContent, unifiedDiff, destination }

section Kinds

variable {before : Workspace} {path : Bytes} {hunk : Hunk}

theorem check_eq_ok_iff {disk : Disk} :
    hunk.check disk = .ok () ↔
      ∀ path ∈ hunk.source?, ∃ content, disk.status path = .ok (.file content) := by
  have htarget : ∀ use path, check.checkTarget disk use path = .ok () ↔
      ∃ content, disk.status path = .ok (.file content) := by
    intro use path
    rw [check.checkTarget]
    split <;> simp_all
  cases hunk with
  | add => simp [check, source?]
  | delete | update => simp [check, source?, htarget]

theorem source?_subset_paths (hpath : path ∈ hunk.source?) : path ∈ hunk.paths := by
  cases hunk with
  | add => cases hpath
  | delete | update =>
    obtain rfl := Option.some.inj hpath
    exact List.mem_cons_self

theorem store_confined (context : Int) (path : Bytes) (destination : Option Bytes)
    (oldContent newContent : Bytes) :
    (store context path destination oldContent newContent).Confined
      (path :: destination.toList) (Failure.IsWriteAt (path :: destination.toList)) := by
  cases destination with
  | none =>
    apply Step.confined_bind (Step.confined_writeFile List.mem_cons_self _)
    intro _
    apply Step.confined_bind (Step.confined_setAccessed _)
    exact fun _ => Step.confined_pure _
  | some moved =>
    have hmoved : moved ∈ path :: (some moved).toList := List.mem_cons_of_mem _ List.mem_cons_self
    apply Step.confined_bind (Step.confined_makeParents hmoved)
    intro _
    apply Step.confined_bind (Step.confined_writeFile hmoved _)
    intro _
    split
    · apply Step.confined_bind (Step.confined_removeFile rfl List.mem_cons_self)
      intro _
      apply Step.confined_bind (Step.confined_clearAccessed _)
      intro _
      apply Step.confined_bind (Step.confined_setAccessed _)
      exact fun _ => Step.confined_pure _
    · apply Step.confined_bind (Step.confined_setAccessed _)
      exact fun _ => Step.confined_pure _

theorem applyUpdate_eq (context : Int) (path : Bytes) (destination : Option Bytes)
    (chunks : List Chunk) :
    applyUpdate context path destination chunks = (do
      Step.log .action <|
        text "Update " ++ path ++ text " (" ++ decimal chunks.length ++ text " chunk(s))"
      let oldContent ← Step.readFile .readForUpdate path
      let newContent ← Step.updatedContent path oldContent chunks
      store context path destination oldContent newContent) :=
  rfl

theorem applyAdd_confined (path contents : Bytes) :
    (applyAdd path contents).Confined [path] (Failure.IsWriteAt [path]) := by
  apply Step.confined_bind (Step.confined_log _)
  intro _
  apply Step.confined_bind (Step.confined_makeParents List.mem_cons_self)
  intro _
  apply Step.confined_bind (Step.confined_writeFile List.mem_cons_self _)
  intro _
  apply Step.confined_bind (Step.confined_setAccessed _)
  exact fun _ => Step.confined_pure _

/-- What follows when the file to delete was read. -/
theorem removal_confined (path : Bytes) (change : Change) :
    (do Step.removeFile .delete path
        Step.clearAccessed path
        pure change).Confined [path] (Failure.IsWriteAt [path]) := by
  apply Step.confined_bind (Step.confined_removeFile rfl List.mem_cons_self)
  intro _
  apply Step.confined_bind (Step.confined_clearAccessed _)
  exact fun _ => Step.confined_pure _

/-- A hunk leaves everything alone but what stands at its own paths. -/
theorem apply_confined (context : Int) (hunk : Hunk) :
    (hunk.apply context).Confined hunk.paths fun _ => True := by
  cases hunk with
  | add path contents => exact (applyAdd_confined path contents).imp fun _ _ => trivial
  | delete path =>
    apply Step.confined_bind (Step.confined_log _)
    intro _
    apply Step.confined_bind (Step.confined_readFile _ _)
    intro oldContent
    exact (removal_confined path _).imp fun _ _ => trivial
  | update path destination chunks =>
    rw [apply, applyUpdate_eq]
    apply Step.confined_bind (Step.confined_log _)
    intro _
    apply Step.confined_bind (Step.confined_readFile _ _)
    intro oldContent
    apply Step.confined_bind (Step.confined_updatedContent _ _ _)
    intro newContent
    exact (store_confined context path destination oldContent newContent).imp fun _ _ => trivial

/-- Trying a hunk writes nothing but the log. -/
theorem rehearse_confined (hunk : Hunk) : hunk.rehearse.Confined [] fun _ => True := by
  cases hunk with
  | add | delete => exact Step.confined_pure ()
  | update path destination chunks =>
    apply Step.confined_bind (Step.confined_readFile _ _)
    intro content
    apply Step.confined_bind (Step.confined_updatedContent _ _ _)
    exact fun _ => Step.confined_pure ()

section Outcomes

variable (hcheck : hunk.check before.disk = .ok ())
  (hlog : ∀ path ∈ hunk.source?, before.disk.goal path ∉ before.touched [])

include hcheck hlog

/-- A hunk whose file is there, and is not the log, fails because of a chunk that has no place in
it, or because something cannot be written or removed. -/
theorem apply_outcome (context : Int) :
    (hunk.apply context).Ensures before (fun _ _ => hunk.obstacle? before.disk = none)
      fun failure _ => hunk.obstacle? before.disk = some failure ∨
        hunk.obstacle? before.disk = none ∧ failure.IsWriteAt hunk.paths := by
  rw [check_eq_ok_iff] at hcheck
  cases hunk with
  | add path contents =>
    exact (applyAdd_confined path contents before).imp (fun _ _ _ => rfl)
      fun _ _ hfailed => .inr ⟨rfl, hfailed.2⟩
  | delete path =>
    obtain ⟨content, hstatus⟩ := hcheck path rfl
    refine Step.ensures_bind ?_
    have hlogged := (before.spares_log .action (text "Delete " ++ path)).status hstatus
      (hlog path rfl)
    refine Step.ensures_bind (Step.ensures_readFile_of_status _ hlogged ?_)
    exact (removal_confined path _ _).imp (fun _ _ _ => rfl)
      fun _ _ hfailed => .inr ⟨rfl, hfailed.2⟩
  | update path destination chunks =>
    obtain ⟨content, hstatus⟩ := hcheck path rfl
    rw [apply, applyUpdate_eq]
    refine Step.ensures_bind ?_
    have hlogged := (before.spares_log .action (text "Update " ++ path ++ text " (" ++
      decimal chunks.length ++ text " chunk(s))")).status hstatus (hlog path rfl)
    refine Step.ensures_bind (Step.ensures_readFile_of_status _ hlogged ?_)
    refine Step.ensures_bind (Step.ensures_place (fun updated after hupdated _ => ?_)
      fun problem after hproblem _ => ?_)
    · have hplaced : (update path destination chunks).obstacle? before.disk = none := by
        simp only [obstacle?, hstatus, hupdated]
      exact (store_confined context path destination content updated after).imp
        (fun _ _ _ => hplaced) fun _ _ hfailed => .inr ⟨hplaced, hfailed.2⟩
    · exact .inl (by simp only [obstacle?, hstatus, hproblem])

omit hlog in
/-- Trying a hunk whose file is there says what is in its way. -/
theorem rehearse_outcome :
    hunk.rehearse.Ensures before (fun _ _ => hunk.obstacle? before.disk = none)
      fun failure _ => hunk.obstacle? before.disk = some failure := by
  rw [check_eq_ok_iff] at hcheck
  cases hunk with
  | add | delete => exact Step.ensures_pure rfl
  | update path destination chunks =>
    obtain ⟨content, hstatus⟩ := hcheck path rfl
    refine Step.ensures_bind (Step.ensures_readFile_of_status _ hstatus ?_)
    refine Step.ensures_bind (Step.ensures_place (fun updated after hupdated _ => ?_)
      fun problem after hproblem _ => ?_)
    · exact Step.ensures_pure (by simp only [obstacle?, hstatus, hupdated])
    · simp only [obstacle?, hstatus, hproblem]

end Outcomes

end Kinds

end Hunk

end Patchwork
