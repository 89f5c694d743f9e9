import Patchwork.Proofs.Apply.Hunk

/-!
# The ledger of an application

A report is a ledger of the hunks that were applied: one change for each of them, in order, from
which alone the files can be told.  The first hunk that fails ends the application, and neither
it nor a later one leaves a trace in the files or in the times of access.  Main statement:
`Patch.apply_ledger`.

Only where a file is moved to another spelling of its own path is the new content not found at
the target afterwards: the old path is removed last.  That takes a root of several separators,
since no other place has two resolved spellings.
-/

namespace Patchwork

namespace Report

/-- The message of the failure; empty if there was none. -/
def errorText (report : Report) : Bytes :=
  (report.error.map Failure.message).getD []

/-- The lists of paths are read off the changes, in order. -/
structure Balanced (report : Report) : Prop where
  added : report.added = (report.changes.filter (·.kind = .add)).map Change.path
  modified : report.modified = (report.changes.filter (·.kind = .update)).map Change.target
  deleted : report.deleted = (report.changes.filter (·.kind = .delete)).map Change.path

variable {report : Report}

theorem Balanced.record (hbalanced : report.Balanced) (change : Change) :
    (report.record change).Balanced := by
  obtain ⟨hadded, hmodified, hdeleted⟩ := hbalanced
  cases hkind : change.kind <;> constructor <;>
    simp [Report.record, hkind, hadded, hmodified, hdeleted]

theorem changes_record (report : Report) (change : Change) :
    (report.record change).changes = report.changes ++ [change] := by
  rw [record]
  split <;> rfl

theorem error_record (report : Report) (change : Change) :
    (report.record change).error = report.error := by
  rw [record]
  split <;> rfl

end Report

namespace Patch

/-- Hunks are applied one after another, each accounted for by its change; the success of each is
logged before the next one begins. -/
inductive Completes (context : Int) : Workspace → List Hunk → List Change → Workspace → Prop
  | nil (workspace : Workspace) : Completes context workspace [] [] workspace
  | cons {before after last : Workspace} {hunk : Hunk} {change : Change} {hunks : List Hunk}
      {changes : List Change} :
      (hunk.apply context).run before = (.ok change, after) →
      hunk.Accounted context before change after →
      Completes context (after.log .success change.doneMessage) hunks changes last →
      Completes context before (hunk :: hunks) (change :: changes) last

/-- An application ends when no hunk is left, or when the next one fails without a trace; the
failure is logged, and the hunks behind it are not tried. -/
inductive Ends (context : Int) (last : Workspace) :
    List Hunk → Option Failure → Workspace → Prop
  | done : Ends context last [] none last
  | failed {hunk : Hunk} {skipped : List Hunk} {failure : Failure} {after : Workspace} :
      (hunk.apply context).run last = (.error failure, after) →
      hunk.Untouched last after →
      failure.message ≠ [] →
      Ends context last (hunk :: skipped) (some failure) (logFailure failure after)

section Runs

variable {context : Int} {before last after : Workspace} {completed rest hunks : List Hunk}
  {changes : List Change} {failure? : Option Failure}

theorem Completes.length_eq (hcompletes : Completes context before completed changes last) :
    changes.length = completed.length := by
  induction hcompletes with
  | nil => rfl
  | cons _ _ _ ih => rw [List.length_cons, List.length_cons, ih]

/-- Every change accounts for one of the hunks. -/
theorem Completes.exists_accounted (hcompletes : Completes context before completed changes last)
    {change : Change} (hchange : change ∈ changes) :
    ∃ hunk ∈ completed, ∃ before after, hunk.Accounted context before change after := by
  induction hcompletes with
  | nil => cases hchange
  | cons _ haccounted _ ih =>
    rcases List.mem_cons.mp hchange with rfl | hchange
    · exact ⟨_, List.mem_cons_self, _, _, haccounted⟩
    · obtain ⟨hunk, hhunk, hfound⟩ := ih hchange
      exact ⟨hunk, List.mem_cons_of_mem _ hhunk, hfound⟩

/-- The files are told by the changes alone. -/
theorem Completes.files_eq (hcompletes : Completes context before completed changes last)
    (hlog : before.settings.file = []) :
    last.settings = before.settings ∧
      last.disk.files =
        changes.foldl (fun files change => change.replay files) before.disk.files := by
  induction hcompletes with
  | nil => exact ⟨rfl, rfl⟩
  | @cons before after last hunk change hunks changes _ haccounted _ ih =>
    have hkept : after.settings.file = [] := by rw [haccounted.settings, hlog]
    obtain ⟨heard, console, hlogged⟩ := Workspace.log_eq hkept .success change.doneMessage
    rw [hlogged] at ih
    obtain ⟨hsettings, hfiles⟩ := ih hkept
    rw [List.foldl_cons, ← haccounted.files]
    exact ⟨hsettings.trans haccounted.settings, hfiles⟩

theorem Ends.files_eq (hends : Ends context last rest failure? after)
    (hlog : last.settings.file = []) : after.disk.files = last.disk.files := by
  cases hends with
  | done => rfl
  | @failed hunk skipped failure middle _ huntouched _ =>
    have hkept : middle.settings.file = [] := by rw [huntouched.settings, hlog]
    obtain ⟨heard, console, hlogged⟩ := Workspace.log_eq hkept .error
      (text "apply_patch: " ++ failure.message)
    rw [logFailure, hlogged]
    exact huntouched.grows.files_eq

theorem Ends.error_eq_none_iff (hends : Ends context last rest failure? after) :
    (failure?.map Failure.message).getD [] = [] ↔ rest = [] := by
  cases hends with
  | done => simp
  | failed _ _ hmessage => simpa using hmessage

/-- A run over hunks completes some of them and then ends. -/
theorem applyHunks_spec {report : Report} (hsound : ∀ hunk ∈ hunks, hunk.Sound)
    (hlog : before.settings.file = []) (herror : report.error = none)
    (hbalanced : report.Balanced) :
    ∃ completed rest changes last,
      hunks = completed ++ rest ∧
      Completes context before completed changes last ∧
      Ends context last rest (applyHunks context report before hunks).1.error
        (applyHunks context report before hunks).2 ∧
      (applyHunks context report before hunks).1.changes = report.changes ++ changes ∧
      (applyHunks context report before hunks).1.Balanced := by
  induction hunks generalizing report before with
  | nil =>
    rw [applyHunks, herror]
    exact ⟨[], [], [], before, rfl, .nil before, .done, (List.append_nil _).symm, hbalanced⟩
  | cons hunk hunks ih =>
    rw [List.forall_mem_cons] at hsound
    have hstep : (hunk.apply context).Ensures before _ _ := Hunk.apply_ensures hsound.1 hlog
    rw [Step.Ensures] at hstep
    rw [applyHunks]
    rcases hrun : (hunk.apply context).run before with ⟨failure | change, after⟩
    · simp only [hrun] at hstep ⊢
      exact ⟨[], hunk :: hunks, [], before, rfl, .nil before, .failed hrun hstep.2 hstep.1,
        (List.append_nil _).symm, hbalanced.1, hbalanced.2, hbalanced.3⟩
    · simp only [hrun] at hstep ⊢
      have hkept : after.settings.file = [] := by rw [hstep.settings, hlog]
      obtain ⟨heard, console, hlogged⟩ := Workspace.log_eq hkept .success change.doneMessage
      have hnext : (after.log .success change.doneMessage).settings.file = [] := by
        rw [hlogged, hkept]
      have hnone : (report.record change).error = none := by rw [Report.error_record, herror]
      obtain ⟨completed, rest, changes, last, hhunks, hcompletes, hends, hchanges, hlast⟩ :=
        ih hsound.2 hnext hnone (hbalanced.record change)
      refine ⟨hunk :: completed, rest, change :: changes, last, ?_, .cons hrun hstep hcompletes,
        hends, ?_, hlast⟩
      · rw [hhunks, List.cons_append]
      · rw [hchanges, Report.changes_record, List.append_assoc, List.singleton_append]

end Runs

/-- Every path of a patch that was read below a root is a resolved spelling. -/
theorem exists_resolve_of_mem_paths {root : Bytes} {source : Patch} {hunk : Hunk} {path : Bytes}
    (hhunk : hunk ∈ resolve root source) (hpath : path ∈ hunk.paths) :
    ∃ spelled, Path.resolve root spelled = path := by
  obtain ⟨original, -, rfl⟩ := List.mem_map.mp hhunk
  rw [Hunk.paths_resolve] at hpath
  obtain ⟨spelled, -, hspelled⟩ := List.mem_map.mp hpath
  exact ⟨spelled, hspelled⟩

/-- Applying a patch completes some of its hunks, each accounted for by a change of the report,
and then ends: with no failure exactly if that were all hunks, and otherwise at a hunk that fails
without a trace.  The files afterwards are those that the changes tell. -/
theorem apply_ledger (context : Int) (root : Bytes) (source : Patch) (before : Workspace)
    (hroot : Path.isAbsolute root = true) (hsource : source ≠ [])
    (hzero : ∀ hunk ∈ resolve root source, ∀ path ∈ hunk.paths, 0 ∉ path)
    (hlog : before.settings.file = []) :
    ∃ report after completed rest last,
      apply context (resolve root source) before = (report, after) ∧
      resolve root source = completed ++ rest ∧
      Completes context before completed report.changes last ∧
      Ends context last rest report.error after ∧
      report.changes.length = completed.length ∧
      (report.errorText = [] ↔ completed.length = (resolve root source).length) ∧
      report.Balanced ∧
      after.disk.files =
        report.changes.foldl (fun files change => change.replay files) before.disk.files ∧
      ((Path.isTop root = true → root = [Path.separator]) →
        ∀ change ∈ report.changes, ¬ change.Aliased) := by
  have hsound : ∀ hunk ∈ resolve root source, hunk.Sound := by
    intro hunk hhunk path hpath
    obtain ⟨spelled, hspelled⟩ := exists_resolve_of_mem_paths hhunk hpath
    exact ⟨hspelled ▸ Path.resolved_resolve hroot spelled, hzero hunk hhunk path hpath⟩
  have hhunks : resolve root source ≠ [] := by simpa [resolve] using hsource
  have hempty : ({} : Report).Balanced := ⟨rfl, rfl, rfl⟩
  obtain ⟨completed, rest, changes, last, hsplit, hcompletes, hends, hchanges, hbalanced⟩ :=
    applyHunks_spec hsound hlog rfl hempty
  obtain ⟨hsettings, hfiles⟩ := hcompletes.files_eq hlog
  obtain rfl : _ = changes := hchanges
  refine ⟨_, _, completed, rest, last, by rw [apply, if_neg hhunks], hsplit, hcompletes, hends,
    hcompletes.length_eq, ?_, hbalanced, ?_, ?_⟩
  · rw [Report.errorText, hends.error_eq_none_iff, hsplit]
    simp
  · rw [hends.files_eq (by rw [hsettings, hlog]), hfiles]
  · intro htop change hchange
    obtain ⟨hunk, hhunk, _, _, haccounted⟩ := hcompletes.exists_accounted hchange
    have hmem : hunk ∈ resolve root source := hsplit ▸ List.mem_append_left _ hhunk
    exact haccounted.not_aliased hroot htop (hsound hunk hmem)
      fun path => exists_resolve_of_mem_paths hmem

/-- One file in the top directory. -/
def singleFile : Workspace :=
  { disk := ⟨[([text "f"], .file (text "a\n"))], []⟩ }

/-- Rewrites the file and moves it. -/
def rewriteAndMove (destination : Bytes) : Hunk :=
  .update (text "f") (some destination) [⟨none, [text "a"], [text "b"], false⟩]

/-- Moves the file into a new directory, so that it cannot be deleted where it stood. -/
def moveThenDelete : Patch :=
  [rewriteAndMove (text "d/g"), .delete (text "f")]

theorem apply_ledger_moveThenDelete :
    Path.isAbsolute (text "/") = true ∧ moveThenDelete ≠ [] ∧
      (∀ hunk ∈ resolve (text "/") moveThenDelete, ∀ path ∈ hunk.paths, 0 ∉ path) ∧
      singleFile.settings.file = [] ∧
      ∃ report after completed rest last,
        apply 3 (resolve (text "/") moveThenDelete) singleFile = (report, after) ∧
        Completes 3 singleFile completed report.changes last ∧
        Ends 3 last rest report.error after ∧
        report.changes.length = 1 ∧ report.errorText ≠ [] ∧
        after.disk.files =
          report.changes.foldl (fun files change => change.replay files) singleFile.disk.files := by
  have hzero : ∀ hunk ∈ resolve (text "/") moveThenDelete, ∀ path ∈ hunk.paths, 0 ∉ path := by
    decide
  have hne : moveThenDelete ≠ [] := List.cons_ne_nil _ _
  obtain ⟨report, after, completed, rest, last, happlied, -, hcompletes, hends, -, -, -, hfiles,
      -⟩ :=
    apply_ledger 3 (text "/") moveThenDelete singleFile rfl hne hzero rfl
  have hreport : (apply 3 (resolve (text "/") moveThenDelete) singleFile).1 = report := by
    rw [happlied]
  refine ⟨rfl, hne, hzero, rfl, report, after, completed, rest, last, happlied, hcompletes, hends,
    ?_, ?_, hfiles⟩
  · rw [← hreport]
    decide +kernel
  · rw [← hreport]
    decide +kernel

/-- Below a root of two separators a file has two resolved spellings.  A move from one to the
other is reported as done, and nothing is left of the file. -/
theorem rewriteAndMove_respelled :
    (apply 3 (resolve (text "//") [rewriteAndMove (text "/f")]) singleFile).1.error = none ∧
      (apply 3 (resolve (text "//") [rewriteAndMove (text "/f")]) singleFile).1.changes.map
        (fun change => (change.target, change.newContent)) = [(text "/f", text "b\n")] ∧
      (apply 3 (resolve (text "//") [rewriteAndMove (text "/f")]) singleFile).2.disk.status
        (text "/f") = .error .noSuchFile := by
  decide +kernel

end Patch

end Patchwork
