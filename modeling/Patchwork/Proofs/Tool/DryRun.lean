import Patchwork.Patch.Printer
import Patchwork.Proofs.Apply.Rehearsal
import Patchwork.Tool.ApplyPatch

/-!
# What a dry run promises

The patching tool tries every hunk of a patch on the files as they are, so its word holds for the
hunks that find their files unchanged when they are applied.  Main statement:
`ApplyPatch.execute_of_dryRun`.

A hunk that reads what an earlier one wrote, moved or deleted may fail after a dry run that went
well, since no hunk is tried on what the earlier ones leave.
-/

namespace Patchwork

namespace ApplyPatch

/-- Whether an answer says that the call succeeded. -/
def succeeded (answer : Json) : Bool :=
  match answer.member? (text "success") with
  | some (.bool value) => value
  | _ => false

variable {tool : ApplyPatch} {trial plain : Json} {patch : Patch} {before : Workspace}

theorem succeeded_refusal (patch : Patch) (failure : Failure) :
    succeeded (.ofMembers ([(dryRunKey, Json.bool true),
      (text "affected_files", .array ((affectedFiles patch).map Json.sanitized))] ++
        errorMembers failure)) = false := by
  have hmember : ∀ first second : Json, (Json.ofMembers ([(dryRunKey, first),
      (text "affected_files", second)] ++ errorMembers failure)).member? (text "success") =
        some (.bool false) := by
    intro first second
    change Table.find? _ (Table.insert _ _ (Table.insert _ _ _)) = _
    have hne : text "success" ≠ text "error" := by decide
    rw [Table.find?_insert_of_ne hne, Table.find?_insert_self]
  rw [succeeded, hmember]

/-- A dry run that says it succeeded is a rehearsal that ended well. -/
theorem rehearse_of_succeeded {answer : Json} (hread : tool.read trial = .ok patch)
    (hdry : isDryRun trial = .ok true)
    (hanswer : ((tool.execute trial).run before).1 = .ok answer)
    (hsuccess : succeeded answer = true) : (patch.rehearse.run before).1 = .ok () := by
  have hexecute : tool.execute trial = dryRun patch := by
    simp only [execute, hread, hdry]
  have hlift : (ExceptT.lift (ExceptT.run patch.rehearse) : Step (Except Failure Unit)).run before =
      (.ok (patch.rehearse.run before).1, (patch.rehearse.run before).2) :=
    rfl
  rw [hexecute, dryRun, Step.run_bind, hlift] at hanswer
  simp only [] at hanswer
  rcases hran : (patch.rehearse.run before).1 with failure | passed
  · rw [hran] at hanswer
    simp only [] at hanswer
    split at hanswer
    · obtain rfl := Except.ok.inj hanswer
      rw [succeeded_refusal] at hsuccess
      cases hsuccess
    · cases hanswer
  · rfl

theorem execute_plain (hread : tool.read plain = .ok patch) (hplain : isDryRun plain = .ok false)
    (hcheck : patch.check before.disk = .ok ()) :
    (tool.execute plain).run before =
      (.ok (answer (patch.apply tool.context before).1), (patch.apply tool.context before).2) := by
  have hget : (get : Step Workspace).run before = (.ok before, before) := rfl
  simp only [execute, hread, hplain]
  rw [Step.run_bind, hget]
  simp only [hcheck]
  rfl

/-- What a dry run that succeeded says about the call without it: the patch is applied, and if that
ends early, something could not be written, or a hunk was to read a file that an earlier hunk, or
the log, had changed. -/
theorem execute_of_dryRun (tool : ApplyPatch) (trial plain answered : Json) (patch : Patch)
    (before : Workspace) (hread : tool.read trial = .ok patch) (hne : patch ≠ [])
    (hsame : plain.member? inputKey = trial.member? inputKey)
    (hdry : isDryRun trial = .ok true) (hplain : isDryRun plain = .ok false)
    (hanswer : ((tool.execute trial).run before).1 = .ok answered)
    (hsuccess : succeeded answered = true) :
    ∃ report after, (tool.execute plain).run before = (.ok (answer report), after) ∧
      patch.apply tool.context before = (report, after) ∧
      (report.error = none ∨ Patch.StopsWriting patch report ∨
        ∃ earlier hunk later failure, patch = earlier ++ hunk :: later ∧
          report.changes.length = earlier.length ∧ report.error = some failure ∧
          ¬ hunk.Clear before earlier) := by
  have hreadPlain : tool.read plain = .ok patch := by
    rw [← hread, read, read, inputText?, inputText?, hsame]
  have hran := rehearse_of_succeeded hread hdry hanswer hsuccess
  have hrehearsed := Patch.rehearse_ensures patch before
  rw [Step.Ensures] at hrehearsed
  rcases hrun : patch.rehearse.run before with ⟨failure | passed, after⟩
  · rw [hrun] at hran
    cases hran
  · rw [hrun] at hrehearsed
    obtain ⟨hcheck, hnone⟩ := hrehearsed
    refine ⟨_, _, execute_plain hreadPlain hplain hcheck, rfl, ?_⟩
    obtain ⟨completed, rest, hsplit, hlength, -, hends⟩ :=
      Patch.apply_trial tool.context hne hcheck
    rcases hends with ⟨-, herror⟩ | ⟨hunk, later, failure, rfl, herror, hfailed⟩
    · exact .inl herror
    · by_cases hclear : hunk.Clear before completed
      · have hhunk : hunk ∈ patch := hsplit ▸ List.mem_append_right _ List.mem_cons_self
        have hfree := hnone hunk hhunk hclear.off_log
        have hwrite := (hfailed hclear).resolve_left (by rw [hfree]; rintro ⟨⟩)
        exact .inr (.inl ⟨completed, hunk, later, failure, hsplit, hlength, herror, hwrite.2⟩)
      · exact .inr (.inr ⟨completed, hunk, later, failure, hsplit, hlength, herror, hclear⟩)

/-- The arguments that ask for a patch to be tried or applied. -/
def requestFor (patch : Patch) (trial : Bool) : Json :=
  .ofMembers [(inputKey, .string patch.print), (dryRunKey, .bool trial)]

theorem requestFor_input (patch : Patch) (trial : Bool) :
    (requestFor patch trial).member? inputKey = some (.string patch.print) := by
  have hne : inputKey ≠ dryRunKey := by decide
  change Table.find? inputKey (Table.insert dryRunKey _ (Table.insert inputKey _ [])) = _
  rw [Table.find?_insert_of_ne hne, Table.find?_insert_self]

theorem isDryRun_requestFor (patch : Patch) (trial : Bool) :
    isDryRun (requestFor patch trial) = .ok trial := by
  have hmember : (requestFor patch trial).member? dryRunKey = some (.bool trial) :=
    Table.find?_insert_self dryRunKey _ _
  rw [isDryRun, hmember]

/-- The tool for the top directory. -/
def atTop : ApplyPatch := ⟨text "/", 3⟩

theorem execute_of_dryRun_moveAndAdd :
    ∃ report after,
      (atTop.execute (requestFor Patch.moveAndAdd false)).run Patch.singleFile =
        (.ok (answer report), after) ∧
      Patch.apply 3 (Patch.moveAndAdd.resolve (text "/")) Patch.singleFile = (report, after) ∧
      (report.error = none ∨ Patch.StopsWriting (Patch.moveAndAdd.resolve (text "/")) report ∨
        ∃ earlier hunk later failure,
          Patch.moveAndAdd.resolve (text "/") = earlier ++ hunk :: later ∧
          report.changes.length = earlier.length ∧ report.error = some failure ∧
          ¬ hunk.Clear Patch.singleFile earlier) := by
  have hread : atTop.read (requestFor Patch.moveAndAdd true) =
      .ok (Patch.moveAndAdd.resolve (text "/")) := by
    decide +kernel
  have hsucceeded : ((atTop.execute (requestFor Patch.moveAndAdd true)).run
      Patch.singleFile).1.toOption.map succeeded = some true := by
    decide +kernel
  cases hanswer : ((atTop.execute (requestFor Patch.moveAndAdd true)).run Patch.singleFile).1 with
  | error failure =>
    rw [hanswer] at hsucceeded
    cases hsucceeded
  | ok answered =>
    rw [hanswer] at hsucceeded
    exact execute_of_dryRun atTop (requestFor Patch.moveAndAdd true)
      (requestFor Patch.moveAndAdd false) answered _ Patch.singleFile hread (by decide)
      (by rw [requestFor_input, requestFor_input]) (isDryRun_requestFor _ _)
      (isDryRun_requestFor _ _) hanswer (Option.some.inj hsucceeded)

/-- Rewrites the one line of the file, and then again what it was before. -/
def rewriteTwice : Patch :=
  [.update (text "f") none [⟨none, [text "a"], [text "b"], false⟩],
    .update (text "f") none [⟨none, [text "a"], [text "c"], false⟩]]

/-- Both chunks have their place in the file as it is, so the dry run succeeds.  The second one has
none when the first one is applied. -/
theorem rewriteTwice_afterDryRun :
    atTop.read (requestFor rewriteTwice true) = .ok (rewriteTwice.resolve (text "/")) ∧
      ((atTop.execute (requestFor rewriteTwice true)).run
        Patch.singleFile).1.toOption.map succeeded = some true ∧
      ((atTop.execute (requestFor rewriteTwice false)).run
        Patch.singleFile).1.toOption.map succeeded = some false ∧
      (Patch.apply 3 (rewriteTwice.resolve (text "/")) Patch.singleFile).1.error =
        some (.unplaced (text "/f") (.linesNotFound [text "a"])) := by
  decide +kernel

end ApplyPatch

end Patchwork
