import Patchwork.Proofs.Apply.Quiet
import Patchwork.Proofs.Table
import Patchwork.Proofs.Tool.DryRun

/-!
# Nothing is written before a patch is applied

A call that ends before its patch is applied writes nothing but the log, and a call is refused for
just what the arguments are objected to for.  Main statement: `ApplyPatch.execute_refusal`.
-/

namespace Patchwork

theorem Json.member?_ofMembers (key : Bytes) (members : List (Bytes × Json)) :
    (Json.ofMembers members).member? key = members.reverse.lookup key :=
  Table.find?_ofEntries key members

/-! ## Why a call is refused -/

theorem Patch.Error.message_ne_nil (error : Patch.Error) :
    Bytes.untilZero error.message ≠ [] := by
  have hline : ∀ (line : Nat) (problem : Bytes),
      Bytes.untilZero (text "invalid hunk at line " ++ decimal line ++ text ", " ++ problem) ≠
        [] := by
    intro line problem
    refine Bytes.untilZero_append_ne_nil (Bytes.untilZero_append_ne_nil
      (Bytes.untilZero_append_ne_nil ?_ _) _) _
    decide
  cases error with
  | emptyPatch => decide
  | missingBegin | missingEnd => exact Bytes.untilZero_append_ne_nil (by decide) _
  | invalidHeader line | emptyUpdate line | missingContextMarker line | unexpectedLine line
  | emptyChunk line => exact hline line _

namespace Failure

variable {failure : Failure}

/-- The failures for which a call is refused before its patch is tried or applied. -/
inductive Refuses : Failure → Prop
  | malformed (error : Patch.Error) : Refuses (malformed error)
  | inputRequired : Refuses inputRequired
  | missingFile (path : Bytes) (problem : OsError) : Refuses (missingFile path problem)
  | directoryTarget (use : TargetUse) (path : Bytes) : Refuses (directoryTarget use path)

theorem Refuses.message_ne_nil (hrefuses : failure.Refuses) : failure.message ≠ [] := by
  cases hrefuses with
  | malformed error => exact error.message_ne_nil
  | inputRequired => decide
  | missingFile path problem =>
    refine Bytes.untilZero_append_ne_nil (Bytes.untilZero_append_ne_nil
      (Bytes.untilZero_append_ne_nil ?_ _) _) _
    decide
  | directoryTarget use path =>
    refine Bytes.untilZero_append_ne_nil (Bytes.untilZero_append_ne_nil
      (Bytes.untilZero_append_ne_nil (Bytes.untilZero_append_ne_nil ?_ _) _) _) _
    decide

end Failure

theorem Patch.refuses_of_check {disk : Disk} {patch : Patch} {failure : Failure}
    (hcheck : check disk patch = .error failure) : failure.Refuses := by
  have htarget : ∀ use path, Hunk.check.checkTarget disk use path = .error failure →
      failure.Refuses := by
    intro use path hfailed
    rw [Hunk.check.checkTarget] at hfailed
    split at hfailed
    · cases hfailed
    · obtain rfl := Except.error.inj hfailed
      exact .directoryTarget use path
    · obtain rfl := Except.error.inj hfailed
      exact .missingFile path _
  induction patch with
  | nil => cases hcheck
  | cons hunk hunks ih =>
    rw [check] at hcheck
    split at hcheck
    · rename_i hfailed
      obtain rfl := Except.error.inj hcheck
      cases hunk with
      | add => cases hfailed
      | delete path => exact htarget _ _ hfailed
      | update path => exact htarget _ _ hfailed
    · exact ih hcheck

namespace ApplyPatch

variable {tool : ApplyPatch} {arguments : Json} {patch : Patch} {failure : Failure}
  {before : Workspace}

def metadataKey : Bytes := text "metadata"

/-! ## How a call ends -/

/-- The call applies a patch: it reads one that is not only to be tried, and the files that the
patch needs are there. -/
structure Applies (tool : ApplyPatch) (arguments : Json) (disk : Disk) (patch : Patch) : Prop where
  read : tool.read arguments = .ok patch
  plain : isDryRun arguments = .ok false
  check : patch.check disk = .ok ()

theorem refuses_of_read (hread : tool.read arguments = .error failure) : failure.Refuses := by
  rw [read] at hread
  split at hread
  · obtain rfl := Except.error.inj hread
    exact .inputRequired
  · split at hread
    · obtain rfl := Except.error.inj hread
      exact .malformed _
    · cases hread

theorem execute_unread (hread : tool.read arguments = .error failure) :
    tool.execute arguments = refuse failure := by
  simp only [execute, hread]

theorem execute_undecided (hread : tool.read arguments = .ok patch)
    (hdry : isDryRun arguments = .error failure) : tool.execute arguments = throw failure := by
  simp only [execute, hread, hdry]

theorem execute_trial (hread : tool.read arguments = .ok patch)
    (hdry : isDryRun arguments = .ok true) : tool.execute arguments = dryRun patch := by
  simp only [execute, hread, hdry]

theorem execute_unchecked (hread : tool.read arguments = .ok patch)
    (hdry : isDryRun arguments = .ok false) (hcheck : patch.check before.disk = .error failure) :
    (tool.execute arguments).run before = (refuse failure).run before := by
  have hget : (get : Step Workspace).run before = (.ok before, before) := rfl
  simp only [execute, hread, hdry]
  rw [Step.run_bind, hget]
  simp only [hcheck]

/-- A dry run writes nothing but the log, whatever comes of it. -/
theorem dryRun_quiet (patch : Patch) : (dryRun patch).Quiet := by
  have hrehearse : Step.Quiet (ExceptT.lift (ExceptT.run patch.rehearse)) :=
    patch.rehearse_quiet
  apply Step.quiet_bind hrehearse
  intro rehearsal
  split
  · exact Step.quiet_pure _
  · split
    · exact Step.quiet_pure _
    · exact Step.quiet_throw _

/-- A call that does not apply its patch writes nothing but the log. -/
theorem execute_quiet (hnone : ∀ patch, ¬ tool.Applies arguments before.disk patch) :
    before.OnlyLogs ((tool.execute arguments).run before).2 := by
  cases hread : tool.read arguments with
  | error failure =>
    rw [execute_unread hread]
    exact Patch.logFailure_onlyLogs failure before
  | ok patch =>
    cases hdry : isDryRun arguments with
    | error failure =>
      rw [execute_undecided hread hdry]
      exact .refl before
    | ok trial =>
      cases trial with
      | true =>
        rw [execute_trial hread hdry]
        exact dryRun_quiet patch before
      | false =>
        cases hcheck : patch.check before.disk with
        | error failure =>
          rw [execute_unchecked hread hdry hcheck]
          exact Patch.logFailure_onlyLogs failure before
        | ok passed => exact absurd ⟨hread, hdry, hcheck⟩ (hnone patch)

/-- The answer to a call that applied its patch says what was changed. -/
theorem metadata_answer (report : Report) :
    ∃ metadata, (answer report).member? metadataKey = some metadata := by
  have hreport : ∃ metadata, report.toJson.member? metadataKey = some metadata := by
    rw [Report.toJson, Json.member?_ofMembers]
    cases report.error with
    | none => exact ⟨_, rfl⟩
    | some failure => exact ⟨_, rfl⟩
  rw [answer]
  split
  · exact hreport
  · have hne : metadataKey ≠ text "content" := by decide
    change ∃ metadata, Table.find? metadataKey (Table.insert (text "content") _ _) = some metadata
    rw [Table.find?_insert_of_ne hne]
    exact hreport

theorem metadata_refusal (failure : Failure) :
    (Json.ofMembers (errorMembers failure)).member? metadataKey = none := by
  rw [Json.member?_ofMembers]
  rfl

theorem Applies.metadata (happlies : tool.Applies arguments before.disk patch) :
    ∃ answered metadata, ((tool.execute arguments).run before).1 = .ok answered ∧
      answered.member? metadataKey = some metadata := by
  obtain ⟨metadata, hmetadata⟩ := metadata_answer (patch.apply tool.context before).1
  have hexecute := execute_plain happlies.read happlies.plain happlies.check
  exact ⟨_, metadata, congrArg Prod.fst hexecute, hmetadata⟩

/-! ## Calls that are refused -/

/-- What is said against the arguments: nothing, if the call may be carried out. -/
def verdict (tool : ApplyPatch) (disk : Disk) (arguments : Json) : Bytes :=
  (tool.objection? disk arguments).getD []

/-- Either nothing is said against the arguments and the patch is applied, or what is said is the
message with which the call is refused. -/
theorem verdict_cases (hplain : isDryRun arguments = .ok false) :
    (tool.verdict before.disk arguments = [] ∧ ∃ patch, tool.Applies arguments before.disk patch) ∨
      ∃ failure, failure.Refuses ∧ tool.verdict before.disk arguments = failure.message ∧
        (tool.execute arguments).run before = (refuse failure).run before := by
  cases hread : tool.read arguments with
  | error failure =>
    refine .inr ⟨failure, refuses_of_read hread, ?_, ?_⟩
    · simp only [verdict, objection?, hread, Option.getD_some]
    · rw [execute_unread hread]
  | ok patch =>
    cases hcheck : patch.check before.disk with
    | error failure =>
      refine .inr ⟨failure, Patch.refuses_of_check hcheck, ?_, ?_⟩
      · simp only [verdict, objection?, hread, hcheck, Option.getD_some]
      · exact execute_unchecked hread hplain hcheck
    | ok passed =>
      refine .inl ⟨?_, patch, hread, hplain, hcheck⟩
      simp only [verdict, objection?, hread, hcheck, Option.getD_none]

/-- A call that fails, or whose answer does not say what was changed, writes nothing but the log.
One that asks for no trial is carried out if nothing is said against its arguments, and else it is
refused with just that.  So a patch is not begun while any file that it needs is missing. -/
theorem execute_refusal (tool : ApplyPatch) (arguments : Json) (before : Workspace) :
    ((∀ answered, ((tool.execute arguments).run before).1 = .ok answered →
        answered.member? metadataKey = none) →
      before.OnlyLogs ((tool.execute arguments).run before).2) ∧
    (arguments.member? dryRunKey = none →
      (tool.verdict before.disk arguments = [] ↔
        ∃ answered metadata, ((tool.execute arguments).run before).1 = .ok answered ∧
          answered.member? metadataKey = some metadata) ∧
      (tool.verdict before.disk arguments ≠ [] →
        ∃ answered, ((tool.execute arguments).run before).1 = .ok answered ∧
          answered.member? (text "success") = some (.bool false) ∧
          answered.member? (text "error") =
            some (.string (Utf8.sanitize (tool.verdict before.disk arguments))))) ∧
    ∀ patch hunk path, tool.read arguments = .ok patch → hunk ∈ patch → path ∈ hunk.source? →
      (∀ content, before.disk.status path ≠ .ok (.file content)) →
        before.OnlyLogs ((tool.execute arguments).run before).2 := by
  refine ⟨fun hnone => ?_, fun habsent => ?_, ?_⟩
  · refine execute_quiet fun patch happlies => ?_
    obtain ⟨answered, metadata, hanswered, hmetadata⟩ := happlies.metadata
    rw [hnone answered hanswered] at hmetadata
    cases hmetadata
  · have hplain : isDryRun arguments = .ok false := by rw [isDryRun, habsent]
    rcases verdict_cases hplain with ⟨hverdict, patch, happlies⟩ |
      ⟨failure, hrefuses, hverdict, hrefused⟩
    · exact ⟨iff_of_true hverdict happlies.metadata, fun hsaid => absurd hverdict hsaid⟩
    · have hsaid : failure.message ≠ [] := hrefuses.message_ne_nil
      rw [hverdict, hrefused]
      refine ⟨iff_of_false hsaid ?_, fun _ => ⟨_, rfl, ?_, ?_⟩⟩
      · rintro ⟨answered, metadata, hanswered, hmetadata⟩
        obtain rfl := Except.ok.inj hanswered
        rw [metadata_refusal] at hmetadata
        cases hmetadata
      · rw [Json.member?_ofMembers]
        rfl
      · rw [Json.member?_ofMembers]
        rfl
  · intro patch hunk path hread hhunk hpath hmissing
    refine execute_quiet fun other happlies => ?_
    obtain rfl := Except.ok.inj (hread.symm.trans happlies.read)
    have hcheck := Patch.check_eq_ok_iff.mp happlies.check hunk hhunk
    obtain ⟨content, hstatus⟩ := Hunk.check_eq_ok_iff.mp hcheck path hpath
    exact hmissing content hstatus

/-- The missing file is found out before the other one is written. -/
example :
    let patch : Patch := [.add (text "k") (text "c"), .delete (text "m")]
    let request := Json.ofMembers [(text "input", .string patch.print)]
    ((execute ⟨text "/", 3⟩ request).run { disk := ⟨[], []⟩ }).2.disk = ⟨[], []⟩ := by
  decide +kernel

end ApplyPatch

end Patchwork
