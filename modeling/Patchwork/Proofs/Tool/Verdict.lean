import Patchwork.Proofs.Tool.Answer
import Patchwork.Proofs.Tool.Refusal

/-!
# What an answer reports

The patching tool, called by its name, answers either that it succeeded or what went wrong.  A call
that is no dry run succeeds exactly if it carries out every hunk of a patch that has some.  A call
that does not apply its patch writes nothing but the log.  Main statement:
`Registry.reportsSuccess_run_iff`.
-/

namespace Patchwork

namespace Json

/-- The answer says that the call succeeded, says so in words as well, and names no error. -/
structure ReportsSuccess (answer : Json) : Prop where
  success : answer.member? (text "success") = some (.bool true)
  error : answer.member? (text "error") = none
  content : ∃ content, answer.member? (text "content") = some (ApplyPatch.textContent content)

/-- The answer says that the call did not succeed, and why. -/
structure ReportsFailure (answer : Json) : Prop where
  success : answer.member? (text "success") = some (.bool false)
  error : ∃ message, answer.member? (text "error") = some (.string message)

/-- The answer tells one or the other. -/
def Reports (answer : Json) : Prop :=
  answer.ReportsSuccess ∨ answer.ReportsFailure

theorem ReportsSuccess.not_reportsFailure {answer : Json} (hsuccess : answer.ReportsSuccess) :
    ¬ answer.ReportsFailure := by
  intro hfailure
  cases hsuccess.success.symm.trans hfailure.success

end Json

open Json (ReportsSuccess ReportsFailure)

/-! ## Hunks that are carried out -/

namespace Patch

/-- The hunks are applied one after another; the success of each is logged before the next one
begins. -/
inductive CarriesOut (context : Int) : Workspace → List Hunk → Workspace → Prop
  | nil (workspace : Workspace) : CarriesOut context workspace [] workspace
  | cons {before after last : Workspace} {hunk : Hunk} {change : Change} {hunks : List Hunk}
      (happly : (hunk.apply context).run before = (.ok change, after))
      (hrest : CarriesOut context (after.log .success change.doneMessage) hunks last) :
      CarriesOut context before (hunk :: hunks) last

variable {context : Int} {before last : Workspace} {hunks : List Hunk} {report : Report}

theorem CarriesOut.applyHunks_eq (hcarries : CarriesOut context before hunks last)
    (herror : report.error = none) :
    (applyHunks context report before hunks).1.error = none ∧
      (applyHunks context report before hunks).2 = last := by
  induction hcarries generalizing report with
  | nil => exact ⟨herror, rfl⟩
  | @cons before after last hunk change hunks happly hrest ih =>
    rw [applyHunks, happly]
    exact ih ((Report.error_record report change).trans herror)

theorem carriesOut_of_applyHunks
    (herror : (applyHunks context report before hunks).1.error = none) :
    CarriesOut context before hunks (applyHunks context report before hunks).2 := by
  induction hunks generalizing report before with
  | nil => exact .nil before
  | cons hunk hunks ih =>
    rw [applyHunks] at herror ⊢
    rcases happly : (hunk.apply context).run before with ⟨failure | change, after⟩
    · simp only [happly] at herror
      cases herror
    · simp only [happly] at herror ⊢
      exact .cons happly (ih herror)

/-- A patch is applied without an error exactly if it has hunks and they are all carried out. -/
theorem apply_eq_last_iff {patch : Patch} :
    (apply context patch before).1.error = none ∧ (apply context patch before).2 = last ↔
      patch ≠ [] ∧ CarriesOut context before patch last := by
  rw [apply]
  split
  · exact iff_of_false (by rintro ⟨⟨⟩, -⟩) fun hcarried => hcarried.1 ‹_›
  · rename_i hne
    constructor
    · rintro ⟨herror, rfl⟩
      exact ⟨hne, carriesOut_of_applyHunks herror⟩
    · exact fun hcarried => hcarried.2.applyHunks_eq rfl

end Patch

/-! ## What the tool answers -/

namespace ApplyPatch

variable {answered : Json}

theorem reportsSuccess_answer {report : Report} (herror : report.error = none) :
    ReportsSuccess (answer report) := by
  obtain ⟨members, hmembers⟩ : ∃ members, report.toJson = .object members := ⟨_, rfl⟩
  have hadded : answer report = .object (Table.insert (text "content")
      (textContent (Utf8.sanitize report.summary.dropLast)) members) := by
    rw [answer, if_neg (by simp [Report.isError, herror]), hmembers]
    rfl
  have hcontent : ∀ key ≠ text "content",
      (answer report).member? key = report.toJson.member? key := by
    intro key hkey
    rw [hadded, hmembers]
    exact Table.find?_insert_of_ne hkey _ _
  refine ⟨?_, ?_, Utf8.sanitize report.summary.dropLast, ?_⟩
  · rw [hcontent _ (by decide), Report.toJson, Json.member?_ofMembers, Report.isError, herror]
    rfl
  · rw [hcontent _ (by decide), Report.toJson, Json.member?_ofMembers, herror]
    rfl
  · rw [hadded]
    exact Table.find?_insert_self _ _ _

theorem reportsFailure_answer {report : Report} {failure : Failure}
    (herror : report.error = some failure) : ReportsFailure (answer report) := by
  rw [answer, if_pos (by rw [Report.isError, herror]; rfl), Report.toJson]
  refine ⟨?_, Utf8.sanitize failure.message, ?_⟩
  · rw [Json.member?_ofMembers, Report.isError, herror]
    rfl
  · rw [Json.member?_ofMembers, herror]
    rfl

/-- Members that end with those of an error report a failure. -/
theorem reportsFailure_errorMembers (members : List (Bytes × Json)) (failure : Failure) :
    ReportsFailure (.ofMembers (members ++ errorMembers failure)) := by
  refine ⟨?_, Utf8.sanitize failure.message, ?_⟩
  · rw [Json.member?_ofMembers, List.reverse_append]
    rfl
  · rw [Json.member?_ofMembers, List.reverse_append]
    rfl

theorem reportsSuccess_clean (patch : Patch) :
    ReportsSuccess (.ofMembers (trialMembers patch ++ cleanMembers patch)) := by
  constructor
  · rw [Json.member?_ofMembers]
    rfl
  · rw [Json.member?_ofMembers]
    rfl
  · rw [Json.member?_ofMembers]
    exact ⟨_, rfl⟩

theorem IsAnswer.reports (hanswer : IsAnswer answered) : answered.Reports := by
  cases hanswer with
  | refused failure => exact .inr (reportsFailure_errorMembers [] failure)
  | clean patch => exact .inl (reportsSuccess_clean patch)
  | obstructed patch failure => exact .inr (reportsFailure_errorMembers _ failure)
  | applied report =>
    cases herror : report.error with
    | none => exact .inl (reportsSuccess_answer herror)
    | some failure => exact .inr (reportsFailure_answer herror)

end ApplyPatch

/-! ## Calls by name -/

namespace Registry

open ApplyPatch (isDryRun answer)

variable {name key objection : Bytes} {result answered arguments : Json} {tool : ApplyPatch}
  {registry : Registry Workspace} {patch : Patch} {before last : Workspace}

theorem reportsFailure_failureAnswer (name error : Bytes) :
    ReportsFailure (failureAnswer name error) := by
  refine ⟨?_, Utf8.sanitize error, ?_⟩
  · rw [failureAnswer, Json.member?_ofMembers]
    rfl
  · rw [failureAnswer, Json.member?_ofMembers]
    rfl

/-- To name the tool changes no other member of an answer. -/
theorem member?_nameAnswer (hanswer : nameAnswer name result = .ok answered)
    (hkey : key ≠ text "tool_name") : answered.member? key = result.member? key := by
  rw [nameAnswer] at hanswer
  split at hanswer
  · obtain rfl := Except.ok.inj hanswer
    rfl
  · cases result with
    | object members =>
      obtain rfl := Except.ok.inj hanswer
      exact Table.find?_insert_of_ne hkey _ _
    | null =>
      obtain rfl := Except.ok.inj hanswer
      exact Table.find?_insert_of_ne hkey _ []
    | bool | number | string | array => cases hanswer

theorem reports_nameAnswer (hanswer : nameAnswer name result = .ok answered)
    (hreports : result.Reports) : answered.Reports := by
  have hsuccess : answered.member? (text "success") = result.member? (text "success") :=
    member?_nameAnswer hanswer (by decide)
  have herror : answered.member? (text "error") = result.member? (text "error") :=
    member?_nameAnswer hanswer (by decide)
  have hcontent : answered.member? (text "content") = result.member? (text "content") :=
    member?_nameAnswer hanswer (by decide)
  exact hreports.imp
    (fun h => ⟨hsuccess.trans h.success, herror.trans h.error, hcontent.symm ▸ h.content⟩)
    fun h => ⟨hsuccess.trans h.success, herror.symm ▸ h.error⟩

/-- A report names its tool already. -/
theorem nameAnswer_answer (report : Report) :
    nameAnswer name (answer report) = .ok (answer report) := by
  have hnamed : ((answer report).member? (text "tool_name")).isSome = true := by
    have hreport : (report.toJson.member? (text "tool_name")).isSome = true := by
      rw [Report.toJson, Json.member?_ofMembers]
      cases report.error <;> rfl
    rw [answer]
    split
    · exact hreport
    · have hne : text "tool_name" ≠ text "content" := by decide
      change (Table.find? _ (Table.insert (text "content") _ _)).isSome = true
      rw [Table.find?_insert_of_ne hne]
      exact hreport
  rw [nameAnswer, if_pos hnamed]

section Ends

variable {σ : Type} [Logging σ] {registry : Registry σ} {tool : Tool σ} {input : Json}

/-- How a call ends, by how the parts of the tool end. -/
theorem call_eq (state : σ) : (call name tool input).run state =
    match (tool.objection? input).run state with
    | (.ok (some objection), after) =>
      (.ok (failureAnswer name objection),
        Logging.log .warning (name ++ text " input rejected: " ++ objection) after)
    | (.ok none, between) =>
      match (tool.execute input).run between with
      | (.ok result, after) => (nameAnswer name result, after)
      | (.error failure, after) => (.error failure, after)
    | (.error failure, after) => (.error failure, after) := by
  rw [call, Step.run_bind]
  rcases (tool.objection? input).run state with ⟨failure | _ | objection, between⟩
  · rfl
  · simp only [Step.run_bind]
    rcases (tool.execute input).run between with ⟨failure | result, after⟩
    · rfl
    · simp only []
      cases nameAnswer name result <;> rfl
  · rfl

theorem run_of_find? (hfound : registry.find? name = some tool) (state : σ) :
    registry.run name input state =
      match (call name tool input).run state with
      | (.ok answered, after) => (answered, after)
      | (.error failure, after) =>
        (failureAnswer name (text "Tool execution failed: " ++ failure.message),
          Logging.log .error (text "Tool " ++ name ++ text " threw: " ++ failure.message)
            after) := by
  rcases hcall : (call name tool input).run state with ⟨failure | answered, after⟩
  · simp only [run, hfound, hcall]
  · simp only [run, hfound, hcall]

end Ends

/-- A call whose arguments are objected to goes no further. -/
theorem call_of_objection (hobjection : tool.objection? before.disk arguments = some objection) :
    (call name tool.toTool arguments).run before =
      (.ok (failureAnswer name objection),
        before.log .warning (name ++ text " input rejected: " ++ objection)) := by
  have hlook : (tool.toTool.objection? arguments).run before = (.ok (some objection), before) := by
    rw [← hobjection]
    rfl
  rw [call_eq, hlook]
  rfl

theorem call_of_none (hnone : tool.objection? before.disk arguments = none) :
    (call name tool.toTool arguments).run before =
      match (tool.execute arguments).run before with
      | (.ok result, after) => (nameAnswer name result, after)
      | (.error failure, after) => (.error failure, after) := by
  have hlook : (tool.toTool.objection? arguments).run before = (.ok none, before) := by
    rw [← hnone]
    rfl
  have hexecute :
      (tool.toTool.execute arguments).run before = (tool.execute arguments).run before :=
    rfl
  rcases hran : (tool.execute arguments).run before with ⟨failure | result, after⟩
  · simp only [call_eq, hlook, hexecute, hran]
  · simp only [call_eq, hlook, hexecute, hran]

section Found

variable (hfound : registry.find? toolName = some tool.toTool)

include hfound

/-- Every answer reports either success or failure. -/
theorem reports_run (arguments : Json) (before : Workspace) :
    (registry.run toolName arguments before).1.Reports := by
  refine good_run (fun error => .inr (reportsFailure_failureAnswer toolName error))
    (fun result answered hreports hanswer => reports_nameAnswer hanswer hreports)
    (fun other hother => ?_) before
  obtain rfl := Option.some.inj (hother.symm.trans hfound)
  exact fun before answered hran => (tool.execute_yields arguments before answered hran).reports

theorem run_of_applies (happlies : tool.Applies arguments before.disk patch) :
    registry.run toolName arguments before =
      (answer (patch.apply tool.context before).1, (patch.apply tool.context before).2) := by
  have hnone : tool.objection? before.disk arguments = none := by
    simp only [ApplyPatch.objection?, happlies.read, happlies.check]
  rw [run_of_find? hfound, call_of_none hnone,
    ApplyPatch.execute_plain happlies.read happlies.plain happlies.check]
  simp only [nameAnswer_answer]

/-- A call that does not apply its patch writes nothing but the log. -/
theorem run_onlyLogs (hnone : ∀ patch, ¬ tool.Applies arguments before.disk patch) :
    before.OnlyLogs (registry.run toolName arguments before).2 := by
  have hquiet := ApplyPatch.execute_quiet hnone
  have hcall : before.OnlyLogs ((call toolName tool.toTool arguments).run before).2 := by
    cases hobjection : tool.objection? before.disk arguments with
    | some objection =>
      rw [call_of_objection hobjection]
      exact before.onlyLogs_log .warning _
    | none =>
      rw [call_of_none hobjection]
      rcases hran : (tool.execute arguments).run before with ⟨failure | result, after⟩
      · rw [hran] at hquiet
        exact hquiet
      · rw [hran] at hquiet
        exact hquiet
  rw [run_of_find? hfound]
  rcases hran : (call toolName tool.toTool arguments).run before with ⟨failure | answered, after⟩
  · rw [hran] at hcall
    exact hcall.trans (after.onlyLogs_log .error _)
  · rw [hran] at hcall
    exact hcall

/-- A call that asks for no trial is objected to, or it applies its patch. -/
theorem reportsFailure_run (hplain : isDryRun arguments = .ok false)
    (hnone : ∀ patch, ¬ tool.Applies arguments before.disk patch) :
    ReportsFailure (registry.run toolName arguments before).1 := by
  cases hobjection : tool.objection? before.disk arguments with
  | some objection =>
    rw [run_of_find? hfound, call_of_objection hobjection]
    exact reportsFailure_failureAnswer _ _
  | none =>
    rw [ApplyPatch.objection?] at hobjection
    split at hobjection
    · cases hobjection
    · rename_i patch hread
      split at hobjection
      · cases hobjection
      · rename_i hcheck
        exact absurd ⟨hread, hplain, hcheck⟩ (hnone patch)

/-- A call that asks for no trial succeeds exactly if it carries out every hunk of a patch, and then
it does nothing else. -/
theorem reportsSuccess_run_iff (hplain : isDryRun arguments = .ok false) :
    ReportsSuccess (registry.run toolName arguments before).1 ∧
        (registry.run toolName arguments before).2 = last ↔
      ∃ patch, tool.Applies arguments before.disk patch ∧ patch ≠ [] ∧
        Patch.CarriesOut tool.context before patch last := by
  constructor
  · rintro ⟨hsuccess, hlast⟩
    by_cases hsome : ∃ patch, tool.Applies arguments before.disk patch
    · obtain ⟨patch, happlies⟩ := hsome
      rw [run_of_applies hfound happlies] at hsuccess hlast
      refine ⟨patch, happlies, Patch.apply_eq_last_iff.mp ⟨?_, hlast⟩⟩
      cases herror : (patch.apply tool.context before).1.error with
      | none => rfl
      | some failure =>
        exact absurd (ApplyPatch.reportsFailure_answer herror) hsuccess.not_reportsFailure
    · exact absurd (reportsFailure_run hfound hplain (not_exists.mp hsome))
        hsuccess.not_reportsFailure
  · rintro ⟨patch, happlies, hcarries⟩
    obtain ⟨herror, hlast⟩ := Patch.apply_eq_last_iff.mpr hcarries
    rw [run_of_applies hfound happlies]
    exact ⟨ApplyPatch.reportsSuccess_answer herror, hlast⟩

end Found

end Registry

end Patchwork
