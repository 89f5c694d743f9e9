import Patchwork.Proofs.Apply.Step
import Patchwork.Tool.ApplyPatch
import Patchwork.Tool.Registry

/-!
# The answers of calls

The patching tool has four kinds of answers.  A registry passes the answer of a tool on under the
tool's name, or answers itself that the call failed.  So what holds of all answers is shown for one
kind after another.
-/

namespace Patchwork

namespace ApplyPatch

/-- The members with which every answer to a dry run begins. -/
def trialMembers (patch : Patch) : List (Bytes × Json) :=
  [(dryRunKey, .bool true),
    (text "affected_files", .array ((affectedFiles patch).map Json.sanitized))]

/-- The members of the answer to a dry run that went well. -/
def cleanMembers (patch : Patch) : List (Bytes × Json) :=
  [(text "success", .bool true),
    (text "content", textContent <|
      text "Dry-run OK: " ++ decimal patch.length ++ text " hunk(s) would apply cleanly.")]

/-- The answers that the tool gives. -/
inductive IsAnswer : Json → Prop
  /-- Nothing was tried. -/
  | refused (failure : Failure) : IsAnswer (.ofMembers (errorMembers failure))
  /-- The patch was tried and would apply. -/
  | clean (patch : Patch) : IsAnswer (.ofMembers (trialMembers patch ++ cleanMembers patch))
  /-- The patch was tried, and something stands in its way. -/
  | obstructed (patch : Patch) (failure : Failure) :
      IsAnswer (.ofMembers (trialMembers patch ++ errorMembers failure))
  /-- The patch was applied, up to its end or to a failure. -/
  | applied (report : Report) : IsAnswer (answer report)

theorem dryRun_yields (patch : Patch) : (dryRun patch).Yields IsAnswer := by
  refine Step.yields_last fun rehearsal => ?_
  split
  · exact Step.yields_pure (.clean patch)
  · split
    · exact Step.yields_pure (.obstructed patch _)
    · exact Step.yields_throw _

theorem refuse_yields (failure : Failure) : (refuse failure).Yields IsAnswer :=
  Step.yields_last fun _ => Step.yields_pure (.refused failure)

theorem execute_yields (tool : ApplyPatch) (arguments : Json) :
    (tool.execute arguments).Yields IsAnswer := by
  rw [execute]
  split
  · exact refuse_yields _
  · split
    · exact Step.yields_throw _
    · exact dryRun_yields _
    · refine Step.yields_last fun workspace => ?_
      split
      · exact refuse_yields _
      · exact Step.yields_last fun report => Step.yields_pure (.applied report)

end ApplyPatch

namespace Registry

variable {name : Bytes} {registry : Registry Workspace} {arguments : Json}
  {good : Json → Prop}

section Calls

variable (hfailure : ∀ error, good (failureAnswer name error))
  (hname : ∀ result answer, good result → nameAnswer name result = .ok answer → good answer)

include hfailure hname

theorem call_yields {tool : Tool Workspace} (htool : Step.Yields (tool.execute arguments) good) :
    Step.Yields (call name tool arguments) good := by
  refine Step.yields_last fun objection? => ?_
  split
  · exact Step.yields_last fun _ => Step.yields_pure (hfailure _)
  · refine Step.yields_bind htool fun result hresult => ?_
    split
    · exact Step.yields_pure (hname result _ hresult ‹_›)
    · exact Step.yields_throw _

/-- What holds of answers that a call failed, of the answers of the tool, and of what is made of
them under the tool's name, holds of every answer. -/
theorem good_run
    (htool : ∀ tool, registry.find? name = some tool → Step.Yields (tool.execute arguments) good)
    (before : Workspace) : good (registry.run name arguments before).1 := by
  rw [run]
  split
  · exact hfailure _
  · rename_i tool hfound
    split
    · rename_i hran
      exact call_yields hfailure hname (htool tool hfound) before _ (by rw [hran])
    · exact hfailure _

end Calls

end Registry

end Patchwork
