import Patchwork.Proofs.Diff.Heading
import Patchwork.Proofs.Table
import Patchwork.Proofs.Tool.Answer
import Patchwork.Proofs.Utf8

/-!
# Answers are valid UTF-8

File contents, paths and patches are byte strings of any kind, and parts of them stand in the
answers.  Still no string of an answer is anything but well-formed UTF-8, whatever the call is for
and however it ends: what comes from outside is sanitized on its way into an answer.  Main
statement: `ApplyPatch.answers_utf8`.
-/

namespace Patchwork

open Utf8 (WellFormed)

theorem wellFormed_decimal (number : Nat) : WellFormed (decimal number) :=
  Utf8.wellFormed_of_ascii fun _ hbyte => (Diff.toNat_of_mem_decimal hbyte).2.trans_lt (by decide)

namespace Json

/-! ## The strings of a value -/

/-- The string stands somewhere in the value, as a value itself or as the key of a member. -/
inductive Holds : Json → Bytes → Prop
  | string (content : Bytes) : Holds (.string content) content
  | item {items : List Json} {item : Json} {content : Bytes} (hitem : item ∈ items)
      (hholds : item.Holds content) : Holds (.array items) content
  | key {members : List (Bytes × Json)} {entry : Bytes × Json} (hentry : entry ∈ members) :
      Holds (.object members) entry.1
  | member {members : List (Bytes × Json)} {entry : Bytes × Json} {content : Bytes}
      (hentry : entry ∈ members) (hholds : entry.2.Holds content) : Holds (.object members) content

/-- Every string of the value is well-formed. -/
def IsUtf8 (json : Json) : Prop :=
  ∀ content, json.Holds content → WellFormed content

/-- Every string of the members is well-formed. -/
def AreUtf8 (members : List (Bytes × Json)) : Prop :=
  ∀ entry ∈ members, WellFormed entry.1 ∧ entry.2.IsUtf8

variable {key content : Bytes} {value json whole : Json} {items : List Json}
  {members more : List (Bytes × Json)}

theorem isUtf8_bool (value : Bool) : IsUtf8 (bool value) :=
  fun _ hholds => nomatch hholds

theorem isUtf8_string (hcontent : WellFormed content) : IsUtf8 (string content) := by
  rintro _ (_ | _ | _)
  exact hcontent

theorem isUtf8_array (hitems : ∀ item ∈ items, item.IsUtf8) : IsUtf8 (array items) := by
  intro content hholds
  cases hholds with
  | item hitem hholds => exact hitems _ hitem content hholds

theorem isUtf8_object (hmembers : AreUtf8 members) : IsUtf8 (object members) := by
  intro content hholds
  cases hholds with
  | key hentry => exact (hmembers _ hentry).1
  | member hentry hholds => exact (hmembers _ hentry).2 content hholds

theorem IsUtf8.areUtf8 (hjson : IsUtf8 (object members)) : AreUtf8 members :=
  fun _ hentry =>
    ⟨hjson _ (.key hentry), fun content hholds => hjson content (.member hentry hholds)⟩

theorem areUtf8_nil : AreUtf8 [] :=
  List.forall_mem_nil _

theorem areUtf8_cons (hkey : WellFormed key) (hvalue : value.IsUtf8) (hmembers : AreUtf8 members) :
    AreUtf8 ((key, value) :: members) :=
  List.forall_mem_cons.mpr ⟨⟨hkey, hvalue⟩, hmembers⟩

theorem AreUtf8.append (hmembers : AreUtf8 members) (hmore : AreUtf8 more) :
    AreUtf8 (members ++ more) :=
  List.forall_mem_append.mpr ⟨hmembers, hmore⟩

theorem AreUtf8.insert (hmembers : AreUtf8 members) (hkey : WellFormed key)
    (hvalue : value.IsUtf8) : AreUtf8 (Table.insert key value members) := by
  intro entry hentry
  rcases Table.mem_of_mem_insert hentry with rfl | hbefore
  · exact ⟨hkey, hvalue⟩
  · exact hmembers entry hbefore

theorem isUtf8_ofMembers (hmembers : AreUtf8 members) : IsUtf8 (ofMembers members) :=
  isUtf8_object fun entry hentry => hmembers entry (Table.mem_of_mem_ofEntries hentry)

theorem isUtf8_setMember? (hjson : json.IsUtf8) (hkey : WellFormed key) (hvalue : value.IsUtf8)
    (hset : json.setMember? key value = some whole) : whole.IsUtf8 := by
  cases json with
  | object members =>
    obtain rfl := Option.some.inj hset
    exact isUtf8_object (hjson.areUtf8.insert hkey hvalue)
  | null =>
    obtain rfl := Option.some.inj hset
    exact isUtf8_object (areUtf8_cons hkey hvalue areUtf8_nil)
  | bool | number | string | array => cases hset

/-- Whatever comes from outside is sanitized. -/
theorem isUtf8_sanitized (content : Bytes) : IsUtf8 (sanitized content) :=
  isUtf8_string (Utf8.sanitize_wellFormed content)

theorem isUtf8_sanitizedAll (contents : List Bytes) : IsUtf8 (array (contents.map sanitized)) :=
  isUtf8_array (List.forall_mem_map.mpr fun content _ => isUtf8_sanitized content)

end Json

open Json (IsUtf8 AreUtf8 areUtf8_nil areUtf8_cons isUtf8_bool isUtf8_string isUtf8_array
  isUtf8_ofMembers isUtf8_setMember? isUtf8_sanitized isUtf8_sanitizedAll)

/-! ## Reports -/

theorem ChangeKind.wellFormed_name (kind : ChangeKind) : WellFormed kind.name := by
  cases kind <;> exact wellFormed_text _

theorem Change.isUtf8_toJson (change : Change) : IsUtf8 change.toJson := by
  refine isUtf8_ofMembers (AreUtf8.append ?_ ?_)
  · refine areUtf8_cons (wellFormed_text _) (isUtf8_sanitized _) ?_
    refine areUtf8_cons (wellFormed_text _) (isUtf8_string change.kind.wellFormed_name) ?_
    refine areUtf8_cons (wellFormed_text _) (isUtf8_sanitized _) ?_
    refine areUtf8_cons (wellFormed_text _) (isUtf8_sanitized _) ?_
    exact areUtf8_cons (wellFormed_text _) (isUtf8_sanitized _) areUtf8_nil
  · cases change.destination with
    | none => exact areUtf8_nil
    | some destination =>
      exact areUtf8_cons (wellFormed_text _) (isUtf8_sanitized _) areUtf8_nil

namespace Report

theorem isUtf8_metadata (report : Report) : IsUtf8 (.ofMembers [
    (text "added", sanitizedPaths report.added),
    (text "modified", sanitizedPaths report.modified),
    (text "deleted", sanitizedPaths report.deleted),
    (text "changes", .array (report.changes.map Change.toJson))]) := by
  have hchanges : IsUtf8 (.array (report.changes.map Change.toJson)) :=
    isUtf8_array (List.forall_mem_map.mpr fun change _ => change.isUtf8_toJson)
  refine isUtf8_ofMembers ?_
  refine areUtf8_cons (wellFormed_text _) (isUtf8_sanitizedAll _) ?_
  refine areUtf8_cons (wellFormed_text _) (isUtf8_sanitizedAll _) ?_
  refine areUtf8_cons (wellFormed_text _) (isUtf8_sanitizedAll _) ?_
  exact areUtf8_cons (wellFormed_text _) hchanges areUtf8_nil

theorem isUtf8_toJson (report : Report) : IsUtf8 report.toJson := by
  refine isUtf8_ofMembers (AreUtf8.append ?_ ?_)
  · refine areUtf8_cons (wellFormed_text _) (isUtf8_string (wellFormed_text _)) ?_
    refine areUtf8_cons (wellFormed_text _) (isUtf8_bool _) ?_
    exact areUtf8_cons (wellFormed_text _) report.isUtf8_metadata areUtf8_nil
  · cases report.error with
    | none => exact areUtf8_nil
    | some failure => exact areUtf8_cons (wellFormed_text _) (isUtf8_sanitized _) areUtf8_nil

end Report

/-! ## Answers -/

namespace ApplyPatch

theorem isUtf8_textContent {content : Bytes} (hcontent : WellFormed content) :
    IsUtf8 (textContent content) := by
  refine isUtf8_array (List.forall_mem_singleton.mpr (isUtf8_ofMembers ?_))
  refine areUtf8_cons (wellFormed_text _) (isUtf8_string (wellFormed_text _)) ?_
  exact areUtf8_cons (wellFormed_text _) (isUtf8_string hcontent) areUtf8_nil

theorem areUtf8_errorMembers (failure : Failure) : AreUtf8 (errorMembers failure) := by
  refine areUtf8_cons (wellFormed_text _) (isUtf8_bool false) ?_
  exact areUtf8_cons (wellFormed_text _) (isUtf8_sanitized _) areUtf8_nil

theorem isUtf8_answer (report : Report) : IsUtf8 (answer report) := by
  have hcontent := isUtf8_textContent (Utf8.sanitize_wellFormed report.summary.dropLast)
  simp only [answer]
  split
  · exact report.isUtf8_toJson
  · cases hset : report.toJson.setMember? (text "content")
        (textContent (Utf8.sanitize report.summary.dropLast)) with
    | none => exact report.isUtf8_toJson
    | some whole => exact isUtf8_setMember? report.isUtf8_toJson (wellFormed_text _) hcontent hset

theorem areUtf8_trialMembers (patch : Patch) : AreUtf8 (trialMembers patch) := by
  refine areUtf8_cons (wellFormed_text _) (isUtf8_bool true) ?_
  exact areUtf8_cons (wellFormed_text _) (isUtf8_sanitizedAll _) areUtf8_nil

theorem areUtf8_cleanMembers (patch : Patch) : AreUtf8 (cleanMembers patch) := by
  have hcontent : WellFormed (text "Dry-run OK: " ++ decimal patch.length ++
      text " hunk(s) would apply cleanly.") :=
    ((wellFormed_text _).append (wellFormed_decimal _)).append (wellFormed_text _)
  refine areUtf8_cons (wellFormed_text _) (isUtf8_bool true) ?_
  exact areUtf8_cons (wellFormed_text _) (isUtf8_textContent hcontent) areUtf8_nil

theorem IsAnswer.isUtf8 {answered : Json} (hanswer : IsAnswer answered) : answered.IsUtf8 := by
  cases hanswer with
  | refused failure => exact isUtf8_ofMembers (areUtf8_errorMembers failure)
  | clean patch =>
    exact isUtf8_ofMembers ((areUtf8_trialMembers patch).append (areUtf8_cleanMembers patch))
  | obstructed patch failure =>
    exact isUtf8_ofMembers ((areUtf8_trialMembers patch).append (areUtf8_errorMembers failure))
  | applied report => exact isUtf8_answer report

end ApplyPatch

namespace Registry

variable {name : Bytes}

theorem isUtf8_failureAnswer (name error : Bytes) : IsUtf8 (failureAnswer name error) := by
  refine isUtf8_ofMembers ?_
  refine areUtf8_cons (wellFormed_text _) (isUtf8_sanitized name) ?_
  refine areUtf8_cons (wellFormed_text _) (isUtf8_bool false) ?_
  exact areUtf8_cons (wellFormed_text _) (isUtf8_sanitized error) areUtf8_nil

theorem isUtf8_nameAnswer {result answer : Json} (hname : WellFormed name) (hresult : result.IsUtf8)
    (hanswer : nameAnswer name result = .ok answer) : answer.IsUtf8 := by
  rw [nameAnswer] at hanswer
  split at hanswer
  · obtain rfl := Except.ok.inj hanswer
    exact hresult
  · split at hanswer
    · rename_i hset
      obtain rfl := Except.ok.inj hanswer
      exact isUtf8_setMember? hresult (wellFormed_text _) (isUtf8_string hname) hset
    · cases hanswer

end Registry

/-- Every string of an answer is well-formed UTF-8, whether the tool is called itself or by its name
among others, and so is every string of the answer to a name that no tool has. -/
theorem ApplyPatch.answers_utf8 (tool : ApplyPatch) (arguments : Json) (before : Workspace) :
    (∀ answered, ((tool.execute arguments).run before).1 = .ok answered → answered.IsUtf8) ∧
    ∀ (registry : Registry Workspace) (name : Bytes),
      (name = toolName ∧ registry.find? name = some tool.toTool) ∨ registry.find? name = none →
        (registry.run name arguments before).1.IsUtf8 := by
  have hexecute : (tool.execute arguments).Yields IsUtf8 :=
    fun before answered hran => (execute_yields tool arguments before answered hran).isUtf8
  refine ⟨hexecute before, fun registry name hname => ?_⟩
  rcases hname with ⟨rfl, htool⟩ | hnone
  · refine Registry.good_run (Registry.isUtf8_failureAnswer _)
      (fun _ _ => Registry.isUtf8_nameAnswer (wellFormed_text _)) (fun found hfound => ?_) before
    obtain rfl := Option.some.inj (hfound.symm.trans htool)
    exact hexecute
  · rw [Registry.run, hnone]
    exact Registry.isUtf8_failureAnswer _ _

end Patchwork
