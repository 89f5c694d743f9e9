import Patchwork.Proofs.Arguments
import Patchwork.Proofs.Config
import Patchwork.Proofs.Tool.Verdict
import Patchwork.Proofs.Trim

/-!
# What the exit of the program tells

The program ends early, and writes nothing but the log, unless its arguments, its configuration,
its patch and its root can be used.  Else it calls the patching tool once, and its exit tells what
the tool reported.  Main statement: `CommandLine.runBeside_exit`.
-/

namespace Patchwork

namespace ApplyPatch

theorem isBlank_of_isInputBlank {byte : UInt8} (hblank : isInputBlank byte = true) :
    Bytes.isBlank byte = true := by
  simp only [isInputBlank, Bool.or_eq_true, beq_iff_eq] at hblank
  rcases hblank with ((rfl | rfl) | rfl) | rfl <;> decide

/-- A text that is left out as blank is no patch. -/
theorem parse_of_blank {patch : Bytes} (hblank : patch.all isInputBlank = true) :
    Patch.parse patch = .error .emptyPatch := by
  have htrim : Bytes.trim patch = [] := Bytes.trim_eq_nil_of_blank fun byte hbyte =>
    isBlank_of_isInputBlank (List.all_eq_true.mp hblank byte hbyte)
  rw [Patch.parse, if_pos htrim]

end ApplyPatch

namespace CommandLine

open Json (ReportsSuccess ReportsFailure)

variable {arguments : List Bytes} {input : Bytes} {options : Options} {config : Config}
  {before after : Workspace} {beside : Option Bytes} {patch : Bytes} {tool : ApplyPatch}
  {hunks : Patch} {answer : Json}

/-! ## The arguments of the tool -/

theorem inputText?_toolArguments :
    ApplyPatch.inputText? (toolArguments options patch) =
      if patch.all ApplyPatch.isInputBlank then none else some patch := by
  have hmember : (toolArguments options patch).member? ApplyPatch.inputKey =
      some (.string patch) := by
    rw [toolArguments, Json.member?_ofMembers]
    cases options.dryRun <;> rfl
  rw [ApplyPatch.inputText?, hmember]

theorem isDryRun_toolArguments :
    ApplyPatch.isDryRun (toolArguments options patch) = .ok options.dryRun := by
  have hmember : (toolArguments options patch).member? ApplyPatch.dryRunKey =
      if options.dryRun then some (.bool true) else none := by
    rw [toolArguments, Json.member?_ofMembers]
    cases options.dryRun <;> rfl
  rw [ApplyPatch.isDryRun, hmember]
  cases options.dryRun <;> rfl

/-- The tool reads the text that it is given, with the paths below its root. -/
theorem read_toolArguments :
    tool.read (toolArguments options patch) = .ok hunks ↔
      ∃ parsed, Patch.parse patch = .ok parsed ∧ parsed.resolve tool.root = hunks := by
  rw [ApplyPatch.read, inputText?_toolArguments]
  by_cases hblank : patch.all ApplyPatch.isInputBlank = true
  · rw [if_pos hblank, ApplyPatch.parse_of_blank hblank]
    exact iff_of_false (by rintro ⟨⟩) (by rintro ⟨parsed, ⟨⟩, -⟩)
  · rw [if_neg hblank]
    cases hparse : Patch.parse patch with
    | error problem => simp [hparse]
    | ok parsed => simp [hparse]

/-! ## The log -/

/-- The workspace with the log settings of a configuration. -/
def withLog (config : Config) (workspace : Workspace) : Workspace :=
  { workspace with
    settings := { workspace.settings with
      file := config.logFile, console := config.logToConsole, debug := config.logDebug } }

theorem setUpLog_onlyLogs (config : Config) (path? : Option Bytes) (workspace : Workspace) :
    (withLog config workspace).OnlyLogs (setUpLog config path? workspace) := by
  cases path? with
  | none => exact .refl _
  | some path => exact Workspace.onlyLogs_log _ .info _

section Files

variable [Json.Library]

/-- The arguments lead to a configuration whose log file is at the location. -/
def LogsTo (arguments : List Bytes) (disk : Disk) (beside : Option Bytes) (location : Location) :
    Prop :=
  ∃ options config, Gives arguments options ∧ Configures disk options beside config ∧
    config.logFile ≠ [] ∧ location = disk.goal config.logFile

/-- All that was there stands where it stood, but for the log file. -/
def LeavesFiles (arguments : List Bytes) (before : Workspace) (beside : Option Bytes)
    (outcome : Outcome) : Prop :=
  ∀ location, ¬ LogsTo arguments before.disk beside location →
    outcome.workspace.disk.node? location = before.disk.node? location

theorem leavesFiles_of_onlyLogs {outcome : Outcome} (hgives : Gives arguments options)
    (hconfig : Configures before.disk options beside config)
    (honly : (withLog config before).OnlyLogs after)
    (hdisk : outcome.workspace.disk = after.disk) :
    LeavesFiles arguments before beside outcome := by
  intro location hspared
  rw [hdisk]
  refine honly.node? location ?_
  by_cases hfile : config.logFile = []
  · exact .inl hfile
  · exact .inr fun hlog => hspared ⟨options, config, hgives, hconfig, hfile, hlog⟩

end Files

/-! ## Calls of the tool -/

/-- What the program calls its tool with. -/
structure Call where
  options : Options
  config : Config
  /-- The path that the configuration was loaded from. -/
  loaded : Option Bytes
  patch : Bytes
  tool : ApplyPatch

namespace Call

/-- The workspace that the tool is called on. -/
def begun (call : Call) (before : Workspace) : Workspace :=
  setUpLog call.config call.loaded before

/-- The only tool there is, under its name. -/
def registry (call : Call) : Registry Workspace :=
  { tools := [(toolName, call.tool.toTool)] }

/-- The answer to the call, and the workspace behind it. -/
def result (call : Call) (before : Workspace) : Json × Workspace :=
  call.registry.run toolName (toolArguments call.options call.patch) (call.begun before)

/-- The text is a patch with at least one hunk, the files that it needs are there, and all its
hunks are applied. -/
def CarriesOut (call : Call) (before after : Workspace) : Prop :=
  ∃ patch, Patch.parse call.patch = .ok patch ∧ patch ≠ [] ∧
    Patch.check (call.begun before).disk (patch.resolve call.tool.root) = .ok () ∧
    Patch.CarriesOut call.tool.context (call.begun before) (patch.resolve call.tool.root) after

end Call

variable {call : Call}

theorem Call.registry_find? (call : Call) :
    call.registry.find? toolName = some call.tool.toTool := by
  rw [Registry.find?, Table.find?, registry, List.lookup_cons, beq_self_eq_true]

theorem Call.reports (call : Call) (before : Workspace) : (call.result before).1.Reports :=
  Registry.reports_run call.registry_find? _ _

/-- A call that is no dry run succeeds exactly if it applies all hunks of a patch, and then it does
nothing else. -/
theorem Call.reportsSuccess_iff (hplain : call.options.dryRun = false) :
    (call.result before).1.ReportsSuccess ∧ (call.result before).2 = after ↔
      call.CarriesOut before after := by
  have hdry : ApplyPatch.isDryRun (toolArguments call.options call.patch) = .ok false := by
    rw [isDryRun_toolArguments, hplain]
  rw [Call.result, Registry.reportsSuccess_run_iff call.registry_find? hdry]
  constructor
  · rintro ⟨hunks, happlies, hne, hcarries⟩
    obtain ⟨patch, hparse, rfl⟩ := read_toolArguments.mp happlies.read
    exact ⟨patch, hparse, fun hnil => hne (by rw [hnil]; rfl), happlies.check, hcarries⟩
  · rintro ⟨patch, hparse, hne, hcheck, hcarries⟩
    exact ⟨_, ⟨read_toolArguments.mpr ⟨patch, hparse, rfl⟩, hdry, hcheck⟩,
      fun hnil => hne (List.map_eq_nil_iff.mp hnil), hcarries⟩

/-- A dry run writes nothing but the log. -/
theorem Call.result_onlyLogs (htrial : call.options.dryRun = true) :
    (call.begun before).OnlyLogs (call.result before).2 := by
  refine Registry.run_onlyLogs call.registry_find? fun patch happlies => ?_
  have hplain := happlies.plain
  rw [isDryRun_toolArguments, htrial] at hplain
  cases hplain

/-! ## Exits -/

section Exits

theorem disk_giveUp (problem : Json.Problem) (written : Bytes) :
    (giveUp problem written after).workspace.disk = after.disk :=
  rfl

theorem disk_approve (written : Bytes) :
    (approve options written after).workspace.disk = after.disk := by
  simp only [approve]
  split <;> rfl

variable [Json.Library]

theorem disk_reject (written : Bytes) :
    (reject answer written after).workspace.disk = after.disk := by
  simp only [reject]
  split <;> rfl

theorem disk_finish : (finish options answer after).workspace.disk = after.disk := by
  rw [finish]
  rcases succeeded answer with problem | success
  · exact disk_giveUp problem _
  · simp only []
    rcases output options after.accessed answer success with ⟨written, none | problem⟩
    · cases success
      · exact disk_reject written
      · exact disk_approve written
    · exact disk_giveUp problem written

/-- Only the texts of a success can be missing. -/
theorem output_of_failure (options : Options) (accessed : AccessTable) (answer : Json) :
    ∃ written, output options accessed answer false = (written, none) := by
  rw [output]
  split <;> exact ⟨_, rfl⟩

variable [Json.LawfulLibrary]

theorem succeeded_of_success (hsuccess : answer.ReportsSuccess) :
    succeeded answer = .ok true := by
  rw [succeeded, Json.LawfulLibrary.boolOr_of_member? false hsuccess.success, hsuccess.error]
  rfl

theorem succeeded_of_failure (hfailure : answer.ReportsFailure) :
    succeeded answer = .ok false := by
  rw [succeeded, Json.LawfulLibrary.boolOr_of_member? false hfailure.success]
  rfl

theorem textLines_textContent (content : Bytes) :
    textLines (ApplyPatch.textContent content).elements = (content ++ [Bytes.newline], none) := by
  have htext : ∀ item, (ApplyPatch.textContent content).elements = [item] →
      Json.Library.stringOr item (text "text") [] = .ok content := by
    intro item hitem
    obtain rfl := List.singleton_inj.mp hitem
    apply Json.LawfulLibrary.stringOr_of_member?
    rw [Json.member?_ofMembers]
    rfl
  rw [ApplyPatch.textContent, Json.elements, textLines, htext _ rfl]
  rfl

theorem output_of_success (options : Options) (accessed : AccessTable)
    (hsuccess : answer.ReportsSuccess) :
    ∃ written, output options accessed answer true = (written, none) := by
  obtain ⟨content, hcontent⟩ := hsuccess.content
  rw [output, Json.LawfulLibrary.valueOr_of_member? _ hcontent]
  split
  · exact ⟨_, rfl⟩
  · exact ⟨_, textLines_textContent content⟩

theorem finish_of_success (options : Options) (after : Workspace)
    (hsuccess : answer.ReportsSuccess) :
    ∃ written, finish options answer after = approve options written after := by
  obtain ⟨written, hwritten⟩ := output_of_success options after.accessed hsuccess
  refine ⟨written, ?_⟩
  rw [finish, succeeded_of_success hsuccess]
  simp only [hwritten, if_true]

theorem exit_finish_of_success (hsuccess : answer.ReportsSuccess) :
    (finish options answer after).exit = .code 0 := by
  obtain ⟨written, hfinish⟩ := finish_of_success options after hsuccess
  rw [hfinish, approve]

/-- Nothing is said on the console about a success that is no dry run. -/
theorem workspace_finish (hsuccess : answer.ReportsSuccess) (hplain : options.dryRun = false) :
    (finish options answer after).workspace = after := by
  obtain ⟨written, hfinish⟩ := finish_of_success options after hsuccess
  simp [hfinish, approve, hplain]

theorem exit_finish_of_failure (hfailure : answer.ReportsFailure) :
    (finish options answer after).exit = .code 1 := by
  obtain ⟨message, hmessage⟩ := hfailure.error
  obtain ⟨written, hwritten⟩ := output_of_failure options after.accessed answer
  rw [finish, succeeded_of_failure hfailure]
  simp only [hwritten, reject, Json.LawfulLibrary.stringOr_of_member? _ hmessage]
  rfl

end Exits

section Runs

variable [Json.Library]

/-- The arguments, the configuration, the patch file and the root can be used, and no help is
asked for: the program calls its tool. -/
structure Reaches (arguments : List Bytes) (input : Bytes) (before : Workspace)
    (beside : Option Bytes) (call : Call) : Prop where
  options : Gives arguments call.options
  help : call.options.help = false
  config : Configures before.disk call.options beside call.config
  loaded : configPath? before.disk call.options beside = call.loaded
  patch : patchSource (call.begun before).disk input call.options.patchFile = .found call.patch
  tool : ApplyPatch.ofRoot (call.begun before).disk call.config.root call.config.context =
    .ok call.tool

/-! ## Runs that end early -/

/-- The tool is not called: the exit tells no failure of it, and success only where help was asked
for. -/
structure EndsEarly (arguments : List Bytes) (before : Workspace) (beside : Option Bytes)
    (outcome : Outcome) : Prop where
  not_failed : outcome.exit ≠ .code 1
  help : outcome.exit = .code 0 → Asks arguments .help
  leaves : LeavesFiles arguments before beside outcome

/-- A run that does not reach its tool ends early. -/
theorem endsEarly_of_not_reaches (hnone : ∀ call, ¬ Reaches arguments input before beside call) :
    EndsEarly arguments before beside (runBeside beside arguments input before) := by
  rw [runBeside]
  cases hread : readArguments {} false arguments with
  | error problem => exact ⟨nofun, nofun, fun _ _ => rfl⟩
  | ok options =>
    have hgives := readArguments_eq_ok_iff.mp hread
    simp only [runOptions]
    split
    · rename_i hhelp
      exact ⟨nofun, fun _ => hgives.asks_help_iff.mpr hhelp, fun _ _ => rfl⟩
    · rename_i hhelp
      cases hconfig : CommandLine.config before.disk options beside with
      | error problem => exact ⟨nofun, nofun, fun _ _ => rfl⟩
      | ok config =>
        have hconfigures := config_eq_ok_iff.mp hconfig
        have honly := setUpLog_onlyLogs config (configPath? before.disk options beside) before
        have hleaves : ∀ {outcome : Outcome}, outcome.workspace.disk =
            (setUpLog config (configPath? before.disk options beside) before).disk →
              LeavesFiles arguments before beside outcome :=
          leavesFiles_of_onlyLogs hgives hconfigures honly
        simp only []
        split
        · exact ⟨nofun, nofun, hleaves rfl⟩
        · exact ⟨nofun, nofun, hleaves rfl⟩
        · rename_i patch hpatch
          rw [callTool]
          split
          · exact ⟨nofun, nofun, hleaves rfl⟩
          · rename_i tool htool
            exact absurd ⟨hgives, Bool.eq_false_iff.mpr hhelp, hconfigures, rfl, hpatch, htool⟩
              (hnone ⟨options, config, _, patch, tool⟩)

/-! ## Runs that reach the tool -/

section Reached

variable (hreaches : Reaches arguments input before beside call)

include hreaches

theorem Reaches.run_eq : runBeside beside arguments input before =
    finish call.options (call.result before).1 (call.result before).2 := by
  rw [runBeside, readArguments_eq_ok_iff.mpr hreaches.options]
  simp only []
  rw [runOptions, if_neg (by rw [hreaches.help]; exact nofun),
    config_eq_ok_iff.mpr hreaches.config]
  have hpatch := hreaches.patch
  have htool := hreaches.tool
  rw [Call.begun] at hpatch htool
  simp only [hreaches.loaded, hpatch]
  rw [callTool, htool]
  rfl

theorem Reaches.leaves_of_dryRun (htrial : call.options.dryRun = true) :
    LeavesFiles arguments before beside (runBeside beside arguments input before) := by
  have honly := (setUpLog_onlyLogs call.config call.loaded before).trans
    (Call.result_onlyLogs htrial)
  rw [hreaches.run_eq]
  exact leavesFiles_of_onlyLogs hreaches.options hreaches.config honly disk_finish

variable [Json.LawfulLibrary]

theorem Reaches.exit_eq_zero_iff :
    (runBeside beside arguments input before).exit = .code 0 ↔
      (call.result before).1.ReportsSuccess := by
  rw [hreaches.run_eq]
  refine ⟨fun hexit => ?_, exit_finish_of_success⟩
  rcases call.reports before with hsuccess | hfailure
  · exact hsuccess
  · rw [exit_finish_of_failure hfailure] at hexit
    cases hexit

theorem Reaches.exit_eq_one_iff :
    (runBeside beside arguments input before).exit = .code 1 ↔
      (call.result before).1.ReportsFailure := by
  rw [hreaches.run_eq]
  refine ⟨fun hexit => ?_, exit_finish_of_failure⟩
  rcases call.reports before with hsuccess | hfailure
  · rw [exit_finish_of_success hsuccess] at hexit
    cases hexit
  · exact hfailure

theorem Reaches.exit_cases : (runBeside beside arguments input before).exit = .code 0 ∨
    (runBeside beside arguments input before).exit = .code 1 := by
  rw [hreaches.exit_eq_zero_iff, hreaches.exit_eq_one_iff]
  exact call.reports before

end Reached

/-! ## What the exit tells -/

variable [Json.LawfulLibrary]

theorem exit_eq_zero_iff :
    (runBeside beside arguments input before).exit = .code 0 ∧ ¬ Asks arguments .help ∧
        ¬ Asks arguments .dryRun ↔
      ∃ call, Reaches arguments input before beside call ∧ call.options.dryRun = false ∧
        call.CarriesOut before (runBeside beside arguments input before).workspace := by
  constructor
  · rintro ⟨hexit, hhelp, htrial⟩
    by_cases hsome : ∃ call, Reaches arguments input before beside call
    · obtain ⟨call, hreaches⟩ := hsome
      rw [hreaches.options.asks_dryRun_iff, Bool.not_eq_true] at htrial
      have hsuccess := hreaches.exit_eq_zero_iff.mp hexit
      rw [hreaches.run_eq, workspace_finish hsuccess htrial]
      exact ⟨call, hreaches, htrial, (Call.reportsSuccess_iff htrial).mp ⟨hsuccess, rfl⟩⟩
    · exact absurd ((endsEarly_of_not_reaches (not_exists.mp hsome)).help hexit) hhelp
  · rintro ⟨call, hreaches, hplain, hcarries⟩
    have hsuccess := ((Call.reportsSuccess_iff hplain).mpr hcarries).1
    rw [hreaches.options.asks_help_iff, hreaches.options.asks_dryRun_iff, hreaches.help, hplain]
    exact ⟨hreaches.exit_eq_zero_iff.mpr hsuccess, nofun, nofun⟩

theorem exit_eq_one_iff :
    (runBeside beside arguments input before).exit = .code 1 ↔
      ∃ call, Reaches arguments input before beside call ∧
        (call.result before).1.ReportsFailure := by
  constructor
  · intro hexit
    by_cases hsome : ∃ call, Reaches arguments input before beside call
    · obtain ⟨call, hreaches⟩ := hsome
      exact ⟨call, hreaches, hreaches.exit_eq_one_iff.mp hexit⟩
    · exact absurd hexit (endsEarly_of_not_reaches (not_exists.mp hsome)).not_failed
  · rintro ⟨call, hreaches, hfailure⟩
    exact hreaches.exit_eq_one_iff.mpr hfailure

/-- What the exit tells, whatever library reads and writes JSON.  It is success, with neither help
nor a dry run asked for, exactly if all that was given could be used and every hunk of a patch was
applied; then nothing else was done.  It is one exactly if the tool was called and reported failure.
At any other exit, and for help and for dry runs, every file and every directory is as it was, but
for the log file. -/
theorem runBeside_exit (beside : Option Bytes) (arguments : List Bytes) (input : Bytes)
    (before : Workspace) :
    ((runBeside beside arguments input before).exit = .code 0 ∧ ¬ Asks arguments .help ∧
        ¬ Asks arguments .dryRun ↔
      ∃ call, Reaches arguments input before beside call ∧ call.options.dryRun = false ∧
        call.CarriesOut before (runBeside beside arguments input before).workspace) ∧
    ((runBeside beside arguments input before).exit = .code 1 ↔
      ∃ call, Reaches arguments input before beside call ∧ (call.result before).1.ReportsFailure) ∧
    ((runBeside beside arguments input before).exit = .code 2 ∨
        (∃ failure, (runBeside beside arguments input before).exit = .uncaught failure) ∨
        Asks arguments .help ∨ Asks arguments .dryRun →
      LeavesFiles arguments before beside (runBeside beside arguments input before)) := by
  refine ⟨exit_eq_zero_iff, exit_eq_one_iff, fun hended => ?_⟩
  by_cases hsome : ∃ call, Reaches arguments input before beside call
  · obtain ⟨call, hreaches⟩ := hsome
    rw [hreaches.options.asks_help_iff, hreaches.options.asks_dryRun_iff, hreaches.help] at hended
    rcases hended with htwo | ⟨failure, huncaught⟩ | hhelp | htrial
    · rcases hreaches.exit_cases with hexit | hexit <;> cases htwo.symm.trans hexit
    · rcases hreaches.exit_cases with hexit | hexit <;> cases huncaught.symm.trans hexit
    · cases hhelp
    · exact hreaches.leaves_of_dryRun htrial
  · exact (endsEarly_of_not_reaches (not_exists.mp hsome)).leaves

end Runs

/-- A patch is applied under a configuration from a file. -/
theorem runBeside_exit_configured :
    let arguments := [text "--config", text "c"]
    let patch : Patch :=
      [.update (text "f") (some (text "g")) [⟨none, [text "a"], [text "b"], false⟩]]
    let before : Workspace := { disk := ⟨[
      ([text "c"], .file (text "\x7b\"patch\": \x7b\"diff_context_lines\": 1\x7d\x7d")),
      ([text "f"], .file (text "a\n"))], []⟩ }
    ∃ call, Reaches arguments patch.print before none call ∧ call.options.dryRun = false ∧
      call.CarriesOut before (runBeside none arguments patch.print before).workspace := by
  have hgives : Gives [text "--config", text "c"] { configPath := text "c" } :=
    ⟨[.config (text "c")], ⟨.cons (.config (text "c")) (.nil []), Nat.zero_le 1⟩, rfl⟩
  refine (runBeside_exit none _ _ _).1.mp ⟨?_, ?_, ?_⟩
  · decide +kernel
  · rw [hgives.asks_help_iff]
    exact nofun
  · rw [hgives.asks_dryRun_iff]
    exact nofun

/-- The file has been moved when the second hunk fails, and the exit does not hide that. -/
example :
    let patch : Patch :=
      [.update (text "f") (some (text "d/g")) [⟨none, [text "a"], [text "b"], false⟩],
        .delete (text "f")]
    let outcome := run [] patch.print { disk := ⟨[([text "f"], .file (text "a\n"))], []⟩ }
    outcome.exit = .code 1 ∧
      outcome.workspace.disk.status (text "d/g") = .ok (.file (text "b\n")) := by
  decide +kernel

end CommandLine

end Patchwork
