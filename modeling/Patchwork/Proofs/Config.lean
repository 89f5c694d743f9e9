import Patchwork.CommandLine

/-!
# Which configurations can be used

A JSON value is a configuration if it is an object, the library finds a value of the right type for
each setting, and a diff has no less than zero unchanged lines.  What a missing section does not say
has its default.  Main statements: `Config.ofJson_eq_ok_iff` and `CommandLine.config_eq_ok_iff`.
-/

namespace Patchwork

namespace Config

/-- What a setting in a section is: its default if the section is missing, and else what the library
takes out of the section. -/
inductive Sets {α : Type} (json : Json) (key : Bytes) (take : Json → Except Json.Problem α)
    (default : α) : α → Prop
  | missing (hmissing : json.member? key = none) : Sets json key take default default
  | taken {content : Json} {value : α} (hfound : json.member? key = some content)
      (htaken : take content = .ok value) : Sets json key take default value

theorem sets_of_missing_iff {α : Type} {json : Json} {key : Bytes}
    {take : Json → Except Json.Problem α} {default value : α} (hmissing : json.member? key = none) :
    Sets json key take default value ↔ default = value := by
  constructor
  · rintro (- | hfound)
    · rfl
    · cases hmissing.symm.trans hfound
  · rintro rfl
    exact .missing hmissing

theorem sets_of_found_iff {α : Type} {json content : Json} {key : Bytes}
    {take : Json → Except Json.Problem α} {default value : α}
    (hfound : json.member? key = some content) :
    Sets json key take default value ↔ take content = .ok value := by
  constructor
  · rintro (hmissing | ⟨hother, htaken⟩)
    · cases hmissing.symm.trans hfound
    · obtain rfl := Option.some.inj (hother.symm.trans hfound)
      exact htaken
  · exact .taken hfound

theorem setting_eq_ok_iff {α : Type} {taken : Except Json.Problem α} {value : α} :
    setting taken = .ok value ↔ taken = .ok value := by
  rcases taken with problem | other
  · exact iff_of_false nofun nofun
  · exact ⟨fun hvalue => congrArg _ (Except.ok.inj hvalue),
      fun hvalue => congrArg _ (Except.ok.inj hvalue)⟩

/-- A step behind another one succeeds exactly if both do. -/
theorem bind_eq_ok_iff {ε α β : Type} {first : Except ε α} {next : α → Except ε β} {result : β} :
    (first >>= next) = .ok result ↔ ∃ value, first = .ok value ∧ next value = .ok result := by
  rcases first with problem | value
  · exact iff_of_false nofun (by rintro ⟨_, ⟨⟩, -⟩)
  · constructor
    · exact fun hnext => ⟨value, rfl, hnext⟩
    · rintro ⟨_, ⟨⟩, hnext⟩
      exact hnext

/-- What is guarded succeeds exactly if nothing is bad and it succeeds. -/
theorem guard_eq_ok_iff {ε α : Type} {bad : Prop} [Decidable bad] {problem : ε} {next : Except ε α}
    {result : α} : (if bad then (do throw problem; next) else next) = .ok result ↔
      ¬ bad ∧ next = .ok result := by
  split
  · exact iff_of_false nofun fun h => h.1 ‹_›
  · exact (and_iff_right ‹_›).symm

variable [Json.Library] {json : Json} {config : Config} {disk : Disk} {path : Bytes}

/-- A JSON value describes a configuration. -/
structure Describes (json : Json) (config : Config) : Prop where
  isObject : json.isObject = true
  root : Sets json (text "workspace")
    (Json.Library.stringOr · (text "root") (text ".")) (text ".") config.root
  context : Sets json (text "patch")
    (Json.Library.intOr · (text "diff_context_lines") 3) 3 config.context
  logFile : Sets json (text "log")
    (Json.Library.stringOr · (text "file") (text "loom.log")) (text "loom.log") config.logFile
  logToConsole : Sets json (text "log")
    (Json.Library.boolOr · (text "console") false) false config.logToConsole
  logDebug : Sets json (text "log")
    (Json.Library.boolOr · (text "debug") false) false config.logDebug
  nonneg : 0 ≤ config.context

/-- A file holds a configuration. -/
def Holds (disk : Disk) (path : Bytes) (config : Config) : Prop :=
  ∃ content json, disk.status path = .ok (.file content) ∧
    Json.Library.parse content = .ok json ∧ Describes json config

/-! ## Sections -/

theorem readWorkspace_iff {after : Config} :
    readSection json (text "workspace") readWorkspace config = .ok after ↔
      ∃ root, Sets json (text "workspace")
        (Json.Library.stringOr · (text "root") config.root) config.root root ∧
          { config with root } = after := by
  rw [readSection]
  cases hmember : json.member? (text "workspace") with
  | none => simp [sets_of_missing_iff hmember]
  | some content =>
    simp [sets_of_found_iff hmember, readWorkspace, bind_eq_ok_iff, setting_eq_ok_iff, pure,
      Except.pure]

theorem readPatch_iff {after : Config} :
    readSection json (text "patch") readPatch config = .ok after ↔
      ∃ context, Sets json (text "patch")
        (Json.Library.intOr · (text "diff_context_lines") config.context) config.context context ∧
          { config with context } = after := by
  rw [readSection]
  cases hmember : json.member? (text "patch") with
  | none => simp [sets_of_missing_iff hmember]
  | some content =>
    simp [sets_of_found_iff hmember, readPatch, bind_eq_ok_iff, setting_eq_ok_iff, pure,
      Except.pure]

theorem readLog_iff {after : Config} :
    readSection json (text "log") readLog config = .ok after ↔
      ∃ logFile logToConsole logDebug,
        Sets json (text "log")
          (Json.Library.stringOr · (text "file") config.logFile) config.logFile logFile ∧
        Sets json (text "log")
          (Json.Library.boolOr · (text "console") config.logToConsole) config.logToConsole
          logToConsole ∧
        Sets json (text "log")
          (Json.Library.boolOr · (text "debug") config.logDebug) config.logDebug logDebug ∧
        { config with logFile, logToConsole, logDebug } = after := by
  rw [readSection]
  cases hmember : json.member? (text "log") with
  | none => simp [sets_of_missing_iff hmember]
  | some content =>
    simp [sets_of_found_iff hmember, readLog, bind_eq_ok_iff, setting_eq_ok_iff, pure,
      Except.pure]

/-- A JSON value can be used exactly if it describes a configuration, and then as that one. -/
theorem ofJson_eq_ok_iff : ofJson json = .ok config ↔ Describes json config := by
  simp only [ofJson, guard_eq_ok_iff, bind_eq_ok_iff, readWorkspace_iff, readPatch_iff,
    readLog_iff, pure, Except.pure, Decidable.not_not, Int.not_lt, Except.ok.injEq]
  constructor
  · rintro ⟨hobject, _, ⟨root, hroot, rfl⟩, _, ⟨context, hcontext, rfl⟩, _,
      ⟨logFile, logToConsole, logDebug, hfile, hconsole, hdebug, rfl⟩, hnonneg, rfl⟩
    exact ⟨hobject, hroot, hcontext, hfile, hconsole, hdebug, hnonneg⟩
  · intro h
    exact ⟨h.isObject, _, ⟨_, h.root, rfl⟩, _, ⟨_, h.context, rfl⟩, _,
      ⟨_, _, _, h.logFile, h.logToConsole, h.logDebug, rfl⟩, h.nonneg, rfl⟩

/-- A file can be loaded exactly if it holds a configuration. -/
theorem load_eq_ok_iff : load disk path = .ok config ↔ Holds disk path config := by
  rw [load, Holds]
  rcases hstatus : disk.status path with problem | content | _
  · simp
  · rcases hparse : Json.Library.parse content with (message | message) | json
    · simp [hparse]
    · simp [hparse]
    · simp [hparse, ofJson_eq_ok_iff]
  · simp

end Config

namespace CommandLine

variable [Json.Library] {disk : Disk} {options : Options} {beside : Option Bytes} {config : Config}

/-- The configuration in the file that is found; where none is found, the one of all defaults. -/
inductive Finds (disk : Disk) (options : Options) (beside : Option Bytes) : Config → Prop
  | nothing (hpath : configPath? disk options beside = none) : Finds disk options beside {}
  | file {path : Bytes} {config : Config} (hpath : configPath? disk options beside = some path)
      (hholds : Config.Holds disk path config) : Finds disk options beside config

/-- The options lead to a configuration.  A root among them takes the place of the one found. -/
def Configures (disk : Disk) (options : Options) (beside : Option Bytes) (config : Config) : Prop :=
  ∃ found : Config, Finds disk options beside found ∧
    { found with root := if options.root = [] then found.root else options.root } = config

theorem finds_of_none_iff (hpath : configPath? disk options beside = none) :
    Finds disk options beside config ↔ {} = config := by
  constructor
  · rintro (- | hfound)
    · rfl
    · cases hpath.symm.trans hfound
  · rintro rfl
    exact .nothing hpath

theorem finds_of_some_iff {path : Bytes} (hpath : configPath? disk options beside = some path) :
    Finds disk options beside config ↔ Config.Holds disk path config := by
  constructor
  · rintro (hnone | ⟨hother, hholds⟩)
    · cases hpath.symm.trans hnone
    · obtain rfl := Option.some.inj (hother.symm.trans hpath)
      exact hholds
  · exact .file hpath

/-- The configuration can be used exactly if the options lead to one. -/
theorem config_eq_ok_iff : CommandLine.config disk options beside = .ok config ↔
    Configures disk options beside config := by
  have hroot : ∀ found : Config,
      (if options.root = [] then found else { found with root := options.root }) =
        { found with root := if options.root = [] then found.root else options.root } := by
    intro found
    split <;> rfl
  rw [CommandLine.config, Configures]
  cases hpath : configPath? disk options beside with
  | none => simp [finds_of_none_iff hpath, hroot, Except.map]
  | some path =>
    simp only [finds_of_some_iff hpath, ← Config.load_eq_ok_iff]
    cases Config.load disk path <;> simp [hroot, Except.map]

end CommandLine

end Patchwork
