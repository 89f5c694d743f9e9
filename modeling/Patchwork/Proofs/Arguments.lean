import Patchwork.CommandLine

/-!
# What arguments say

Arguments are a sequence of words, each of one or two arguments, with at most one patch file among
them.  The options are what the words say, and what keeps arguments from being such a sequence is
told by the first place that no word can be read from.  Main statements:
`CommandLine.readArguments_eq_ok_iff` and `CommandLine.readArguments_eq_error_iff`.
-/

namespace Patchwork

namespace CommandLine

/-- One thing that arguments say. -/
inductive Word
  | help
  | dryRun
  | json
  | config (path : Bytes)
  | root (directory : Bytes)
  | patchFile (path : Bytes)
  deriving DecidableEq, Repr

namespace Word

@[simp]
def config? : Word → Option Bytes
  | config path => some path
  | _ => none

@[simp]
def root? : Word → Option Bytes
  | root directory => some directory
  | _ => none

@[simp]
def patchFile? : Word → Option Bytes
  | patchFile path => some path
  | _ => none

/-- The arguments that stand for a word. -/
inductive Spelled : Word → List Bytes → Prop
  | shortHelp : Spelled help [text "-h"]
  | help : Spelled help [text "--help"]
  | dryRun : Spelled dryRun [text "--dry-run"]
  | json : Spelled json [text "--json"]
  | config (path : Bytes) : Spelled (config path) [text "--config", path]
  | root (directory : Bytes) : Spelled (root directory) [text "--root", directory]
  | patchFile {path : Bytes} (hpath : isOption path = false) : Spelled (patchFile path) [path]

end Word

/-- The arguments begin with the words, and `rest` is behind them. -/
inductive Reads : List Bytes → List Word → List Bytes → Prop
  | nil (rest : List Bytes) : Reads rest [] rest
  | cons {word : Word} {spelling middle rest : List Bytes} {words : List Word}
      (hword : word.Spelled spelling) (hwords : Reads middle words rest) :
      Reads (spelling ++ middle) (word :: words) rest

/-- The patch files that words name. -/
def patchFiles (words : List Word) : List Bytes := words.filterMap Word.patchFile?

/-- What words ask for.  The last one of its kind counts, and a hyphen names no file. -/
def optionsOf (words : List Word) : Options where
  patchFile := (patchFiles words).getLast?.filter (· ≠ hyphen)
  configPath := (words.filterMap Word.config?).getLast?.getD []
  root := (words.filterMap Word.root?).getLast?.getD []
  dryRun := .dryRun ∈ words
  json := .json ∈ words
  help := .help ∈ words

/-- The arguments are the words, and name at most one patch file. -/
structure Tells (arguments : List Bytes) (words : List Word) : Prop where
  reads : Reads arguments words []
  patchFiles : (patchFiles words).length ≤ 1

/-- The arguments can be read, and ask for what the options say. -/
def Gives (arguments : List Bytes) (options : Options) : Prop :=
  ∃ words, Tells arguments words ∧ optionsOf words = options

/-- The arguments can be read, and the word is among them. -/
def Asks (arguments : List Bytes) (word : Word) : Prop :=
  ∃ words, Tells arguments words ∧ word ∈ words

/-- The options that stand alone, and those that a value follows. -/
def knownOptions : List Bytes :=
  [text "-h", text "--help", text "--dry-run", text "--json", text "--config", text "--root"]

/-- No further word can be read from the arguments behind some words. -/
inductive Stuck (words : List Word) : List Bytes → ArgumentError → Prop
  | missingValue {option : Bytes} (hoption : option = text "--config" ∨ option = text "--root") :
      Stuck words [option] (.missingValue option)
  | unknownOption {option : Bytes} (rest : List Bytes) (hoption : isOption option = true)
      (hunknown : option ∉ knownOptions) : Stuck words (option :: rest) (.unknownOption option)
  | secondPatchFile {path : Bytes} (rest : List Bytes) (hpath : isOption path = false)
      (hgiven : patchFiles words ≠ []) : Stuck words (path :: rest) .secondPatchFile

/-- Words can be read from the arguments up to a place where no further one can. -/
def Refused (arguments : List Bytes) (error : ArgumentError) : Prop :=
  ∃ words rest, Reads arguments words rest ∧ (patchFiles words).length ≤ 1 ∧ Stuck words rest error

/-! ## Reading behind words -/

variable {arguments spelling rest : List Bytes} {word : Word} {words before : List Word}
  {options : Options} {error : ArgumentError}

/-- Reads arguments behind some words. -/
def resume (before : List Word) (arguments : List Bytes) : Except ArgumentError Options :=
  readArguments (optionsOf before) (patchFiles before ≠ []) arguments

theorem resume_nil : resume before [] = .ok (optionsOf before) := by
  rw [resume, readArguments]

theorem isOption_of_mem_knownOptions {option : Bytes} (hoption : option ∈ knownOptions) :
    isOption option = true := by
  revert option
  decide

theorem not_mem_knownOptions {path : Bytes} (hpath : isOption path = false) :
    path ∉ knownOptions := by
  intro hknown
  rw [isOption_of_mem_knownOptions hknown] at hpath
  cases hpath

/-- An argument that is no known option is unknown, or a patch file. -/
theorem readArguments_of_not_mem {argument : Bytes} {givenFile : Bool}
    (hunknown : argument ∉ knownOptions) :
    readArguments options givenFile (argument :: rest) =
      if isOption argument then .error (.unknownOption argument)
      else if givenFile then .error .secondPatchFile
      else readArguments
        { options with patchFile := if argument = hyphen then none else some argument } true
          rest := by
  simp only [knownOptions, List.mem_cons, List.not_mem_nil, or_false, not_or] at hunknown
  obtain ⟨hshort, hhelp, hdryRun, hjson, hconfig, hroot⟩ := hunknown
  rw [readArguments.eq_def]
  simp only []
  rw [if_neg (not_or.mpr ⟨hshort, hhelp⟩), if_neg hdryRun, if_neg hjson, if_neg hconfig,
    if_neg hroot]

/-- To read a word is to know one word more. -/
theorem resume_spelled (hword : word.Spelled spelling)
    (hfiles : (patchFiles (before ++ [word])).length ≤ 1) :
    resume before (spelling ++ rest) = resume (before ++ [word]) rest := by
  rw [resume, resume]
  cases hword with
  | shortHelp | help | dryRun | json | config | root =>
    rw [List.cons_append, readArguments.eq_def]
    simp +decide [optionsOf, patchFiles]
  | @patchFile path hpath =>
    have hnone : patchFiles before = [] := by
      simpa [patchFiles] using hfiles
    rw [List.singleton_append, readArguments_of_not_mem (not_mem_knownOptions hpath), hpath, hnone]
    simp [optionsOf, patchFiles, Option.filter]

theorem patchFiles_append : patchFiles (before ++ words) = patchFiles before ++ patchFiles words :=
  List.filterMap_append

/-- To read words is to know them all. -/
theorem Reads.resume_eq (hreads : Reads arguments words rest) (before : List Word)
    (hfiles : (patchFiles (before ++ words)).length ≤ 1) :
    resume before arguments = resume (before ++ words) rest := by
  induction hreads generalizing before with
  | nil => rw [List.append_nil]
  | @cons word spelling middle rest words hword hwords ih =>
    rw [List.append_cons] at hfiles ⊢
    have hfirst : (patchFiles (before ++ [word])).length ≤ 1 := by
      rw [patchFiles_append, List.length_append] at hfiles
      omega
    rw [resume_spelled hword hfirst, ih _ hfiles]

theorem Stuck.resume_eq (hstuck : Stuck before rest error) : resume before rest = .error error := by
  cases hstuck with
  | missingValue hoption =>
    rcases hoption with rfl | rfl
    · rfl
    · rfl
  | unknownOption rest hoption hunknown =>
    rw [resume, readArguments_of_not_mem hunknown, if_pos hoption]
  | secondPatchFile rest hpath hgiven =>
    rw [resume, readArguments_of_not_mem (not_mem_knownOptions hpath), hpath]
    simp [hgiven]

/-! ## The words of arguments -/

theorem patchFiles_append_word (hno : word.patchFile? = none) :
    patchFiles (before ++ [word]) = patchFiles before := by
  rw [patchFiles_append, patchFiles, patchFiles, List.filterMap_cons, hno]
  exact List.append_nil _

/-- Behind words, arguments begin with one more word, or no word can be read from them. -/
theorem spelled_or_stuck (hfiles : (patchFiles before).length ≤ 1) (argument : Bytes)
    (rest : List Bytes) :
    (∃ word spelling middle, word.Spelled spelling ∧ spelling ++ middle = argument :: rest ∧
      (patchFiles (before ++ [word])).length ≤ 1) ∨
    ∃ error, Stuck before (argument :: rest) error := by
  have hplain : ∀ {word : Word} {spelling middle : List Bytes}, word.patchFile? = none →
      word.Spelled spelling → spelling ++ middle = argument :: rest →
        ∃ word spelling middle, word.Spelled spelling ∧ spelling ++ middle = argument :: rest ∧
          (patchFiles (before ++ [word])).length ≤ 1 := by
    intro word spelling middle hno hword hsplit
    exact ⟨word, spelling, middle, hword, hsplit, by rwa [patchFiles_append_word hno]⟩
  by_cases hknown : argument ∈ knownOptions
  · simp only [knownOptions, List.mem_cons, List.not_mem_nil, or_false] at hknown
    rcases hknown with rfl | rfl | rfl | rfl | hvalued
    · exact .inl (hplain rfl .shortHelp rfl)
    · exact .inl (hplain rfl .help rfl)
    · exact .inl (hplain rfl .dryRun rfl)
    · exact .inl (hplain rfl .json rfl)
    · cases rest with
      | nil => exact .inr ⟨_, .missingValue hvalued⟩
      | cons value middle =>
        rcases hvalued with rfl | rfl
        · exact .inl (hplain rfl (.config value) rfl)
        · exact .inl (hplain rfl (.root value) rfl)
  · cases hoption : isOption argument with
    | true => exact .inr ⟨_, .unknownOption rest hoption hknown⟩
    | false =>
      by_cases hgiven : patchFiles before = []
      · refine .inl ⟨_, _, rest, .patchFile hoption, rfl, ?_⟩
        rw [patchFiles_append, hgiven]
        exact Nat.le_refl 1
      · exact .inr ⟨_, .secondPatchFile rest hoption hgiven⟩

theorem Word.Spelled.length_pos (hword : word.Spelled spelling) : 0 < spelling.length := by
  cases hword <;> exact Nat.succ_pos _

/-- Words can be read from all arguments, up to their end or to a place where no further one can. -/
theorem exists_reads (before : List Word) (hfiles : (patchFiles before).length ≤ 1)
    (arguments : List Bytes) :
    ∃ words rest, Reads arguments words rest ∧ (patchFiles (before ++ words)).length ≤ 1 ∧
      (rest = [] ∨ ∃ error, Stuck (before ++ words) rest error) := by
  induction hlength : arguments.length using Nat.strongRecOn generalizing arguments before with
  | ind length ih =>
    cases arguments with
    | nil => exact ⟨[], [], .nil [], by rwa [List.append_nil], .inl rfl⟩
    | cons argument rest =>
      rcases spelled_or_stuck hfiles argument rest with
        ⟨word, spelling, middle, hword, hsplit, hfits⟩ | hstuck
      · have hshorter : middle.length < length := by
          rw [← hlength, ← hsplit, List.length_append]
          exact Nat.lt_add_of_pos_left hword.length_pos
        obtain ⟨words, last, hreads, hall, hend⟩ := ih _ hshorter _ hfits middle rfl
        rw [List.append_assoc] at hall hend
        exact ⟨word :: words, last, hsplit ▸ .cons hword hreads, hall, hend⟩
      · exact ⟨[], _, .nil _, by rwa [List.append_nil], .inr (by rwa [List.append_nil])⟩

/-! ## What the program reads -/

theorem Tells.readArguments_eq (htells : Tells arguments words) :
    readArguments {} false arguments = .ok (optionsOf words) :=
  (htells.reads.resume_eq [] htells.patchFiles).trans resume_nil

theorem Refused.readArguments_eq (hrefused : Refused arguments error) :
    readArguments {} false arguments = .error error := by
  obtain ⟨words, rest, hreads, hfiles, hstuck⟩ := hrefused
  exact (hreads.resume_eq [] hfiles).trans hstuck.resume_eq

/-- Arguments say something, or are refused for some reason. -/
theorem tells_or_refused (arguments : List Bytes) :
    (∃ words, Tells arguments words) ∨ ∃ error, Refused arguments error := by
  obtain ⟨words, rest, hreads, hfiles, rfl | ⟨error, hstuck⟩⟩ :=
    exists_reads [] (Nat.zero_le 1) arguments
  · exact .inl ⟨words, hreads, hfiles⟩
  · exact .inr ⟨error, words, rest, hreads, hfiles, hstuck⟩

/-- Arguments can be used exactly if they are words, and then the options are what these say. -/
theorem readArguments_eq_ok_iff :
    readArguments {} false arguments = .ok options ↔ Gives arguments options := by
  constructor
  · intro hread
    rcases tells_or_refused arguments with ⟨words, htells⟩ | ⟨error, hrefused⟩
    · exact ⟨words, htells, Except.ok.inj (htells.readArguments_eq.symm.trans hread)⟩
    · cases hrefused.readArguments_eq.symm.trans hread
  · rintro ⟨words, htells, rfl⟩
    exact htells.readArguments_eq

/-- What stands behind an option that takes a value is that value, whatever it looks like. -/
example : readArguments {} false [text "--root", text "--help", text "-"] =
    .ok { root := text "--help" } :=
  rfl

/-- Arguments are refused exactly at the first place where no further word can be read. -/
theorem readArguments_eq_error_iff :
    readArguments {} false arguments = .error error ↔ Refused arguments error := by
  refine ⟨fun hread => ?_, Refused.readArguments_eq⟩
  rcases tells_or_refused arguments with ⟨words, htells⟩ | ⟨other, hrefused⟩
  · cases htells.readArguments_eq.symm.trans hread
  · obtain rfl := Except.error.inj (hrefused.readArguments_eq.symm.trans hread)
    exact hrefused

theorem Gives.optionsOf_eq (hgives : Gives arguments options) (htells : Tells arguments words) :
    optionsOf words = options :=
  Except.ok.inj (htells.readArguments_eq.symm.trans (readArguments_eq_ok_iff.mpr hgives))

theorem Gives.asks_iff (hgives : Gives arguments options) (asked : Options → Bool)
    (hasked : ∀ words, asked (optionsOf words) = decide (word ∈ words)) :
    Asks arguments word ↔ asked options = true := by
  constructor
  · rintro ⟨words, htells, hmember⟩
    rw [← hgives.optionsOf_eq htells, hasked]
    exact decide_eq_true hmember
  · intro hoption
    obtain ⟨words, htells, rfl⟩ := hgives
    rw [hasked] at hoption
    exact ⟨words, htells, of_decide_eq_true hoption⟩

/-- Help is asked for exactly if the options say so. -/
theorem Gives.asks_help_iff (hgives : Gives arguments options) :
    Asks arguments .help ↔ options.help = true :=
  hgives.asks_iff Options.help fun _ => rfl

theorem Gives.asks_dryRun_iff (hgives : Gives arguments options) :
    Asks arguments .dryRun ↔ options.dryRun = true :=
  hgives.asks_iff Options.dryRun fun _ => rfl

end CommandLine

end Patchwork
