import Mathlib.Data.Set.Basic
import Patchwork.Proofs.Disk
import Patchwork.Workspace

/-!
# What a change leaves alone

A path leads to one location, whatever stands there and on the way to it.  Writing and removing a
file change what stands at that location, and making directories fills in locations where nothing
stood, so a directory stays where it is, and so does every file at another location.  Main
statement: `Disk.Keeps.status`, by which a file that is left alone is read as before.

Nothing is asked of the paths here: they may be relative, and they may go up again.
-/

namespace Patchwork

namespace Disk

/-- The location that a name leads to from another one. -/
def follow (location : Location) (name : Bytes) : Location :=
  if name = Path.here then location
  else if name = Path.above then location.dropLast
  else location ++ [name]

/-- The location that a path leads to, whatever stands there and on the way to it. -/
def goal (disk : Disk) (path : Bytes) : Location :=
  let path := Bytes.untilZero path
  (Path.names path).foldl follow (if Path.isAbsolute path then [] else disk.current)

/-- The locations that some paths lead to. -/
def goals (disk : Disk) (paths : List Bytes) : Set Location :=
  {location | ∃ path ∈ paths, disk.goal path = location}

/-! ## Where operations take place -/

section Goals

variable {disk next : Disk} {location found : Location} {names : List Bytes}
  {path name content present : Bytes} {node : Option Node} {place : Place}

theorem foldl_follow_plain (hplain : ∀ name ∈ names, Path.Plain name) (location : Location) :
    names.foldl follow location = location ++ names := by
  induction names generalizing location with
  | nil => exact (List.append_nil location).symm
  | cons name names ih =>
    rw [List.forall_mem_cons] at hplain
    have hstep : follow location name = location ++ [name] := by
      rw [follow, if_neg hplain.1.ne_here, if_neg hplain.1.ne_above]
    rw [List.foldl_cons, hstep, ih hplain.2, List.append_assoc, List.singleton_append]

/-- A resolved path leads to the location that its names spell. -/
theorem goal_of_resolved (hpath : Path.Resolved path) (hzero : 0 ∉ path) (disk : Disk) :
    disk.goal path = Path.names path := by
  rw [goal, Bytes.untilZero_eq_self hzero, hpath.absolute]
  exact foldl_follow_plain hpath.plain []

theorem goal_of_current {before after : Disk} (hcurrent : after.current = before.current)
    (path : Bytes) : after.goal path = before.goal path := by
  rw [goal, goal, hcurrent]

theorem enter_eq_ok (hentered : disk.enter location name = .ok (found, node)) :
    disk.node? location = some .directory ∧ found = follow location name ∧
      (node = some .directory ∨ node = disk.node? found) := by
  rw [enter] at hentered
  split at hentered
  · cases hentered
  · rename_i hdirectory
    refine ⟨not_not.mp hdirectory, ?_⟩
    rw [follow]
    split at hentered
    · rename_i hhere
      obtain ⟨rfl, rfl⟩ := Prod.mk.inj (Except.ok.inj hentered)
      exact ⟨(if_pos hhere).symm, .inl rfl⟩
    · rename_i hhere
      rw [if_neg hhere]
      split at hentered
      · rename_i habove
        obtain ⟨rfl, rfl⟩ := Prod.mk.inj (Except.ok.inj hentered)
        exact ⟨(if_pos habove).symm, .inl rfl⟩
      · rename_i habove
        split at hentered
        · cases hentered
        · obtain ⟨rfl, rfl⟩ := Prod.mk.inj (Except.ok.inj hentered)
          exact ⟨(if_neg habove).symm, .inr rfl⟩

/-- A step of a walk that goes on leads to a directory. -/
theorem walk_cons_cons_eq_ok {next : Bytes} {rest : List Bytes}
    (hwalked : disk.walk location (name :: next :: rest) = .ok (found, node)) :
    ∃ reached, disk.enter location name = .ok (reached, some .directory) ∧
      disk.walk reached (next :: rest) = .ok (found, node) := by
  rw [walk.eq_3 _ _ _ _ (by simp)] at hwalked
  split at hwalked
  · cases hwalked
  · cases hwalked
  · rename_i reached standing hentered
    refine ⟨reached, ?_, hwalked⟩
    have hdirectory : disk.node? reached = some .directory := by
      cases rest with
      | nil => exact (enter_eq_ok hwalked).1
      | cons other rest =>
        rw [walk.eq_3 _ _ _ _ (by simp)] at hwalked
        split at hwalked
        · cases hwalked
        · cases hwalked
        · rename_i hnext
          exact (enter_eq_ok hnext).1
    rcases (enter_eq_ok hentered).2.2 with hstanding | hstanding
    · rw [hentered, hstanding]
    · rw [hentered, hstanding, hdirectory]

theorem walk_eq_ok (hwalked : disk.walk location names = .ok (found, node)) :
    found = names.foldl follow location ∧
      (node = some .directory ∨ node = disk.node? found) := by
  induction names generalizing location with
  | nil =>
    obtain ⟨rfl, rfl⟩ := Prod.mk.inj (Except.ok.inj hwalked)
    exact ⟨rfl, .inr rfl⟩
  | cons name names ih =>
    cases names with
    | nil => exact (enter_eq_ok hwalked).2
    | cons next rest =>
      obtain ⟨reached, hentered, hrest⟩ := walk_cons_cons_eq_ok hwalked
      rw [List.foldl_cons, ← (enter_eq_ok hentered).2.1]
      exact ih hrest

theorem locate_eq_ok (hlocated : disk.locate path = .ok place) :
    place.location = disk.goal path ∧
      (place.node = some .directory ∨ place.node = disk.node? place.location) := by
  rw [locate] at hlocated
  simp only [] at hlocated
  split at hlocated
  · cases hlocated
  · split at hlocated
    · cases hlocated
    · split at hlocated
      · cases hlocated
      · rename_i found node hwalked
        have hgoal := walk_eq_ok hwalked
        split at hlocated
        · split at hlocated
          · cases hlocated
          · obtain rfl := Except.ok.inj hlocated
            exact hgoal
        · obtain rfl := Except.ok.inj hlocated
          exact hgoal

/-- A path with a separator behind it leads to no file. -/
theorem slashed_of_file {slashed : Bool}
    (hlocated : disk.locate path = .ok ⟨location, some (.file content), slashed⟩) :
    slashed = false := by
  rw [locate] at hlocated
  simp only [] at hlocated
  split at hlocated
  · cases hlocated
  · split at hlocated
    · cases hlocated
    · split at hlocated
      · cases hlocated
      · split at hlocated
        · split at hlocated
          · cases hlocated
          · rename_i hslashed
            obtain ⟨-, -, rfl⟩ := Place.mk.inj (Except.ok.inj hlocated)
            exact eq_false_of_ne_true hslashed
        · rename_i hfile
          obtain ⟨-, rfl, -⟩ := Place.mk.inj (Except.ok.inj hlocated)
          exact absurd rfl (hfile content)

/-- A path that can be opened for writing leads to no directory, and is not meant to. -/
theorem locate_of_openForWriting (hopened : disk.openForWriting path = .ok (location, present)) :
    ∃ standing, disk.locate path = .ok ⟨location, standing, false⟩ ∧
      standing ≠ some .directory := by
  rw [openForWriting] at hopened
  split at hopened
  · rename_i hlocated
    obtain ⟨rfl, rfl⟩ := Prod.mk.inj (Except.ok.inj hopened)
    obtain rfl := slashed_of_file hlocated
    exact ⟨_, hlocated, by simp⟩
  · rename_i hlocated
    split at hopened
    · cases hopened
    · rename_i hslashed
      obtain ⟨rfl, rfl⟩ := Prod.mk.inj (Except.ok.inj hopened)
      rw [eq_false_of_ne_true hslashed] at hlocated
      exact ⟨_, hlocated, by simp⟩
  · cases hopened
  · cases hopened

theorem openForWriting_eq_ok (hopened : disk.openForWriting path = .ok (location, present)) :
    location = disk.goal path ∧ disk.node? location ≠ some .directory := by
  obtain ⟨standing, hlocated, hnot⟩ := locate_of_openForWriting hopened
  obtain ⟨hgoal, hdirectory | hnode⟩ := locate_eq_ok hlocated
  · exact absurd hdirectory hnot
  · exact ⟨hgoal, by rwa [← hnode]⟩

theorem exists_put_of_openForWriting (write : Bytes → Bytes)
    (hwritten : (disk.openForWriting path).map (fun (location, present) =>
      disk.put location (.file (write present))) = .ok next) :
    ∃ present, disk.openForWriting path = .ok (disk.goal path, present) ∧
      next = disk.put (disk.goal path) (.file (write present)) := by
  cases hopened : disk.openForWriting path with
  | error problem =>
    rw [hopened] at hwritten
    cases hwritten
  | ok opened =>
    obtain ⟨location, present⟩ := opened
    obtain ⟨rfl, -⟩ := openForWriting_eq_ok hopened
    rw [hopened] at hwritten
    exact ⟨present, rfl, (Except.ok.inj hwritten).symm⟩

/-- A file is written where its path leads. -/
theorem writeFile_eq_ok (hwritten : disk.writeFile path content = .ok next) :
    ∃ present, disk.openForWriting path = .ok (disk.goal path, present) ∧
      next = disk.put (disk.goal path) (.file content) :=
  exists_put_of_openForWriting (fun _ => content) hwritten

theorem appendFile_eq_ok (hwritten : disk.appendFile path content = .ok next) :
    ∃ present, disk.openForWriting path = .ok (disk.goal path, present) ∧
      next = disk.put (disk.goal path) (.file (present ++ content)) :=
  exists_put_of_openForWriting (fun present => present ++ content) hwritten

theorem removeFile_eq_ok (hremoved : disk.removeFile path = .ok next) :
    disk.node? (disk.goal path) ≠ some .directory ∧ next = disk.erase (disk.goal path) := by
  rw [removeFile] at hremoved
  split at hremoved
  · rename_i hlocated
    obtain ⟨rfl, hdirectory | hnode⟩ := locate_eq_ok hlocated
    · cases hdirectory
    · exact ⟨by rw [← hnode]; rintro ⟨⟩, (Except.ok.inj hremoved).symm⟩
  · cases hremoved
  · cases hremoved
  · cases hremoved

theorem makeDirectory_eq_ok (hmade : disk.makeDirectory path = .ok next) :
    next = disk ∨ ∃ location, disk.node? location = none ∧ next = disk.put location .directory := by
  rw [makeDirectory] at hmade
  split at hmade
  · rename_i location slashed hlocated
    obtain ⟨-, hdirectory | hnode⟩ := locate_eq_ok hlocated
    · cases hdirectory
    · exact .inr ⟨location, hnode.symm, (Except.ok.inj hmade).symm⟩
  · exact .inl (Except.ok.inj hmade).symm
  · cases hmade
  · cases hmade

end Goals

/-! ## What stays -/

/-- Directories stay where they are, and so do the files that stand at none of the touched
locations. -/
structure Keeps (touched : Set Location) (before after : Disk) : Prop where
  current : after.current = before.current
  node? : ∀ {location : Location} {node : Node}, (node = .directory ∨ location ∉ touched) →
    before.node? location = some node → after.node? location = some node

section Keeping

variable {touched more : Set Location} {before middle after disk next : Disk}
  {location found : Location} {names : List Bytes} {path name content : Bytes} {node : Node}
  {place : Place}

theorem Keeps.refl (touched : Set Location) (disk : Disk) : Keeps touched disk disk :=
  ⟨rfl, fun _ hnode => hnode⟩

theorem Keeps.trans (hfirst : Keeps touched before middle) (hsecond : Keeps touched middle after) :
    Keeps touched before after :=
  ⟨hsecond.current.trans hfirst.current,
    fun hspared hnode => hsecond.node? hspared (hfirst.node? hspared hnode)⟩

theorem Keeps.mono (hkeeps : Keeps touched before after) (hsubset : touched ⊆ more) :
    Keeps more before after :=
  ⟨hkeeps.current, fun hspared => hkeeps.node? (hspared.imp_right fun hnot hmem =>
    hnot (hsubset hmem))⟩

theorem Keeps.goals_eq (hkeeps : Keeps touched before after) (paths : List Bytes) :
    after.goals paths = before.goals paths := by
  ext location
  simp only [goals, goal_of_current hkeeps.current]

/-- A change at one touched location, where no directory stands, keeps everything else. -/
theorem keeps_of_node?_eq (hcurrent : after.current = before.current)
    (htouched : location ∈ touched) (hnode : before.node? location ≠ some .directory)
    (hother : ∀ other, other ≠ location → after.node? other = before.node? other) :
    Keeps touched before after := by
  refine ⟨hcurrent, fun {other node} hspared hstanding => ?_⟩
  have hne : other ≠ location := by
    rintro rfl
    rcases hspared with rfl | hnot
    · exact hnode hstanding
    · exact hnot htouched
  rw [hother other hne, hstanding]

theorem keeps_put_file (htouched : location ∈ touched)
    (hnode : disk.node? location ≠ some .directory) (content : Bytes) :
    Keeps touched disk (disk.put location (.file content)) :=
  keeps_of_node?_eq rfl htouched hnode fun _ hne => node?_put_of_ne disk hne _

theorem writeFile_keeps (htouched : disk.goal path ∈ touched)
    (hwritten : disk.writeFile path content = .ok next) : Keeps touched disk next := by
  obtain ⟨present, hopened, rfl⟩ := writeFile_eq_ok hwritten
  exact keeps_put_file htouched (openForWriting_eq_ok hopened).2 _

theorem appendFile_keeps (htouched : disk.goal path ∈ touched)
    (hwritten : disk.appendFile path content = .ok next) : Keeps touched disk next := by
  obtain ⟨present, hopened, rfl⟩ := appendFile_eq_ok hwritten
  exact keeps_put_file htouched (openForWriting_eq_ok hopened).2 _

theorem removeFile_keeps (htouched : disk.goal path ∈ touched)
    (hremoved : disk.removeFile path = .ok next) : Keeps touched disk next := by
  obtain ⟨hnode, rfl⟩ := removeFile_eq_ok hremoved
  exact keeps_of_node?_eq rfl htouched hnode fun other hne => node?_erase_of_ne disk hne

theorem makeDirectory_keeps (touched : Set Location)
    (hmade : disk.makeDirectory path = .ok next) : Keeps touched disk next := by
  rcases makeDirectory_eq_ok hmade with rfl | ⟨location, hnone, rfl⟩
  · exact .refl touched _
  · refine ⟨rfl, fun {other node} _ hstanding => ?_⟩
    have hne : other ≠ location := by
      rintro rfl
      rw [hnone] at hstanding
      cases hstanding
    rw [node?_put_of_ne disk hne, hstanding]

theorem makeDirectories_keeps (touched : Set Location) (disk : Disk) (paths : List Bytes) :
    Keeps touched disk (disk.makeDirectories paths).1 := by
  induction paths generalizing disk with
  | nil => exact .refl touched disk
  | cons path paths ih =>
    rw [makeDirectories]
    split
    · exact .refl touched disk
    · rename_i next hmade
      exact (makeDirectory_keeps touched hmade).trans (ih next)

/-- Making directories keeps every file and every directory, also where it fails. -/
theorem createDirectories_keeps (touched : Set Location) (disk : Disk) (path : Bytes) :
    Keeps touched disk (disk.createDirectories path).1 := by
  rw [createDirectories]
  split
  · exact .refl touched disk
  · exact makeDirectories_keeps touched disk _

/-! ## Reading what stays -/

section Reading

variable (hcurrent : after.current = before.current)
  (hdirectories : ∀ {location : Location}, before.node? location = some .directory →
    after.node? location = some .directory)
  {standing : Option Node}

include hdirectories

/-- A name leads where it led, and shows what stands there now. -/
theorem enter_of_directories (hentered : before.enter location name = .ok (found, standing)) :
    after.enter location name =
      .ok (found, if standing = some .directory then standing else after.node? found) := by
  have hdirectory := hdirectories (enter_eq_ok hentered).1
  rw [enter] at hentered ⊢
  rw [if_neg (not_not.mpr hdirectory)]
  split at hentered
  · cases hentered
  · split
    · rename_i hhere
      rw [if_pos hhere] at hentered
      obtain ⟨rfl, rfl⟩ := Prod.mk.inj (Except.ok.inj hentered)
      rw [if_pos rfl]
    · rename_i hhere
      rw [if_neg hhere] at hentered
      split
      · rename_i habove
        rw [if_pos habove] at hentered
        obtain ⟨rfl, rfl⟩ := Prod.mk.inj (Except.ok.inj hentered)
        rw [if_pos rfl]
      · rename_i habove
        rw [if_neg habove] at hentered
        split
        · rename_i hlong
          rw [if_pos hlong] at hentered
          cases hentered
        · rename_i hshort
          rw [if_neg hshort] at hentered
          obtain ⟨rfl, rfl⟩ := Prod.mk.inj (Except.ok.inj hentered)
          split
          · rename_i hstanding
            rw [hdirectories hstanding, hstanding]
          · rfl

/-- A walk passes directories only, so it ends where it ended. -/
theorem walk_of_directories (hwalked : before.walk location names = .ok (found, standing)) :
    after.walk location names =
      .ok (found, if standing = some .directory then standing else after.node? found) := by
  induction names generalizing location with
  | nil =>
    obtain ⟨rfl, rfl⟩ := Prod.mk.inj (Except.ok.inj hwalked)
    rw [walk]
    split
    · rename_i hstanding
      rw [hdirectories hstanding, hstanding]
    · rfl
  | cons name names ih =>
    cases names with
    | nil => exact enter_of_directories hdirectories hwalked
    | cons next rest =>
      obtain ⟨reached, hentered, hrest⟩ := walk_cons_cons_eq_ok hwalked
      have hreached := enter_of_directories hdirectories hentered
      rw [if_pos rfl] at hreached
      rw [walk.eq_3 _ _ _ _ (by simp), hreached]
      exact ih hrest

include hcurrent

/-- A path that leads to no directory is read as what now stands where it leads. -/
theorem status_of_directories (hlocated : before.locate path = .ok ⟨location, standing, false⟩)
    (hnot : standing ≠ some .directory) (hnode : after.node? location = some (.file content)) :
    after.status path = .ok (.file content) := by
  rw [locate] at hlocated
  rw [status, locate]
  simp only [hcurrent] at hlocated ⊢
  split at hlocated
  · cases hlocated
  · split at hlocated
    · cases hlocated
    · rename_i hnil hshort
      rw [if_neg hnil, if_neg hshort]
      split at hlocated
      · cases hlocated
      · rename_i found reached hwalked
        have hplace : found = location ∧ reached = standing ∧
            ((Bytes.untilZero path).getLast? == some Path.separator) = false := by
          split at hlocated
          · split at hlocated
            · cases hlocated
            · exact Place.mk.inj (Except.ok.inj hlocated)
          · exact Place.mk.inj (Except.ok.inj hlocated)
        obtain ⟨rfl, rfl, hslashed⟩ := hplace
        rw [walk_of_directories hdirectories hwalked, if_neg hnot, hnode]
        simp [hslashed]

end Reading

theorem locate_of_status (hstatus : disk.status path = .ok (.file content)) :
    disk.locate path = .ok ⟨disk.goal path, some (.file content), false⟩ := by
  rw [status] at hstatus
  split at hstatus
  · cases hstatus
  · rename_i hlocated
    obtain rfl := Except.ok.inj hstatus
    obtain rfl := slashed_of_file hlocated
    rw [hlocated, ← (locate_eq_ok hlocated).1]
  · cases hstatus

/-- A file that stands at no touched location is read as before. -/
theorem Keeps.status (hkeeps : Keeps touched before after)
    (hstatus : before.status path = .ok (.file content)) (hspared : before.goal path ∉ touched) :
    after.status path = .ok (.file content) := by
  have hlocated := locate_of_status hstatus
  obtain ⟨-, hdirectory | hnode⟩ := locate_eq_ok hlocated
  · cases hdirectory
  · exact status_of_directories hkeeps.current (hkeeps.node? (.inl rfl)) hlocated nofun
      (hkeeps.node? (.inr hspared) hnode.symm)

end Keeping

end Disk

/-! ## Workspaces -/

namespace Workspace

variable {before middle after : Workspace} {paths more : List Bytes} {path content : Bytes}

/-- The locations that change when files at the given paths are written or removed: where the paths
lead, and where the log is kept. -/
def touched (workspace : Workspace) (paths : List Bytes) : Set Location :=
  workspace.disk.goals paths ∪
    {location | workspace.settings.file ≠ [] ∧
      workspace.disk.goal workspace.settings.file = location}

/-- Only what stands at the given paths may have changed, besides the log. -/
structure Spares (paths : List Bytes) (before after : Workspace) : Prop where
  keeps : before.disk.Keeps (before.touched paths) after.disk
  settings : after.settings = before.settings

theorem Spares.touched_eq (hspares : Spares paths before after) (more : List Bytes) :
    after.touched more = before.touched more := by
  rw [touched, touched, hspares.keeps.goals_eq, hspares.settings,
    Disk.goal_of_current hspares.keeps.current]

theorem Spares.refl (paths : List Bytes) (workspace : Workspace) :
    Spares paths workspace workspace :=
  ⟨.refl _ _, rfl⟩

theorem Spares.trans (hfirst : Spares paths before middle) (hsecond : Spares paths middle after) :
    Spares paths before after := by
  have hkeeps := hsecond.keeps
  rw [hfirst.touched_eq] at hkeeps
  exact ⟨hfirst.keeps.trans hkeeps, hsecond.settings.trans hfirst.settings⟩

theorem Spares.mono (hspares : Spares paths before after) (hsubset : paths ⊆ more) :
    Spares more before after := by
  refine ⟨hspares.keeps.mono (Set.union_subset_union_left _ ?_), hspares.settings⟩
  rintro location ⟨path, hpath, hgoal⟩
  exact ⟨path, hsubset hpath, hgoal⟩

theorem goal_mem_touched (workspace : Workspace) (hpath : path ∈ paths) :
    workspace.disk.goal path ∈ workspace.touched paths :=
  .inl ⟨path, hpath, rfl⟩

theorem spares_of_keeps {disk : Disk} (hkeeps : before.disk.Keeps (before.touched paths) disk) :
    Spares paths before { before with disk } :=
  ⟨hkeeps, rfl⟩

theorem Spares.status (hspares : Spares paths before after)
    (hstatus : before.disk.status path = .ok (.file content))
    (hspared : before.disk.goal path ∉ before.touched paths) :
    after.disk.status path = .ok (.file content) :=
  hspares.keeps.status hstatus hspared

/-- A log entry goes nowhere but to the log. -/
theorem spares_log (workspace : Workspace) (level : Log.Level) (message : Bytes) :
    Spares [] workspace (workspace.log level message) := by
  obtain ⟨heard, console, heq | ⟨hset, disk, happended, heq⟩⟩ := workspace.log_cases level message
  · rw [heq]
    exact ⟨.refl _ _, rfl⟩
  · rw [heq]
    exact ⟨Disk.appendFile_keeps (.inr ⟨hset, rfl⟩) happended, rfl⟩

theorem spares_logAll (workspace : Workspace) (level : Log.Level) (messages : List Bytes) :
    Spares [] workspace (workspace.logAll level messages) :=
  logAll_of_log (Spares.refl []) Spares.trans spares_log workspace level messages

end Workspace

end Patchwork
