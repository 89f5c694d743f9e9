import Patchwork.Disk
import Patchwork.Proofs.Path

/-!
# Disks seen by location

A resolved path leads to the location that its names spell, through directories only, so every
operation on it reads or changes what stands at that one location.  Making the parents of a path
only fills in directories on the way to it.  Main statements: `locate_eq_ok_iff` for walks and
`createDirectories_grows` for parents.
-/

namespace Patchwork

namespace Disk

/-- Every location on the way to the given one is a directory. -/
def Reaches (disk : Disk) (location : Location) : Prop :=
  ∀ n < location.length, disk.node? (location.take n) = some .directory

/-- Neither the path nor one of its names is too long for the system. -/
structure Fits (path : Bytes) : Prop where
  path_le : path.length ≤ longestPath
  name_le : ∀ name ∈ Path.names path, name.length ≤ longestName

/-! ## Walks -/

section Walks

variable {disk : Disk} {path name : Bytes} {location found : Location} {node : Option Node}

theorem enter_eq_ok_iff (hplain : Path.Plain name) :
    disk.enter location name = .ok (found, node) ↔
      disk.node? location = some .directory ∧ name.length ≤ longestName ∧
        found = location ++ [name] ∧ node = disk.node? (location ++ [name]) := by
  rw [enter, if_neg hplain.ne_here, if_neg hplain.ne_above]
  split
  · rename_i hdirectory
    simp [hdirectory]
  · rename_i hdirectory
    rw [not_not] at hdirectory
    split
    · rename_i hlong
      simp [Nat.not_le.mpr hlong]
    · rename_i hshort
      simp [hdirectory, Nat.not_lt.mp hshort, eq_comm]

/-- A walk along plain names ends behind all of them, and passes directories only. -/
theorem walk_eq_ok_iff {names : List Bytes} (hplain : ∀ name ∈ names, Path.Plain name) :
    disk.walk location names = .ok (found, node) ↔
      (∀ n < names.length, disk.node? (location ++ names.take n) = some .directory) ∧
        (∀ name ∈ names, name.length ≤ longestName) ∧
        found = location ++ names ∧ node = disk.node? (location ++ names) := by
  induction names generalizing location with
  | nil => simp [walk, eq_comm]
  | cons name names ih =>
    rw [List.forall_mem_cons] at hplain
    cases names with
    | nil =>
      rw [walk, enter_eq_ok_iff hplain.1]
      simp
    | cons next names =>
      have hsteps : (∀ n < (name :: next :: names).length,
            disk.node? (location ++ (name :: next :: names).take n) = some .directory) ↔
          disk.node? location = some .directory ∧ ∀ n < (next :: names).length,
            disk.node? ((location ++ [name]) ++ (next :: names).take n) = some .directory := by
        rw [List.length_cons (a := name), Nat.forall_lt_succ_left]
        simp
      rw [walk.eq_3 _ _ _ _ (by simp), hsteps, List.forall_mem_cons]
      cases hentered : disk.enter location name with
      | error problem =>
        -- the walk ends here, since the name cannot be entered
        simp only [reduceCtorEq, false_iff]
        intro hall
        have hnext := (enter_eq_ok_iff hplain.1).mpr ⟨hall.1.1, hall.2.1.1, rfl, rfl⟩
        rw [hentered] at hnext
        cases hnext
      | ok entered =>
        obtain ⟨reached, standing⟩ := entered
        obtain ⟨hdirectory, hshort, rfl, hstanding⟩ := (enter_eq_ok_iff hplain.1).mp hentered
        cases standing with
        | none =>
          -- the next name would be entered from a location where nothing stands
          simp only [reduceCtorEq, false_iff]
          intro hall
          have hfirst := hall.1.2 0 (by simp)
          rw [List.take_zero, List.append_nil, ← hstanding] at hfirst
          cases hfirst
        | some standing =>
          simp only [ih hplain.2, hdirectory, hshort, true_and]
          simp

/-- A resolved path leads to the location that its names spell, if the way there is made of
directories. -/
theorem locate_eq_ok_iff (hpath : Path.Resolved path) (hzero : 0 ∉ path) {place : Place} :
    disk.locate path = .ok place ↔
      Fits path ∧ disk.Reaches (Path.names path) ∧
        place = ⟨Path.names path, disk.node? (Path.names path),
          path.getLast? == some Path.separator⟩ := by
  have hne : path ≠ [] := by
    rintro rfl
    exact Bool.false_ne_true hpath.absolute
  have hnames : (Path.components path).filter (· ≠ []) = Path.names path := rfl
  have hwalk : ∀ found node, disk.walk [] (Path.names path) = .ok (found, node) ↔
      disk.Reaches (Path.names path) ∧ (∀ name ∈ Path.names path, name.length ≤ longestName) ∧
        found = Path.names path ∧ node = disk.node? (Path.names path) :=
    fun _ _ => walk_eq_ok_iff hpath.plain
  rw [locate]
  simp only [Bytes.untilZero_eq_self hzero, if_neg hne, hnames, hpath.absolute, if_true]
  split
  · rename_i hlong
    simp only [reduceCtorEq, false_iff]
    exact fun hall => absurd hall.1.path_le (Nat.not_le.mpr hlong)
  · rename_i hshort
    rw [Nat.not_lt] at hshort
    cases hwalked : disk.walk [] (Path.names path) with
    | error problem =>
      simp only [hwalked, reduceCtorEq, false_iff] at hwalk ⊢
      exact fun hall => hwalk _ _ ⟨hall.2.1, hall.1.name_le, rfl, rfl⟩
    | ok walked =>
      obtain ⟨location, node⟩ := walked
      obtain ⟨hreaches, hnamesShort, rfl, rfl⟩ := (hwalk _ _).mp hwalked
      have hfits : Fits path ∧ disk.Reaches (Path.names path) := ⟨⟨hshort, hnamesShort⟩, hreaches⟩
      simp only [hfits, true_and]
      split
      · rename_i content hfile
        have hopen : ¬ (path.getLast? == some Path.separator) = true := fun hslash => by
          rw [hpath.names_eq_nil (beq_iff_eq.mp hslash), node?_top] at hfile
          cases hfile
        simp [hopen, hfile, eq_comm]
      · simp [eq_comm]

end Walks

/-! ## Operations on resolved paths -/

section Operations

variable {disk next : Disk} {path content : Bytes} {node : Node}

theorem status_eq_ok_iff (hpath : Path.Resolved path) (hzero : 0 ∉ path) :
    disk.status path = .ok node ↔
      Fits path ∧ disk.Reaches (Path.names path) ∧
        disk.node? (Path.names path) = some node := by
  rw [status]
  split
  · rename_i hlocated
    simp only [reduceCtorEq, false_iff]
    intro hall
    rw [(locate_eq_ok_iff hpath hzero).mpr ⟨hall.1, hall.2.1, rfl⟩] at hlocated
    cases hlocated
  all_goals
    rename_i hlocated
    obtain ⟨hfits, hreaches, hplace⟩ := (locate_eq_ok_iff hpath hzero).mp hlocated
    obtain ⟨rfl, hnode, rfl⟩ := Place.mk.inj hplace
    simp [hfits, hreaches, ← hnode]

theorem writeFile_spec (hpath : Path.Resolved path) (hzero : 0 ∉ path)
    (hwritten : disk.writeFile path content = .ok next) :
    Fits path ∧ disk.Reaches (Path.names path) ∧
      disk.node? (Path.names path) ≠ some .directory ∧
      next = disk.put (Path.names path) (.file content) := by
  cases hlocated : disk.locate path with
  | error problem =>
    simp [writeFile, openForWriting, hlocated, Except.map] at hwritten
  | ok place =>
    obtain ⟨hfits, hreaches, rfl⟩ := (locate_eq_ok_iff hpath hzero).mp hlocated
    refine ⟨hfits, hreaches, ?_⟩
    rw [writeFile, openForWriting, hlocated] at hwritten
    cases hnode : disk.node? (Path.names path) with
    | none =>
      simp only [hnode] at hwritten
      split at hwritten
      · cases hwritten
      · exact ⟨nofun, (Except.ok.inj hwritten).symm⟩
    | some standing =>
      cases standing with
      | directory => simp [hnode, Except.map] at hwritten
      | file old =>
        rw [hnode] at hwritten
        exact ⟨nofun, (Except.ok.inj hwritten).symm⟩

theorem removeFile_eq_ok_iff (hpath : Path.Resolved path) (hzero : 0 ∉ path) :
    disk.removeFile path = .ok next ↔
      (∃ content, disk.status path = .ok (.file content)) ∧
        next = disk.erase (Path.names path) := by
  rw [removeFile, status]
  cases hlocated : disk.locate path with
  | error problem => simp
  | ok place =>
    obtain ⟨-, -, rfl⟩ := (locate_eq_ok_iff hpath hzero).mp hlocated
    cases hnode : disk.node? (Path.names path) with
    | none => simp
    | some standing => cases standing <;> simp [eq_comm]

theorem makeDirectory_spec (hpath : Path.Resolved path) (hzero : 0 ∉ path)
    (hmade : disk.makeDirectory path = .ok next) :
    next = disk ∨ disk.node? (Path.names path) = none ∧
      next = disk.put (Path.names path) .directory := by
  rw [makeDirectory] at hmade
  cases hlocated : disk.locate path with
  | error problem => simp [hlocated] at hmade
  | ok place =>
    obtain ⟨-, -, rfl⟩ := (locate_eq_ok_iff hpath hzero).mp hlocated
    rw [hlocated] at hmade
    cases hnode : disk.node? (Path.names path) with
    | none =>
      rw [hnode] at hmade
      exact .inr ⟨rfl, (Except.ok.inj hmade).symm⟩
    | some standing =>
      cases standing with
      | file old => simp [hnode] at hmade
      | directory =>
        rw [hnode] at hmade
        exact .inl (Except.ok.inj hmade).symm

end Operations

/-! ## Directories on the way to a location -/

/-- A disk grew toward a location: nothing changed but that directories now stand on the way to
it where nothing stood. -/
def Grows (before after : Disk) (target : Location) : Prop :=
  ∀ location, after.node? location = before.node? location ∨
    before.node? location = none ∧ after.node? location = some .directory ∧
      location <+: target ∧ location ≠ target

section Growth

variable {before middle after disk next : Disk} {location target : Location} {path : Bytes}
  {node : Node}

theorem Grows.refl (disk : Disk) (target : Location) : disk.Grows disk target :=
  fun _ => .inl rfl

theorem Grows.node? (hgrows : before.Grows after target)
    (hnode : before.node? location = some node) : after.node? location = some node := by
  rcases hgrows location with heq | ⟨hnone, -⟩
  · rw [heq, hnode]
  · rw [hnode] at hnone
    cases hnone

theorem Grows.trans (hfirst : before.Grows middle target) (hsecond : middle.Grows after target) :
    before.Grows after target := by
  intro location
  rcases hfirst location with hkept | ⟨hnone, hmade, hway⟩
  · rw [← hkept]
    exact hsecond location
  · exact .inr ⟨hnone, hsecond.node? hmade, hway⟩

theorem grows_put_directory (hnone : disk.node? location = none) (hway : location <+: target)
    (hne : location ≠ target) : disk.Grows (disk.put location .directory) target := by
  intro other
  by_cases hother : other = location
  · subst hother
    have htop : other ≠ [] := by
      rintro rfl
      cases hnone
    exact .inr ⟨hnone, node?_put_self disk htop _, hway, hne⟩
  · exact .inl (node?_put_of_ne disk hother _)

/-- The path spells a location on the way to the target. -/
def Spells (target : Location) (path : Bytes) : Prop :=
  ∃ location, location <+: target ∧ location ≠ target ∧
    path = Path.separator :: Path.joinNames location

/-- Only directories on the way up from a location are looked for. -/
theorem missingDirectories_spells {names found missing : List Bytes}
    (hnames : names ≠ [] → names.reverse <+: target ∧ names.reverse ≠ target)
    (hfound : ∀ path ∈ found, Spells target path)
    (hmissing : disk.missingDirectories names found = .ok missing) :
    ∀ path ∈ missing, Spells target path := by
  induction names generalizing found with
  | nil =>
    obtain rfl := Except.ok.inj hmissing
    exact hfound
  | cons name above ih =>
    obtain ⟨hway, hne⟩ := hnames (List.cons_ne_nil _ _)
    have habove : above ≠ [] → above.reverse <+: target ∧ above.reverse ≠ target := by
      have hstep : above.reverse <+: (name :: above).reverse := by simp
      refine fun _ => ⟨hstep.trans hway, ?_⟩
      rintro rfl
      exact absurd hway.length_le (by simp)
    rw [missingDirectories] at hmissing
    split at hmissing
    · obtain rfl := Except.ok.inj hmissing
      exact hfound
    · cases hmissing
    · cases hmissing
    · split at hmissing
      · cases hmissing
      · exact ih habove (List.forall_mem_cons.mpr ⟨⟨_, hway, hne, rfl⟩, hfound⟩) hmissing

variable (hplain : ∀ name ∈ target, Path.Plain name) (hzero : ∀ name ∈ target, 0 ∉ name)

include hplain hzero

theorem makeDirectory_grows (hspells : Spells target path)
    (hmade : disk.makeDirectory path = .ok next) : disk.Grows next target := by
  obtain ⟨location, hway, hne, rfl⟩ := hspells
  have hlocation : ∀ name ∈ location, Path.Plain name :=
    fun name hname => hplain name (hway.subset hname)
  have hclean : 0 ∉ Path.separator :: Path.joinNames location := by
    intro hmem
    rcases Path.mem_cons_joinNames hmem with hseparator | ⟨name, hname, hbyte⟩
    · cases hseparator
    · exact hzero name (hway.subset hname) hbyte
  have hmade := makeDirectory_spec (Path.resolved_cons_joinNames hlocation) hclean hmade
  rw [Path.names_cons_joinNames hlocation] at hmade
  rcases hmade with rfl | ⟨hnone, rfl⟩
  · exact .refl _ _
  · exact grows_put_directory hnone hway hne

theorem makeDirectories_grows {paths : List Bytes} (hspells : ∀ path ∈ paths, Spells target path) :
    disk.Grows (disk.makeDirectories paths).1 target := by
  induction paths generalizing disk with
  | nil => exact .refl _ _
  | cons path paths ih =>
    rw [List.forall_mem_cons] at hspells
    rw [makeDirectories]
    split
    · exact .refl _ _
    · rename_i next hmade
      exact (makeDirectory_grows hplain hzero hspells.1 hmade).trans (ih hspells.2)

omit hplain hzero in
/-- Making the parents of a path fills in directories on the way to it, also where it fails. -/
theorem createDirectories_grows (hpath : Path.Resolved path) (hzero : 0 ∉ path) :
    disk.Grows (disk.createDirectories (Path.parent path)).1 (Path.names path) := by
  obtain ⟨hparent, hnames⟩ := hpath.parent
  rw [createDirectories, hparent.stack_eq, hnames]
  cases hmissing : disk.missingDirectories (Path.names path).dropLast.reverse [] with
  | error problem => exact .refl _ _
  | ok missing =>
    refine makeDirectories_grows hpath.plain
      (fun name hname hbyte => hzero (Path.mem_of_mem_names hname hbyte))
      (missingDirectories_spells (fun hne => ?_) (List.forall_mem_nil _) hmissing)
    rw [List.reverse_reverse]
    refine ⟨List.dropLast_prefix _, fun heq => hne ?_⟩
    have hlength := congrArg List.length heq
    rw [List.length_dropLast] at hlength
    rw [List.reverse_eq_nil_iff, ← List.length_eq_zero_iff, List.length_dropLast]
    omega

end Growth

/-! ## Contents of files -/

/-- The contents of the files by their locations. -/
abbrev Files := Location → Option Bytes

/-- What the files of a disk hold. -/
def files (disk : Disk) : Files := fun location =>
  match disk.node? location with
  | some (.file content) => some content
  | _ => none

section Contents

variable {before after disk : Disk} {location target : Location} {content : Bytes}

theorem files_eq_some_iff :
    disk.files location = some content ↔ disk.node? location = some (.file content) := by
  rw [files]
  split <;> simp_all

theorem files_put_file (htop : location ≠ []) (content : Bytes) :
    (disk.put location (.file content)).files =
      Function.update disk.files location (some content) := by
  funext other
  by_cases hother : other = location
  · subst hother
    simp [files, htop]
  · rw [Function.update_of_ne hother, files, node?_put_of_ne disk hother]
    rfl

theorem files_erase (htop : location ≠ []) :
    (disk.erase location).files = Function.update disk.files location none := by
  funext other
  by_cases hother : other = location
  · subst hother
    simp [files, htop]
  · rw [Function.update_of_ne hother, files, node?_erase_of_ne disk hother]
    rfl

/-- New directories change no file. -/
theorem Grows.files_eq (hgrows : before.Grows after target) : after.files = before.files := by
  funext location
  rw [files, files]
  rcases hgrows location with heq | ⟨hnone, hmade, -⟩
  · rw [heq]
  · rw [hnone, hmade]

end Contents

/-! ## Files after a change -/

section Changes

variable {before after disk next : Disk} {location target : Location} {path other content : Bytes}
  {node : Node}

/-- A way through directories is kept where directories are kept. -/
theorem Reaches.of_directories (hreaches : disk.Reaches location)
    (hkept : ∀ above, disk.node? above = some .directory → next.node? above = some .directory) :
    next.Reaches location :=
  fun n hn => hkept _ (hreaches n hn)

theorem ne_top_of_not_directory (hnode : disk.node? location ≠ some .directory) :
    location ≠ [] := by
  rintro rfl
  exact hnode (node?_top disk)

theorem Grows.status (hgrows : before.Grows after target) (hpath : Path.Resolved path)
    (hzero : 0 ∉ path) (hstatus : before.status path = .ok node) :
    after.status path = .ok node := by
  rw [status_eq_ok_iff hpath hzero] at hstatus ⊢
  exact ⟨hstatus.1, hstatus.2.1.of_directories fun _ => hgrows.node?, hgrows.node? hstatus.2.2⟩

variable (hpath : Path.Resolved path) (hzero : 0 ∉ path) (hother : Path.Resolved other)
  (hotherZero : 0 ∉ other)

section Write

variable (hwritten : disk.writeFile path content = .ok next)

include hpath hzero hwritten

theorem directory_of_writeFile {above : Location} (habove : disk.node? above = some .directory) :
    next.node? above = some .directory := by
  obtain ⟨-, -, hnode, rfl⟩ := writeFile_spec hpath hzero hwritten
  rw [node?_put_of_ne, habove]
  rintro rfl
  exact hnode habove

theorem files_writeFile :
    next.files = Function.update disk.files (Path.names path) (some content) := by
  obtain ⟨-, -, hnode, rfl⟩ := writeFile_spec hpath hzero hwritten
  exact files_put_file (ne_top_of_not_directory hnode) content

/-- What is written is what is read back. -/
theorem status_writeFile : next.status path = .ok (.file content) := by
  obtain ⟨hfits, hreaches, hnode, rfl⟩ := writeFile_spec hpath hzero hwritten
  refine (status_eq_ok_iff hpath hzero).mpr ⟨hfits, ?_, ?_⟩
  · exact hreaches.of_directories fun _ => directory_of_writeFile hpath hzero hwritten
  · exact node?_put_self disk (ne_top_of_not_directory hnode) _

include hother hotherZero

/-- A file is still there after another one is written, or the same one. -/
theorem exists_status_of_writeFile {old : Bytes} (hstatus : disk.status other = .ok (.file old)) :
    ∃ present, next.status other = .ok (.file present) := by
  simp only [status_eq_ok_iff hother hotherZero] at hstatus ⊢
  have hreaches := hstatus.2.1.of_directories fun _ => directory_of_writeFile hpath hzero hwritten
  have hfile : ∃ present, next.files (Path.names other) = some present := by
    rw [files_writeFile hpath hzero hwritten]
    by_cases hsame : Path.names other = Path.names path
    · exact ⟨content, by rw [hsame, Function.update_self]⟩
    · exact ⟨old, by rw [Function.update_of_ne hsame, files_eq_some_iff, hstatus.2.2]⟩
  obtain ⟨present, hpresent⟩ := hfile
  exact ⟨present, hstatus.1, hreaches, files_eq_some_iff.mp hpresent⟩

end Write

section Remove

variable (hremoved : disk.removeFile path = .ok next)

include hpath hzero hremoved

theorem files_removeFile : next.files = Function.update disk.files (Path.names path) none := by
  obtain ⟨⟨old, hstatus⟩, rfl⟩ := (removeFile_eq_ok_iff hpath hzero).mp hremoved
  have hnode := ((status_eq_ok_iff hpath hzero).mp hstatus).2.2
  exact files_erase (ne_top_of_not_directory (by rw [hnode]; exact nofun))

include hother hotherZero

/-- A file can be read after another path is removed exactly if that path leads elsewhere. -/
theorem status_removeFile_iff (hstatus : disk.status other = .ok (.file content)) :
    next.status other = .ok (.file content) ↔ Path.names other ≠ Path.names path := by
  have hfiles := files_removeFile hpath hzero hremoved
  obtain ⟨⟨old, hold⟩, rfl⟩ := (removeFile_eq_ok_iff hpath hzero).mp hremoved
  rw [status_eq_ok_iff hother hotherZero] at hstatus ⊢
  rw [status_eq_ok_iff hpath hzero] at hold
  constructor
  · intro hkept hsame
    have hfile := files_eq_some_iff.mpr hkept.2.2
    rw [hfiles, hsame, Function.update_self] at hfile
    cases hfile
  · intro hne
    refine ⟨hstatus.1, hstatus.2.1.of_directories fun above habove => ?_, ?_⟩
    · rw [node?_erase_of_ne, habove]
      rintro rfl
      rw [hold.2.2] at habove
      cases habove
    · rw [node?_erase_of_ne _ hne, hstatus.2.2]

end Remove

end Changes

end Disk

end Patchwork
