import Mathlib.Data.List.Induction
import Patchwork.Proofs.Disk

/-!
# Making directories

A directory is made with all the missing ones above it if no file stands on the way, if nothing
stands where the directory around it is missing, and if not too many are missing.  Main statements:
`createDirectories_spec` and `createDirectories_tooMany`.
-/

namespace Patchwork

namespace Location

/-- What stands on the way to a location stands on the way to the one around it, or is that. -/
theorem prefix_dropLast {above location : Location} (hway : above <+: location)
    (hne : above ≠ location) : above <+: location.dropLast := by
  obtain ⟨below, rfl⟩ := hway
  rw [List.dropLast_append_of_ne_nil (fun hnil => hne (by rw [hnil, List.append_nil]))]
  exact List.prefix_append _ _

end Location

/-- What stands at every location. -/
abbrev Tree := Location → Option Node

namespace Tree

/-- Whatever stands on the way to the location, or at it, stands in a directory. -/
def Grounded (tree : Tree) (location : Location) : Prop :=
  ∀ above name, above ++ [name] <+: location → tree (above ++ [name]) ≠ none →
    tree above = some .directory

/-- No file stands on the way to the location, or at it. -/
def Passable (tree : Tree) (location : Location) : Prop :=
  ∀ above, above <+: location → ∀ content, tree above ≠ some (.file content)

/-- Every location on the way to the given one, and this one itself, is a directory. -/
def Open (tree : Tree) (location : Location) : Prop :=
  ∀ above, above <+: location → tree above = some .directory

/-- From some directory on the way to the location, the system makes as many directories as lead to
it. -/
def Near (tree : Tree) (location : Location) : Prop :=
  ∃ above, above <+: location ∧ tree above = some .directory ∧
    location.length ≤ above.length + Disk.mostMissing

/-- Nothing stands below the base on the way along the names. -/
def Missing (tree : Tree) (base : Location) (names : List Bytes) : Prop :=
  ∀ below, below ≠ [] → below <+: names → tree (base ++ below) = none

variable {tree : Tree} {location above base : Location} {names : List Bytes} {name : Bytes}

theorem Grounded.mono (hgrounded : tree.Grounded location) (hway : above <+: location) :
    tree.Grounded above :=
  fun _ _ hbelow => hgrounded _ _ (hbelow.trans hway)

theorem Passable.mono (hpassable : tree.Passable location) (hway : above <+: location) :
    tree.Passable above :=
  fun _ hbelow => hpassable _ (hbelow.trans hway)

theorem Open.mono (hopen : tree.Open location) (hway : above <+: location) : tree.Open above :=
  fun _ hbelow => hopen _ (hbelow.trans hway)

theorem Open.concat (hopen : tree.Open location)
    (hnode : tree (location ++ [name]) = some .directory) : tree.Open (location ++ [name]) := by
  intro above habove
  rcases List.prefix_concat_iff.mp habove with rfl | habove
  · exact hnode
  · exact hopen above habove

/-- The way to something that is grounded is open. -/
theorem Grounded.open (hgrounded : tree.Grounded (location ++ [name]))
    (hnode : tree (location ++ [name]) ≠ none) : tree.Open location := by
  induction location using List.reverseRecOn generalizing name with
  | nil =>
    intro above habove
    rw [List.prefix_nil.mp habove]
    exact hgrounded [] name (List.prefix_refl _) hnode
  | append_singleton init last ih =>
    have hlast := hgrounded _ _ (List.prefix_refl _) hnode
    exact (ih (hgrounded.mono (List.prefix_append _ _)) (by simp [hlast])).concat hlast

/-- The way to a grounded location that no file blocks is open down to a base, below which nothing
stands. -/
theorem exists_base (htop : tree [] = some .directory) (hgrounded : tree.Grounded location)
    (hpassable : tree.Passable location) :
    ∃ base names, location = base ++ names ∧ tree.Open base ∧ tree.Missing base names := by
  induction location using List.reverseRecOn with
  | nil =>
    refine ⟨[], [], rfl, fun above habove => ?_, fun below hne hbelow => ?_⟩
    · rw [List.prefix_nil.mp habove, htop]
    · exact absurd (List.prefix_nil.mp hbelow) hne
  | append_singleton init last ih =>
    cases hnode : tree (init ++ [last]) with
    | none =>
      obtain ⟨base, names, rfl, hopen, hmissing⟩ :=
        ih (hgrounded.mono (List.prefix_append _ _)) (hpassable.mono (List.prefix_append _ _))
      refine ⟨base, names ++ [last], List.append_assoc _ _ _, hopen, fun below hne hbelow => ?_⟩
      rcases List.prefix_concat_iff.mp hbelow with rfl | hbelow
      · rw [← List.append_assoc, hnode]
      · exact hmissing below hne hbelow
    | some node =>
      cases node with
      | file content => exact absurd hnode (hpassable _ (List.prefix_refl _) content)
      | directory =>
        have hopen := hgrounded.open (by simp [hnode])
        refine ⟨init ++ [last], [], (List.append_nil _).symm, hopen.concat hnode,
          fun below hne hbelow => ?_⟩
        exact absurd (List.prefix_nil.mp hbelow) hne

/-- What is missing below a base stands below every directory on the way. -/
theorem Near.length_le (hnear : tree.Near (base ++ names)) (hmissing : tree.Missing base names) :
    names.length ≤ Disk.mostMissing := by
  obtain ⟨above, hway, hdirectory, hlength⟩ := hnear
  have habove : above.length ≤ base.length := by
    by_contra hlonger
    have hbelow : base <+: above :=
      List.prefix_of_prefix_length_le (List.prefix_append base names) hway (by omega)
    obtain ⟨below, rfl⟩ := hbelow
    have hne : below ≠ [] := by
      rintro rfl
      exact hlonger (by rw [List.append_nil])
    rw [hmissing below hne ((List.prefix_append_right_inj base).mp hway)] at hdirectory
    cases hdirectory
  rw [List.length_append] at hlength
  omega

end Tree

namespace Disk

/-- The path of a location. -/
def pathTo (location : Location) : Bytes :=
  Path.separator :: Path.joinNames location

/-- The paths of the locations below a base along the names, the outermost first. -/
def pathsBelow (base : Location) : List Bytes → List Bytes
  | [] => []
  | name :: rest => pathTo (base ++ [name]) :: pathsBelow (base ++ [name]) rest

theorem pathsBelow_concat (base : Location) (names : List Bytes) (last : Bytes) :
    pathsBelow base (names ++ [last]) =
      pathsBelow base names ++ [pathTo (base ++ names ++ [last])] := by
  induction names generalizing base with
  | nil => rw [List.append_nil]; rfl
  | cons name names ih =>
    rw [List.cons_append, pathsBelow, ih, pathsBelow, ← List.append_cons]
    rfl

theorem reaches_iff_open {disk : Disk} {location : Location} :
    disk.Reaches location ↔ Tree.Open disk.node? location.dropLast := by
  constructor
  · intro hreaches above habove
    rcases List.eq_nil_or_concat location with rfl | ⟨init, last, rfl⟩
    · rw [List.prefix_nil.mp habove]
      exact node?_top disk
    · rw [List.concat_eq_append, List.dropLast_concat] at habove
      rw [List.concat_eq_append] at hreaches
      have hlength := habove.length_le
      have hnode := hreaches above.length (by rw [List.length_append, List.length_singleton]; omega)
      rwa [List.take_append_of_le_length hlength, ← List.prefix_iff_eq_take.mp habove] at hnode
  · intro hopen n hn
    refine hopen _ ?_
    rw [List.dropLast_eq_take]
    exact List.take_prefix_take_left (by omega)

/-! ## Names that are short enough -/

section Lengths

variable {disk : Disk} {path : Bytes} {location : Location}

theorem walk_ne_nameTooLong {names : List Bytes} (hplain : ∀ name ∈ names, Path.Plain name)
    (hshort : ∀ name ∈ names, name.length ≤ longestName) :
    disk.walk location names ≠ .error .nameTooLong := by
  have henter : ∀ (directory : Location) (name : Bytes), Path.Plain name →
      name.length ≤ longestName → disk.enter directory name ≠ .error .nameTooLong := by
    intro directory name hname hle
    rw [enter, if_neg hname.ne_here, if_neg hname.ne_above, if_neg (Nat.not_lt.mpr hle)]
    split <;> simp
  induction names generalizing location with
  | nil => simp [walk]
  | cons name names ih =>
    rw [List.forall_mem_cons] at hplain hshort
    cases names with
    | nil => exact henter location name hplain.1 hshort.1
    | cons next rest =>
      rw [walk.eq_3 _ _ _ _ (by simp)]
      split
      · rename_i problem hentered
        rintro heq
        obtain rfl := Except.error.inj heq
        exact henter location name hplain.1 hshort.1 hentered
      · simp
      · exact ih hplain.2 hshort.2

theorem status_ne_nameTooLong (hpath : Path.Resolved path) (hzero : 0 ∉ path)
    (hfits : Fits path) : disk.status path ≠ .error .nameTooLong := by
  have hnames : (Path.components path).filter (· ≠ []) = Path.names path := rfl
  have hwalk : disk.walk [] (Path.names path) ≠ .error .nameTooLong :=
    walk_ne_nameTooLong hpath.plain hfits.name_le
  rw [status]
  split
  · rename_i problem hlocated
    rintro heq
    obtain rfl := Except.error.inj heq
    rw [locate] at hlocated
    simp only [Bytes.untilZero_eq_self hzero, hnames, hpath.absolute, if_true,
      if_neg (Nat.not_lt.mpr hfits.path_le)] at hlocated
    split at hlocated
    · cases hlocated
    · split at hlocated
      · rename_i problem hwalked
        obtain rfl := Except.error.inj hlocated
        exact hwalk hwalked
      · split at hlocated
        · split at hlocated <;> cases hlocated
        · cases hlocated
  · simp
  · simp

variable (hpath : Path.Resolved path) (hzero : 0 ∉ path) (hway : location <+: Path.names path)

include hpath hzero hway

theorem resolved_pathTo :
    Path.Resolved (pathTo location) ∧ 0 ∉ pathTo location ∧
      Path.names (pathTo location) = location := by
  have hplain : ∀ name ∈ location, Path.Plain name :=
    fun name hname => hpath.plain name (hway.subset hname)
  refine ⟨Path.resolved_cons_joinNames hplain, fun hmem => ?_, Path.names_cons_joinNames hplain⟩
  rcases Path.mem_cons_joinNames hmem with hseparator | ⟨name, hname, hbyte⟩
  · cases hseparator
  · exact hzero (Path.mem_of_mem_names (hway.subset hname) hbyte)

/-- The path of a location is no longer than another path to it or below it. -/
theorem fits_pathTo (hfits : Fits path) : Fits (pathTo location) := by
  obtain ⟨-, -, hnames⟩ := resolved_pathTo hpath hzero hway
  refine ⟨le_trans ?_ hfits.path_le, fun name hname => hfits.name_le name ?_⟩
  · obtain ⟨run, -, hspelling⟩ := hpath.spelling
    by_cases hne : location = []
    · subst hne
      have habsolute := hpath.absolute
      cases path with
      | nil => cases habsolute
      | cons byte rest => exact Nat.succ_le_succ (Nat.zero_le _)
    · obtain ⟨below, hbelow⟩ := hway
      rw [pathTo, Path.cons_joinNames hne, hspelling, ← hbelow, List.flatMap_append,
        List.length_append, List.length_append]
      omega
  · rw [hnames] at hname
    exact hway.subset hname

end Lengths

/-! ## Making what is missing -/

section Steps

variable {disk : Disk} {above : Location} {name : Bytes} {problem : OsError}

/-- The search for missing directories ends at one that is there. -/
theorem missingDirectories_of_directory (found : List Bytes)
    (hstatus : disk.status (pathTo (above ++ [name])) = .ok .directory) :
    disk.missingDirectories (above ++ [name]).reverse found = .ok found := by
  rw [pathTo, ← List.reverse_reverse (above ++ [name]), List.reverse_concat] at hstatus
  simp only [List.reverse_concat, missingDirectories, hstatus]

/-- The search goes on above a location where nothing stands, unless too many are missing. -/
theorem missingDirectories_of_missing (found : List Bytes)
    (hstatus : disk.status (pathTo (above ++ [name])) = .error problem)
    (hshort : problem ≠ .nameTooLong) :
    disk.missingDirectories (above ++ [name]).reverse found =
      if found.length = mostMissing then .error .nameTooLong
      else disk.missingDirectories above.reverse (pathTo (above ++ [name]) :: found) := by
  have hpath : pathTo (above ++ [name]) =
      Path.separator :: Path.joinNames (name :: above.reverse).reverse := by
    rw [pathTo, List.reverse_cons, List.reverse_reverse]
  rw [hpath] at hstatus ⊢
  rw [List.reverse_concat, missingDirectories]
  simp only [hstatus]

end Steps

section Making

variable {disk : Disk} {path : Bytes} {base : Location} {names found : List Bytes}
  (hpath : Path.Resolved path) (hzero : 0 ∉ path) (hfits : Fits path)
  (hway : base ++ names <+: Path.names path)
  (hopen : Tree.Open disk.node? base) (hmissing : Tree.Missing disk.node? base names)

include hpath hzero hfits hway hopen hmissing

/-- The missing directories are found as long as they are few enough. -/
theorem missingDirectories_eq (hfound : found.length ≤ mostMissing) :
    disk.missingDirectories (base ++ names).reverse found =
      if names.length + found.length ≤ mostMissing then .ok (pathsBelow base names ++ found)
      else .error .nameTooLong := by
  induction names using List.reverseRecOn generalizing found with
  | nil =>
    rw [List.append_nil] at hway
    rw [List.append_nil, List.length_nil, Nat.zero_add, if_pos hfound]
    rcases List.eq_nil_or_concat base with rfl | ⟨init, last, rfl⟩
    · rfl
    · rw [List.concat_eq_append] at hopen hway ⊢
      obtain ⟨hresolved, hclean, hnames⟩ := resolved_pathTo hpath hzero hway
      refine missingDirectories_of_directory found ((status_eq_ok_iff hresolved hclean).mpr ?_)
      rw [hnames, reaches_iff_open]
      exact ⟨fits_pathTo hpath hzero hway hfits, hopen.mono (List.dropLast_prefix _),
        hopen _ (List.prefix_refl _)⟩
  | append_singleton init last ih =>
    obtain ⟨hresolved, hclean, hnames⟩ := resolved_pathTo hpath hzero hway
    rw [← List.append_assoc] at hway hresolved hclean hnames ⊢
    have hmissingInit : Tree.Missing disk.node? base init :=
      fun below hne hbelow => hmissing below hne (hbelow.trans (List.prefix_append _ _))
    have hnode : disk.node? (base ++ init ++ [last]) = none := by
      rw [List.append_assoc]
      exact hmissing _ (by simp) (List.prefix_refl _)
    cases hstatus : disk.status (pathTo (base ++ init ++ [last])) with
    | ok node =>
      have hstanding := ((status_eq_ok_iff hresolved hclean).mp hstatus).2.2
      rw [hnames, hnode] at hstanding
      cases hstanding
    | error problem =>
      have hshort : problem ≠ .nameTooLong := by
        rintro rfl
        exact status_ne_nameTooLong hresolved hclean (fits_pathTo hpath hzero hway hfits) hstatus
      rw [missingDirectories_of_missing found hstatus hshort]
      split
      · rename_i hfull
        rw [if_neg (by simp only [List.length_append, List.length_singleton]; omega)]
      · rename_i hroom
        have hsum : init.length + (found.length + 1) = (init ++ [last]).length + found.length := by
          rw [List.length_append, List.length_singleton]
          omega
        rw [ih ((List.prefix_append _ _).trans hway) hmissingInit
          (by rw [List.length_cons]; omega), List.length_cons, hsum, pathsBelow_concat,
          List.append_cons (pathsBelow base init)]

/-- Every missing directory can be made in its turn. -/
theorem makeDirectories_pathsBelow :
    ∃ grown, disk.makeDirectories (pathsBelow base names) = (grown, none) ∧
      Tree.Open grown.node? (base ++ names) := by
  induction names generalizing base disk with
  | nil =>
    rw [List.append_nil]
    exact ⟨disk, rfl, hopen⟩
  | cons name rest ih =>
    have hnext : base ++ [name] <+: Path.names path := by
      refine List.IsPrefix.trans ?_ hway
      rw [List.append_cons base name rest]
      exact List.prefix_append _ _
    have hnode : disk.node? (base ++ [name]) = none :=
      hmissing [name] (List.cons_ne_nil _ _) (by simp)
    obtain ⟨hresolved, hclean, hnames⟩ := resolved_pathTo hpath hzero hnext
    have hreaches : disk.Reaches (Path.names (pathTo (base ++ [name]))) := by
      rw [hnames, reaches_iff_open, List.dropLast_concat]
      exact hopen
    have hlocated := (locate_eq_ok_iff hresolved hclean).mpr
      ⟨fits_pathTo hpath hzero hnext hfits, hreaches, rfl⟩
    have hmade : disk.makeDirectory (pathTo (base ++ [name])) =
        .ok (disk.put (base ++ [name]) .directory) := by
      rw [makeDirectory, hlocated, hnames, hnode]
    have hkept : ∀ location, location ≠ base ++ [name] →
        (disk.put (base ++ [name]) .directory).node? location = disk.node? location :=
      fun location hne => node?_put_of_ne disk hne _
    have hopenNext : Tree.Open (disk.put (base ++ [name]) .directory).node? (base ++ [name]) := by
      refine Tree.Open.concat (fun above habove => ?_) (node?_put_self disk (by simp) _)
      rw [hkept above, hopen above habove]
      rintro rfl
      exact absurd habove.length_le (by simp)
    have hmissingNext :
        Tree.Missing (disk.put (base ++ [name]) .directory).node? (base ++ [name]) rest := by
      intro below hne hbelow
      rw [hkept, List.append_assoc]
      · exact hmissing (name :: below) (List.cons_ne_nil _ _)
          ((List.prefix_cons_inj name).mpr hbelow)
      · simpa using hne
    rw [List.append_cons base name rest] at hway ⊢
    rw [pathsBelow, makeDirectories, hmade]
    exact ih hway hopenNext hmissingNext

end Making

section Parents

variable {disk : Disk} {path : Bytes} (hpath : Path.Resolved path) (hzero : 0 ∉ path)
  (hfits : Fits path)

include hpath hzero hfits

/-- The directories on the way to a path are made, if no file stands there and not too many are
missing. -/
theorem createDirectories_spec
    (hgrounded : Tree.Grounded disk.node? (Path.names path).dropLast)
    (hpassable : Tree.Passable disk.node? (Path.names path).dropLast)
    (hnear : Tree.Near disk.node? (Path.names path).dropLast) :
    ∃ grown, disk.createDirectories (Path.parent path) = (grown, none) ∧
      grown.Reaches (Path.names path) := by
  obtain ⟨hparent, hnames⟩ := hpath.parent
  obtain ⟨base, names, hsplit, hopen, hmissing⟩ :=
    Tree.exists_base (node?_top disk) hgrounded hpassable
  have hway : base ++ names <+: Path.names path := hsplit ▸ List.dropLast_prefix _
  rw [hsplit] at hnear
  have hfew : names.length + ([] : List Bytes).length ≤ mostMissing :=
    hnear.length_le hmissing
  rw [createDirectories, hparent.stack_eq, hnames, hsplit,
    missingDirectories_eq hpath hzero hfits hway hopen hmissing (Nat.zero_le _), if_pos hfew,
    List.append_nil]
  simp only [reaches_iff_open, hsplit]
  exact makeDirectories_pathsBelow hpath hzero hfits hway hopen hmissing

/-- No directory is made if too many are missing. -/
theorem createDirectories_tooMany {base : Location} {names : List Bytes}
    (hsplit : (Path.names path).dropLast = base ++ names)
    (hopen : Tree.Open disk.node? base) (hmissing : Tree.Missing disk.node? base names)
    (hmany : mostMissing < names.length) :
    disk.createDirectories (Path.parent path) = (disk, some .nameTooLong) := by
  obtain ⟨hparent, hnames⟩ := hpath.parent
  have hway : base ++ names <+: Path.names path := hsplit ▸ List.dropLast_prefix _
  have hfull : ¬ names.length + ([] : List Bytes).length ≤ mostMissing := Nat.not_le.mpr hmany
  rw [createDirectories, hparent.stack_eq, hnames, hsplit,
    missingDirectories_eq hpath hzero hfits hway hopen hmissing (Nat.zero_le _), if_neg hfull]

end Parents

end Disk

end Patchwork
