import Mathlib.Data.Set.Basic
import Patchwork.Placement
import Patchwork.Proofs.Directories
import Patchwork.Proofs.Frame

/-!
# Hunks that stand apart

What a hunk does can be told location by location: it takes files away, puts one there, and fills in
directories on the way.  If no path of one hunk leads to a path of another one or onto the way
there, neither sees what the other does, except for directories that both would make, and so they
can be applied in any order.  Main statement: `Runs.perm`.
-/

namespace Patchwork

/-- What hunks work on: what stands at every location, and the paths at which files were accessed. -/
@[ext]
structure Scene where
  tree : Tree
  accessed : Set Bytes

namespace Tree

/-- The path leads to a file with the content. -/
structure Holds (tree : Tree) (path content : Bytes) : Prop where
  fits : Disk.Fits path
  file : tree (Path.names path) = some (.file content)

/-- A file can be written at the path when the directories on the way are made. -/
structure Admits (tree : Tree) (path : Bytes) : Prop where
  fits : Disk.Fits path
  free : tree (Path.names path) ≠ some .directory
  passable : tree.Passable (Path.names path).dropLast

end Tree

namespace Hunk

/-- The paths at which the hunk removes a file. -/
def removes : Hunk → List Bytes
  | add _ _ => []
  | delete path => [path]
  | update path destination _ => if destination.getD path = path then [] else [path]

/-- The paths at which the hunk writes a file. -/
def writes : Hunk → List Bytes
  | add path _ => [path]
  | delete _ => []
  | update path destination _ => [destination.getD path]

/-- The paths to which the hunk makes the directories. -/
def makes : Hunk → List Bytes
  | add path _ => [path]
  | delete _ => []
  | update _ destination _ => destination.toList

/-- What the hunk leaves at a location, by what it writes and by what stands there before. -/
def leaveAt (hunk : Hunk) (content : Bytes) (location : Location) (standing : Option Node) :
    Option Node :=
  if location ∈ hunk.removes.map Path.names then none
  else if location ∈ hunk.writes.map Path.names then some (.file content)
  else if standing = none ∧ ∃ path ∈ hunk.makes, location <+: Path.names path then some .directory
  else standing

/-- The scene that the hunk leaves, by what it writes. -/
def leave (hunk : Hunk) (content : Bytes) (scene : Scene) : Scene where
  tree location := hunk.leaveAt content location (scene.tree location)
  accessed := {path | path ∈ scene.accessed ∧ path ∉ hunk.removes ∨ path ∈ hunk.writes}

theorem tree_leave (hunk : Hunk) (content : Bytes) (scene : Scene) (location : Location) :
    (hunk.leave content scene).tree location =
      hunk.leaveAt content location (scene.tree location) := rfl

theorem mem_accessed_leave {hunk : Hunk} {content path : Bytes} {scene : Scene} :
    path ∈ (hunk.leave content scene).accessed ↔
      path ∈ scene.accessed ∧ path ∉ hunk.removes ∨ path ∈ hunk.writes := Iff.rfl

/-- The hunk finds what it needs in the tree, and writes the content. -/
inductive Applies (tree : Tree) : Hunk → Bytes → Prop
  | add {path contents : Bytes} (hadmits : tree.Admits path) :
      Applies tree (.add path contents) contents
  | delete {path old : Bytes} (hholds : tree.Holds path old) : Applies tree (.delete path) []
  | update {path old new : Bytes} {destination : Option Bytes} {chunks : List Chunk}
      (hholds : tree.Holds path old) (hupdated : Placement.updateContent old chunks = .ok new)
      (hadmits : ∀ moved ∈ destination, tree.Admits moved) :
      Applies tree (.update path destination chunks) new

/-- The hunk can be applied to the first scene, and leaves the second one. -/
def Turns (hunk : Hunk) (before after : Scene) : Prop :=
  ∃ content, hunk.Applies before.tree content ∧ after = hunk.leave content before

/-- No path of one hunk leads to a path of the other one, or onto the way there. -/
def Apart (first second : Hunk) : Prop :=
  ∀ path ∈ first.paths, ∀ other ∈ second.paths,
    ¬ Path.names path <+: Path.names other ∧ ¬ Path.names other <+: Path.names path

instance (first second : Hunk) : Decidable (first.Apart second) :=
  inferInstanceAs (Decidable (∀ path ∈ first.paths, ∀ other ∈ second.paths, _))

/-- The way to every path of the hunk is as it should be: what stands there stands in a directory,
and no more directories have to be made than the system makes. -/
structure Prepared (tree : Tree) (hunk : Hunk) : Prop where
  grounded : ∀ path ∈ hunk.paths, tree.Grounded (Path.names path)
  near : ∀ path ∈ hunk.makes, tree.Near (Path.names path).dropLast

/-! ## The paths of a hunk -/

section Paths

variable {hunk first second : Hunk} {path : Bytes}

theorem mem_paths_of_mem_removes (hpath : path ∈ hunk.removes) : path ∈ hunk.paths := by
  cases hunk with
  | add => cases hpath
  | delete => exact hpath
  | update source destination chunks =>
    rw [removes] at hpath
    split at hpath
    · cases hpath
    · rw [List.mem_singleton.mp hpath]
      exact List.mem_cons_self

theorem mem_paths_of_mem_writes (hpath : path ∈ hunk.writes) : path ∈ hunk.paths := by
  cases hunk with
  | add => exact hpath
  | delete => cases hpath
  | update source destination chunks =>
    rw [List.mem_singleton.mp hpath]
    cases destination with
    | none => exact List.mem_cons_self
    | some moved => exact List.mem_cons_of_mem _ List.mem_cons_self

theorem mem_writes_of_mem_makes (hpath : path ∈ hunk.makes) : path ∈ hunk.writes := by
  cases hunk with
  | add => exact hpath
  | delete => cases hpath
  | update source destination chunks =>
    cases destination with
    | none => cases hpath
    | some moved => exact hpath

theorem mem_paths_of_mem_makes (hpath : path ∈ hunk.makes) : path ∈ hunk.paths :=
  mem_paths_of_mem_writes (mem_writes_of_mem_makes hpath)

theorem Apart.symm (hapart : first.Apart second) : second.Apart first :=
  fun path hpath other hother => (hapart other hother path hpath).symm

end Paths

/-! ## What a hunk leaves -/

section Leaving

variable {hunk first second : Hunk} {content : Bytes} {location : Location}
  {standing : Option Node} {tree : Tree} {path : Bytes}

/-- At a location that the hunk does not name, it can only fill in a directory. -/
theorem leaveAt_of_unnamed (hunnamed : ∀ path ∈ hunk.paths, Path.names path ≠ location) :
    hunk.leaveAt content location standing =
      if standing = none ∧ ∃ path ∈ hunk.makes, location <+: Path.names path then some .directory
      else standing := by
  rw [leaveAt, if_neg, if_neg]
  · intro hmem
    obtain ⟨path, hpath, hnames⟩ := List.mem_map.mp hmem
    exact hunnamed path (mem_paths_of_mem_writes hpath) hnames
  · intro hmem
    obtain ⟨path, hpath, hnames⟩ := List.mem_map.mp hmem
    exact hunnamed path (mem_paths_of_mem_removes hpath) hnames

/-- A location that is not on the way to a path of the hunk is left alone. -/
theorem leaveAt_of_off (hoff : ∀ path ∈ hunk.paths, ¬ location <+: Path.names path) :
    hunk.leaveAt content location standing = standing := by
  rw [leaveAt_of_unnamed fun path hpath heq => hoff path hpath (heq ▸ List.prefix_refl _), if_neg]
  rintro ⟨-, path, hpath, hway⟩
  exact hoff path (mem_paths_of_mem_makes hpath) hway

/-- At every location on the way to a path of one hunk, another one that stands apart can only fill
in a directory. -/
theorem Apart.unnamed (hapart : first.Apart second) (hpath : path ∈ first.paths)
    (hway : location <+: Path.names path) :
    ∀ other ∈ second.paths, Path.names other ≠ location := by
  rintro other hother rfl
  exact (hapart path hpath other hother).2 hway

/-- What stands at a path of one hunk is left alone by another one that stands apart. -/
theorem Apart.leaveAt_names (hapart : first.Apart second) (hpath : path ∈ first.paths) :
    second.leaveAt content (Path.names path) standing = standing :=
  leaveAt_of_off fun other hother => (hapart path hpath other hother).1

theorem Apart.leaveAt_comm (hapart : first.Apart second) (content other : Bytes)
    (location : Location) (standing : Option Node) :
    first.leaveAt content location (second.leaveAt other location standing) =
      second.leaveAt other location (first.leaveAt content location standing) := by
  by_cases hfirst : ∃ path ∈ first.paths, Path.names path = location
  · obtain ⟨path, hpath, rfl⟩ := hfirst
    rw [hapart.leaveAt_names hpath, hapart.leaveAt_names hpath]
  · by_cases hsecond : ∃ path ∈ second.paths, Path.names path = location
    · obtain ⟨path, hpath, rfl⟩ := hsecond
      rw [hapart.symm.leaveAt_names hpath, hapart.symm.leaveAt_names hpath]
    · -- both can only fill in a directory
      simp only [not_exists, not_and] at hfirst hsecond
      simp only [leaveAt_of_unnamed hfirst, leaveAt_of_unnamed hsecond]
      cases standing with
      | some node => simp
      | none => split_ifs <;> simp_all

theorem Apart.leave_comm (hapart : first.Apart second) (content other : Bytes) (scene : Scene) :
    first.leave content (second.leave other scene) =
      second.leave other (first.leave content scene) := by
  have hpaths : ∀ path, path ∈ first.paths → path ∉ second.paths :=
    fun path hfirst hsecond => (hapart path hfirst path hsecond).1 (List.prefix_refl _)
  refine Scene.ext (funext fun location => ?_) (Set.ext fun path => ?_)
  · simp only [tree_leave, hapart.leaveAt_comm]
  · have hremoved : path ∈ first.removes → path ∉ second.writes := fun hfirst hsecond =>
      hpaths path (mem_paths_of_mem_removes hfirst) (mem_paths_of_mem_writes hsecond)
    have hwritten : path ∈ first.writes → path ∉ second.removes := fun hfirst hsecond =>
      hpaths path (mem_paths_of_mem_writes hfirst) (mem_paths_of_mem_removes hsecond)
    simp only [mem_accessed_leave]
    tauto

end Leaving

/-! ## What a hunk finds -/

section Finding

variable {first second hunk : Hunk} {content other : Bytes} {tree : Tree} {path old : Bytes}
  {before middle after : Scene}

theorem Apart.holds_iff (hapart : first.Apart second) (hpath : path ∈ first.paths) :
    Tree.Holds (second.leave content before).tree path old ↔ before.tree.Holds path old := by
  have hnode : (second.leave content before).tree (Path.names path) =
      before.tree (Path.names path) := hapart.leaveAt_names hpath
  constructor
  · rintro ⟨hfits, hfile⟩
    exact ⟨hfits, hnode ▸ hfile⟩
  · rintro ⟨hfits, hfile⟩
    exact ⟨hfits, hnode.trans hfile⟩

/-- A file on the way to a path of one hunk is no work of another one that stands apart. -/
theorem Apart.file_iff (hapart : first.Apart second) (hpath : path ∈ first.paths)
    {location : Location} (hway : location <+: Path.names path) :
    (second.leave content before).tree location = some (.file old) ↔
      before.tree location = some (.file old) := by
  rw [tree_leave, leaveAt_of_unnamed (hapart.unnamed hpath hway)]
  split
  · rename_i hmade
    simp [hmade.1]
  · rfl

theorem Apart.admits_iff (hapart : first.Apart second) (hpath : path ∈ first.paths) :
    Tree.Admits (second.leave content before).tree path ↔ before.tree.Admits path := by
  have hnode : (second.leave content before).tree (Path.names path) =
      before.tree (Path.names path) := hapart.leaveAt_names hpath
  have hfile : ∀ above, above <+: (Path.names path).dropLast → ∀ old,
      ((second.leave content before).tree above ≠ some (.file old) ↔
        before.tree above ≠ some (.file old)) :=
    fun above habove old =>
      not_congr (hapart.file_iff hpath (habove.trans (List.dropLast_prefix _)))
  constructor
  · rintro ⟨hfits, hfree, hpassable⟩
    exact ⟨hfits, hnode ▸ hfree,
      fun above habove old => (hfile above habove old).mp (hpassable above habove old)⟩
  · rintro ⟨hfits, hfree, hpassable⟩
    exact ⟨hfits, by rwa [hnode],
      fun above habove old => (hfile above habove old).mpr (hpassable above habove old)⟩

/-- A hunk finds what it needs in every tree that has as much at its paths. -/
theorem Applies.mono {grown : Tree} (happlies : hunk.Applies tree content)
    (hholds : ∀ path ∈ hunk.paths, ∀ old, tree.Holds path old → grown.Holds path old)
    (hadmits : ∀ path ∈ hunk.paths, tree.Admits path → grown.Admits path) :
    hunk.Applies grown content := by
  cases happlies with
  | add hadmitted => exact .add (hadmits _ List.mem_cons_self hadmitted)
  | delete hheld => exact .delete (hholds _ List.mem_cons_self _ hheld)
  | update hheld hupdated hadmitted =>
    exact .update (hholds _ List.mem_cons_self _ hheld) hupdated fun moved hmoved =>
      hadmits moved (List.mem_cons_of_mem _ (Option.mem_toList.mpr hmoved)) (hadmitted moved hmoved)

/-- A hunk finds what it needs whether another one that stands apart was applied before or not. -/
theorem Apart.applies_iff (hapart : first.Apart second) :
    first.Applies (second.leave other before).tree content ↔
      first.Applies before.tree content :=
  ⟨fun happlies => happlies.mono (fun _ hpath _ => (hapart.holds_iff hpath).mp)
      fun _ hpath => (hapart.admits_iff hpath).mp,
    fun happlies => happlies.mono (fun _ hpath _ => (hapart.holds_iff hpath).mpr)
      fun _ hpath => (hapart.admits_iff hpath).mpr⟩

theorem Applies.admits (happlies : hunk.Applies tree content) (hpath : path ∈ hunk.makes) :
    tree.Admits path := by
  cases happlies with
  | add hadmits => rwa [List.mem_singleton.mp hpath]
  | delete => cases hpath
  | update _ _ hadmits => exact hadmits path (Option.mem_toList.mp hpath)

theorem Applies.unique (happlies : hunk.Applies tree content) (hother : hunk.Applies tree other) :
    content = other := by
  cases happlies with
  | add | delete =>
    cases hother
    rfl
  | update hholds hupdated =>
    cases hother with
    | update hholds' hupdated' =>
      obtain rfl := Node.file.inj (Option.some.inj (hholds.file.symm.trans hholds'.file))
      exact Except.ok.inj (hupdated.symm.trans hupdated')

theorem Turns.unique (hturns : hunk.Turns before middle) (hother : hunk.Turns before after) :
    middle = after := by
  obtain ⟨content, happlies, rfl⟩ := hturns
  obtain ⟨other, happlies', rfl⟩ := hother
  rw [happlies.unique happlies']

/-- Hunks that stand apart can be exchanged. -/
theorem Apart.exchange (hapart : first.Apart second) (hfirst : first.Turns before middle)
    (hsecond : second.Turns middle after) :
    ∃ between, second.Turns before between ∧ first.Turns between after := by
  obtain ⟨content, happlies, rfl⟩ := hfirst
  obtain ⟨other, happlies', rfl⟩ := hsecond
  refine ⟨second.leave other before, ⟨other, hapart.symm.applies_iff.mp happlies', rfl⟩, content,
    hapart.applies_iff.mpr happlies, (hapart.leave_comm content other before).symm⟩

/-- What stands on the way to a path of a hunk still stands in a directory when another one that
stands apart was applied. -/
theorem Apart.grounded (hapart : first.Apart second) (hpath : path ∈ first.paths)
    (hgrounded : before.tree.Grounded (Path.names path)) (hturns : second.Turns before after) :
    after.tree.Grounded (Path.names path) := by
  obtain ⟨content, happlies, rfl⟩ := hturns
  intro above name hway hstanding
  have habove : above <+: Path.names path := (List.prefix_append _ _).trans hway
  rw [tree_leave, leaveAt_of_unnamed (hapart.unnamed hpath hway)] at hstanding
  rw [tree_leave, leaveAt_of_unnamed (hapart.unnamed hpath habove)]
  split at hstanding
  · -- the directory was made, so there are directories all the way down to it
    rename_i hmade
    obtain ⟨-, target, htarget, hbelow⟩ := hmade
    have hparent : above <+: (Path.names target).dropLast :=
      Location.prefix_dropLast ((List.prefix_append _ _).trans hbelow)
        (by rintro rfl; exact absurd hbelow.length_le (by simp))
    cases hnode : before.tree above with
    | none => exact if_pos ⟨rfl, target, htarget, hparent.trans (List.dropLast_prefix _)⟩
    | some node =>
      cases node with
      | directory => rfl
      | file old => exact absurd hnode ((happlies.admits htarget).passable above hparent old)
  · rw [hgrounded above name hway hstanding]
    rfl

/-- A directory that is near a path of a hunk stays there when another one that stands apart was
applied. -/
theorem Apart.near (hapart : first.Apart second) (hpath : path ∈ first.paths)
    (hnear : before.tree.Near (Path.names path).dropLast) (hturns : second.Turns before after) :
    after.tree.Near (Path.names path).dropLast := by
  obtain ⟨content, -, rfl⟩ := hturns
  obtain ⟨above, hway, hdirectory, hlength⟩ := hnear
  have hunnamed := hapart.unnamed hpath (hway.trans (List.dropLast_prefix _))
  refine ⟨above, hway, ?_, hlength⟩
  rw [tree_leave, leaveAt_of_unnamed hunnamed, hdirectory]
  rfl

/-- The way to the paths of a hunk is still as it should be when another one that stands apart was
applied. -/
theorem Apart.prepared (hapart : first.Apart second) (hprepared : first.Prepared before.tree)
    (hturns : second.Turns before after) : first.Prepared after.tree :=
  ⟨fun path hpath => hapart.grounded hpath (hprepared.grounded path hpath) hturns,
    fun path hpath =>
      hapart.near (mem_paths_of_mem_makes hpath) (hprepared.near path hpath) hturns⟩

end Finding

end Hunk

/-! ## Hunks one after another -/

/-- The hunks can be applied one after another to the first scene, and leave the last one. -/
inductive Runs : Scene → List Hunk → Scene → Prop
  | nil (scene : Scene) : Runs scene [] scene
  | cons {before middle after : Scene} {hunk : Hunk} {hunks : List Hunk}
      (hturns : hunk.Turns before middle) (hrest : Runs middle hunks after) :
      Runs before (hunk :: hunks) after

variable {before after other : Scene} {hunks permuted : List Hunk}

theorem Runs.unique (hruns : Runs before hunks after) (hother : Runs before hunks other) :
    after = other := by
  induction hruns with
  | nil =>
    cases hother
    rfl
  | cons hturns _ ih =>
    cases hother with
    | cons hturns' hrest' =>
      obtain rfl := hturns.unique hturns'
      exact ih hrest'

/-- Hunks that stand apart lead to the same scene in every order. -/
theorem Runs.perm (hperm : hunks.Perm permuted) (hapart : hunks.Pairwise Hunk.Apart)
    (hruns : Runs before hunks after) : Runs before permuted after := by
  induction hperm generalizing before with
  | nil => exact hruns
  | cons hunk _ ih =>
    cases hruns with
    | cons hturns hrest => exact .cons hturns (ih (List.pairwise_cons.mp hapart).2 hrest)
  | swap second first hunks =>
    cases hruns with
    | cons hfirst hrest =>
      cases hrest with
      | cons hsecond hrest =>
        have hpair := (List.pairwise_cons.mp hapart).1 _ List.mem_cons_self
        obtain ⟨between, hsecond, hfirst⟩ := hpair.exchange hfirst hsecond
        exact .cons hsecond (.cons hfirst hrest)
  | trans hperm _ ih ih' =>
    exact ih' ((hperm.pairwise_iff Hunk.Apart.symm).mp hapart) (ih hapart hruns)

end Patchwork
