import Mathlib.Data.List.Pairwise
import Patchwork.Proofs.Apply.Effect
import Patchwork.Proofs.Apply.Ledger

/-!
# Hunks in another order

Hunks that stand apart lead to the same files and directories in every order, although some of them
may make directories that others need.  Main statement: `Patch.apply_perm`.

The log tells the order, and it is left out.  The system makes a thousand directories at once, so
one hunk may have to come first where another one has to make more.
-/

namespace Patchwork

namespace Patch

/-- The hunks run from one scene to another, and the workspace displays the last one; or they cannot
be applied one after another. -/
def Follows (hunks : List Hunk) (scene : Scene) (before : Workspace)
    (outcome : Report × Workspace) : Prop :=
  outcome.1.error = none ∧ outcome.2.touched [] = before.touched [] ∧
      (∃ last, Runs scene hunks last ∧ outcome.2.Displays last) ∨
    outcome.1.error ≠ none ∧ ∀ last, ¬ Runs scene hunks last

section Runs

variable {report : Report} {hunk : Hunk} {hunks : List Hunk} {before : Workspace} {scene : Scene}

/-- The first hunk turns the scene into another one, in which the rest is applied, or it ends the
application since it cannot be applied. -/
theorem applyHunks_step (context : Int) (report : Report) (hunks : List Hunk)
    (hsound : hunk.Sound) (hdisplays : before.Displays scene)
    (hoff : ∀ path ∈ hunk.paths, before.Unlogged path) (hprepared : hunk.Prepared scene.tree) :
    (∃ next change after, hunk.Turns scene next ∧ after.Displays next ∧
        after.touched [] = before.touched [] ∧
        applyHunks context report before (hunk :: hunks) =
          applyHunks context (report.record change) after hunks) ∨
      (applyHunks context report before (hunk :: hunks)).1.error ≠ none ∧
        ∀ next, ¬ hunk.Turns scene next := by
  have hfirst := (hunk.apply_confined context before).and
    (hunk.apply_enacts context hsound hdisplays hoff hprepared)
  rw [Step.Ensures] at hfirst
  rw [applyHunks]
  rcases hran : (hunk.apply context).run before with ⟨failure | change, after⟩
  · rw [hran] at hfirst
    refine .inr ⟨Option.some_ne_none failure, fun next hturns => ?_⟩
    obtain ⟨content, happlies, -⟩ := hturns
    exact hfirst.2 content happlies
  · rw [hran] at hfirst
    obtain ⟨hspares, next, hturns, hshown⟩ := hfirst
    have hlogs := after.onlyLogs_log .success change.doneMessage
    exact .inl ⟨next, change, _, hturns, hshown.of_onlyLogs hlogs,
      hlogs.touched_eq.trans (hspares.touched_eq []), rfl⟩

/-- Hunks that stand apart do to a workspace what they do to the scene that it displays. -/
theorem applyHunks_follows (context : Int) (herror : report.error = none)
    (hsound : ∀ hunk ∈ hunks, hunk.Sound) (hdisplays : before.Displays scene)
    (hoff : ∀ hunk ∈ hunks, ∀ path ∈ hunk.paths, before.Unlogged path)
    (hprepared : ∀ hunk ∈ hunks, hunk.Prepared scene.tree)
    (hapart : hunks.Pairwise Hunk.Apart) :
    Follows hunks scene before (applyHunks context report before hunks) := by
  induction hunks generalizing before scene report with
  | nil => exact .inl ⟨herror, rfl, scene, .nil scene, hdisplays⟩
  | cons hunk hunks ih =>
    rw [List.forall_mem_cons] at hsound hoff hprepared
    rw [List.pairwise_cons] at hapart
    rcases applyHunks_step context report hunks hsound.1 hdisplays hoff.1 hprepared.1 with
      ⟨next, change, after, hturns, hshown, htouched, happlied⟩ | ⟨hfailed, hnone⟩
    · have hoffRest : ∀ other ∈ hunks, ∀ path ∈ other.paths, after.Unlogged path :=
        fun other hother path hpath location hway =>
          htouched ▸ hoff.2 other hother path hpath location hway
      have hpreparedRest : ∀ other ∈ hunks, other.Prepared next.tree :=
        fun other hother =>
          (hapart.1 other hother).symm.prepared (hprepared.2 other hother) hturns
      rw [happlied]
      rcases ih ((report.error_record change).trans herror) hsound.2 hshown hoffRest hpreparedRest
        hapart.2 with ⟨hdone, hkept, last, hruns, hlast⟩ | ⟨hfailed, hnone⟩
      · exact .inl ⟨hdone, hkept.trans htouched, last, .cons hturns hruns, hlast⟩
      · refine .inr ⟨hfailed, fun last hruns => ?_⟩
        cases hruns with
        | cons hturns' hruns =>
          obtain rfl := hturns.unique hturns'
          exact hnone last hruns
    · refine .inr ⟨hfailed, fun last hruns => ?_⟩
      cases hruns with
      | cons hturns => exact hnone _ hturns

end Runs

theorem sound_of_resolve {root : Bytes} {source patch : Patch} (hpatch : patch = resolve root source)
    (hroot : Path.isAbsolute root = true)
    (hzero : ∀ hunk ∈ patch, ∀ path ∈ hunk.paths, 0 ∉ path) : ∀ hunk ∈ patch, hunk.Sound := by
  intro hunk hhunk path hpath
  refine ⟨?_, hzero hunk hhunk path hpath⟩
  rw [hpatch] at hhunk
  obtain ⟨spelled, rfl⟩ := exists_resolve_of_mem_paths hhunk hpath
  exact Path.resolved_resolve hroot spelled

/-- Hunks that stand apart can be applied in any order if they can be applied in one, and then the
files, the directories and the paths that are known as accessed are the same.  What stands stands in
a directory, the log is kept off the ways to the paths, and no hunk makes more directories than the
system makes at once. -/
theorem apply_perm (context : Int) (root : Bytes) (source patch permuted : Patch)
    (before : Workspace) (hperm : patch.Perm permuted) (hpatch : patch = resolve root source)
    (hroot : Path.isAbsolute root = true)
    (hzero : ∀ hunk ∈ patch, ∀ path ∈ hunk.paths, 0 ∉ path)
    (hapart : patch.Pairwise Hunk.Apart)
    (hgrounded : ∀ location, Tree.Grounded before.disk.node? location)
    (hnear : ∀ hunk ∈ patch, ∀ path ∈ hunk.makes,
      Tree.Near before.disk.node? (Path.names path).dropLast)
    (hlog : ∀ hunk ∈ patch, ∀ path ∈ hunk.paths, before.Unlogged path) :
    ((apply context patch before).1.error = none ↔
        (apply context permuted before).1.error = none) ∧
      ((apply context patch before).1.error = none →
        (∀ location, location ∉ before.touched [] →
          (apply context patch before).2.disk.node? location =
            (apply context permuted before).2.disk.node? location) ∧
        ∀ path, path ∈ Table.keys (apply context patch before).2.accessed ↔
          path ∈ Table.keys (apply context permuted before).2.accessed) := by
  have hsound := sound_of_resolve hpatch hroot hzero
  have hprepared : ∀ hunk ∈ patch, hunk.Prepared before.scene.tree :=
    fun hunk hhunk => ⟨fun path _ => hgrounded (Path.names path), hnear hunk hhunk⟩
  by_cases hne : patch = []
  · subst hne
    rw [List.Perm.nil_eq hperm]
    exact ⟨Iff.rfl, fun _ => ⟨fun _ _ => rfl, fun _ => Iff.rfl⟩⟩
  have hother : permuted ≠ [] := fun hnil => hne (List.Perm.eq_nil (hnil ▸ hperm))
  have hfirst : Follows patch before.scene before (apply context patch before) := by
    rw [apply, if_neg hne]
    exact applyHunks_follows context rfl hsound before.displays_scene hlog hprepared hapart
  have hsecond : Follows permuted before.scene before (apply context permuted before) := by
    rw [apply, if_neg hother]
    exact applyHunks_follows context rfl (fun hunk hhunk => hsound hunk (hperm.mem_iff.mpr hhunk))
      before.displays_scene (fun hunk hhunk => hlog hunk (hperm.mem_iff.mpr hhunk))
      (fun hunk hhunk => hprepared hunk (hperm.mem_iff.mpr hhunk))
      ((hperm.pairwise_iff Hunk.Apart.symm).mp hapart)
  rcases hfirst with ⟨hdone, htouched, last, hruns, hshown⟩ | ⟨hfailed, hnone⟩
  · have hreordered := hruns.perm hperm hapart
    rcases hsecond with ⟨hdone', htouched', last', hruns', hshown'⟩ | ⟨-, hnone'⟩
    · obtain rfl := hreordered.unique hruns'
      refine ⟨iff_of_true hdone hdone', fun _ => ⟨fun location hoff => ?_, fun path => ?_⟩⟩
      · rw [hshown.tree location (htouched ▸ hoff), hshown'.tree location (htouched' ▸ hoff)]
      · rw [hshown.accessed, hshown'.accessed]
    · exact absurd hreordered (hnone' last)
  · rcases hsecond with ⟨-, -, last', hruns', -⟩ | ⟨hfailed', -⟩
    · have hreordered := hruns'.perm hperm.symm ((hperm.pairwise_iff Hunk.Apart.symm).mp hapart)
      exact absurd hreordered (hnone last')
    · exact ⟨iff_of_false hfailed hfailed', fun hdone => absurd hdone hfailed⟩

/-- Makes a directory for two files, one of which comes from elsewhere. -/
def sharedDirectory : Patch :=
  [.add (text "d/a") (text "x\n"), rewriteAndMove (text "d/e/g"), .add (text "d/e/h") (text "y\n")]

theorem apply_perm_sharedDirectory :
    (apply 3 (resolve (text "/") sharedDirectory) singleFile).1.error = none ∧
      (apply 3 (resolve (text "/") sharedDirectory).reverse singleFile).1.error = none ∧
      ∀ location,
        (apply 3 (resolve (text "/") sharedDirectory) singleFile).2.disk.node? location =
          (apply 3 (resolve (text "/") sharedDirectory).reverse singleFile).2.disk.node?
            location := by
  have hgrounded : ∀ location, Tree.Grounded singleFile.disk.node? location := by
    intro location above name _ hstanding
    have hfile : above ++ [name] = [text "f"] := by
      by_contra hne
      exact hstanding (by simp [singleFile, Disk.node?, hne])
    have habove := congrArg List.dropLast hfile
    rw [List.dropLast_concat] at habove
    rw [habove]
    rfl
  have hshort : ∀ hunk ∈ resolve (text "/") sharedDirectory, ∀ path ∈ hunk.makes,
      (Path.names path).dropLast.length ≤ ([] : Location).length + Disk.mostMissing := by
    decide
  have hperm := apply_perm 3 (text "/") sharedDirectory _ _ singleFile
    (List.reverse_perm (resolve (text "/") sharedDirectory)).symm rfl rfl (by decide) (by decide)
    hgrounded
    (fun hunk hhunk path hpath => ⟨[], List.nil_prefix, rfl, hshort hunk hhunk path hpath⟩)
    fun _ _ _ _ location _ => Workspace.notMem_touched rfl location
  have hdone : (apply 3 (resolve (text "/") sharedDirectory) singleFile).1.error = none := by
    decide +kernel
  have hkept : ∀ location, location ∉ singleFile.touched [] :=
    Workspace.notMem_touched rfl
  exact ⟨hdone, hperm.1.mp hdone, fun location => (hperm.2 hdone).1 location (hkept location)⟩

/-! ## Where the order matters -/

/-- A patch is not applied if it first adds a file below more missing directories than the system
makes at once. -/
theorem apply_tooMany (context : Int) (path contents : Bytes) (hunks : List Hunk)
    {before : Workspace} {base : Location} {names : List Bytes} (hpath : Path.Resolved path)
    (hzero : 0 ∉ path) (hfits : Disk.Fits path) (hlog : before.settings.file = [])
    (hsplit : (Path.names path).dropLast = base ++ names)
    (hopen : Tree.Open before.disk.node? base)
    (hmissing : Tree.Missing before.disk.node? base names)
    (hmany : Disk.mostMissing < names.length) :
    (apply context (.add path contents :: hunks) before).1.error =
      some (.file .makeParents path .nameTooLong) := by
  have hmade := Disk.createDirectories_tooMany hpath hzero hfits hsplit hopen hmissing hmany
  have hadded : (Hunk.applyAdd path contents).Ensures before (fun _ _ => False)
      fun failure _ => failure = .file .makeParents path .nameTooLong := by
    refine Step.ensures_logged _ _ fun middle hlogs => ?_
    rw [← hlogs.unlogged hlog] at hmade
    refine Step.ensures_bind (Step.ensures_get ?_)
    rw [hmade]
    exact Step.ensures_bind rfl
  rw [Step.Ensures] at hadded
  rw [apply, if_neg (List.cons_ne_nil _ _), applyHunks, Hunk.apply]
  rcases hran : (Hunk.applyAdd path contents).run before with ⟨failure | change, after⟩
  · rw [hran] at hadded
    exact congrArg some hadded
  · rw [hran] at hadded
    exact hadded.elim

theorem sound_add {path contents : Bytes} (hpath : Path.Resolved path) (hzero : 0 ∉ path) :
    (Hunk.add path contents).Sound := by
  intro other hother
  rw [List.mem_singleton.mp hother]
  exact ⟨hpath, hzero⟩

theorem prepared_add {tree : Tree} {path contents : Bytes}
    (hgrounded : tree.Grounded (Path.names path)) (hnear : tree.Near (Path.names path).dropLast) :
    (Hunk.add path contents).Prepared tree := by
  refine ⟨fun other hother => ?_, fun other hother => ?_⟩
  · rwa [List.mem_singleton.mp hother]
  · rwa [List.mem_singleton.mp hother]

/-- Two hunks that stand apart can be applied if each can, and the way to the second one is as it
should be when the first one was applied. -/
theorem apply_both (context : Int) {first second : Hunk} {before : Workspace}
    {content other : Bytes} (hapart : first.Apart second) (hfirst : first.Sound)
    (hsecond : second.Sound) (hlog : before.settings.file = [])
    (happlies : first.Applies before.scene.tree content)
    (happlies' : second.Applies before.scene.tree other)
    (hprepared : first.Prepared before.scene.tree)
    (hprepared' : second.Prepared (first.leave content before.scene).tree) :
    (apply context [first, second] before).1.error = none := by
  have hoff := Workspace.notMem_touched hlog
  rw [apply, if_neg (List.cons_ne_nil _ _)]
  rcases applyHunks_step context {} [second] hfirst before.displays_scene
    (fun _ _ location _ => hoff location) hprepared with
    ⟨next, change, after, hturns, hshown, htouched, happlied⟩ | ⟨-, hnone⟩
  · obtain rfl := hturns.unique ⟨content, happlies, rfl⟩
    rw [happlied]
    rcases applyHunks_step context _ [] hsecond hshown
      (fun _ _ location _ => htouched ▸ hoff location) hprepared' with
      ⟨_, change', _, _, _, _, happlied'⟩ | ⟨-, hnone⟩
    · rw [happlied', applyHunks, Report.error_record, Report.error_record]
    · exact absurd ⟨other, hapart.symm.applies_iff.mpr happlies', rfl⟩ (hnone _)
  · exact absurd ⟨content, happlies, rfl⟩ (hnone _)

/-- A workspace without a file. -/
def emptyWorkspace : Workspace :=
  { disk := ⟨[], []⟩ }

/-- One directory more than the system makes at once, each in the one before, and a file. -/
def deepNames : Location :=
  List.replicate (Disk.mostMissing + 1) (text "a") ++ [text "f"]

/-- Adds a file far down, and one near the top. -/
def deepFirst : Patch :=
  [.add (Disk.pathTo deepNames) (text "x\n"), .add (text "/a/g") (text "y\n")]

theorem plain_deepNames : ∀ name ∈ deepNames, Path.Plain name := by
  intro name hname
  rcases List.mem_append.mp hname with hname | hname
  · rw [List.eq_of_mem_replicate hname]
    exact ⟨by decide, by decide, by decide, by decide⟩
  · rw [List.mem_singleton.mp hname]
    exact ⟨by decide, by decide, by decide, by decide⟩

theorem emptyWorkspace_missing {location : Location} (hne : location ≠ []) :
    emptyWorkspace.scene.tree location = none :=
  if_neg hne

theorem emptyWorkspace_grounded (location : Location) :
    Tree.Grounded emptyWorkspace.scene.tree location := by
  intro above name _ hstanding
  exact absurd (emptyWorkspace_missing (by simp)) hstanding

theorem emptyWorkspace_admits {path : Bytes} (hfits : Disk.Fits path)
    (hne : Path.names path ≠ []) : emptyWorkspace.scene.tree.Admits path := by
  refine ⟨hfits, by simp [emptyWorkspace_missing hne], fun above _ old => ?_⟩
  by_cases htop : above = []
  · subst htop
    rintro ⟨⟩
  · simp [emptyWorkspace_missing htop]

theorem names_deepPath : Path.names (Disk.pathTo deepNames) = deepNames :=
  Path.names_cons_joinNames plain_deepNames

theorem fits_deepPath : Disk.Fits (Disk.pathTo deepNames) := by
  have hshort : ∀ name ∈ deepNames, name.length ≤ Disk.longestName := by decide +kernel
  refine ⟨by decide +kernel, fun name hname => hshort name ?_⟩
  rwa [names_deepPath] at hname

theorem zero_notMem_deepPath : 0 ∉ Disk.pathTo deepNames := by
  decide +kernel

theorem dropLast_names_deepPath :
    (Path.names (Disk.pathTo deepNames)).dropLast =
      [] ++ List.replicate (Disk.mostMissing + 1) (text "a") := by
  rw [names_deepPath, deepNames, List.dropLast_concat, List.nil_append]

theorem deepFirst_apart : deepFirst.Pairwise Hunk.Apart := by
  decide +kernel

theorem resolved_deepPath : Path.Resolved (Disk.pathTo deepNames) :=
  Path.resolved_cons_joinNames plain_deepNames

/-- The file far down comes first, and its directories are too many. -/
theorem error_deepFirst :
    (apply 3 deepFirst emptyWorkspace).1.error =
      some (.file .makeParents (Disk.pathTo deepNames) .nameTooLong) := by
  have hmany : Disk.mostMissing < (List.replicate (Disk.mostMissing + 1) (text "a")).length := by
    rw [List.length_replicate]
    exact Nat.lt_succ_self _
  have hopen : Tree.Open emptyWorkspace.disk.node? [] := by
    intro above habove
    rw [List.prefix_nil.mp habove]
    rfl
  have hmissing : Tree.Missing emptyWorkspace.disk.node? []
      (List.replicate (Disk.mostMissing + 1) (text "a")) :=
    fun below hne _ => emptyWorkspace_missing hne
  rw [deepFirst]
  exact apply_tooMany 3 (Disk.pathTo deepNames) (text "x\n") _ resolved_deepPath
    zero_notMem_deepPath fits_deepPath rfl dropLast_names_deepPath hopen hmissing hmany

/-- When the file near the top comes first, it leaves few enough directories to make. -/
theorem error_reverse_deepFirst : (apply 3 deepFirst.reverse emptyWorkspace).1.error = none := by
  have hreverse : deepFirst.reverse = [.add (text "/a/g") (text "y\n"),
      .add (Disk.pathTo deepNames) (text "x\n")] := rfl
  have hpair := deepFirst_apart
  rw [deepFirst, List.pairwise_pair] at hpair
  have hplain : ∀ name ∈ [text "a", text "g"], Path.Plain name := by
    intro name hname
    rcases List.mem_pair.mp hname with rfl | rfl <;>
      exact ⟨by decide, by decide, by decide, by decide⟩
  have hshallow : Path.Resolved (text "/a/g") := Path.resolved_cons_joinNames hplain
  have hfits : Disk.Fits (text "/a/g") := ⟨by decide, by decide⟩
  have happlies : (Hunk.add (text "/a/g") (text "y\n")).Applies emptyWorkspace.scene.tree
      (text "y\n") := .add (emptyWorkspace_admits hfits (by decide))
  have happlies' : (Hunk.add (Disk.pathTo deepNames) (text "x\n")).Applies
      emptyWorkspace.scene.tree (text "x\n") :=
    .add (emptyWorkspace_admits fits_deepPath (by rw [names_deepPath]; simp [deepNames]))
  have hgrounded := hpair.grounded List.mem_cons_self (emptyWorkspace_grounded _)
    ⟨_, happlies, rfl⟩
  have hnear : Tree.Near
      ((Hunk.add (text "/a/g") (text "y\n")).leave (text "y\n") emptyWorkspace.scene).tree
      (Path.names (Disk.pathTo deepNames)).dropLast := by
    rw [dropLast_names_deepPath]
    refine ⟨[text "a"], ⟨List.replicate Disk.mostMissing (text "a"), rfl⟩, by decide, ?_⟩
    simp [Nat.add_comm]
  rw [hreverse]
  exact apply_both 3 hpair.symm (sound_add hshallow (by decide))
    (sound_add resolved_deepPath zero_notMem_deepPath) rfl happlies happlies'
    (prepared_add (emptyWorkspace_grounded _) ⟨[], List.nil_prefix, rfl, by decide⟩)
    (prepared_add hgrounded hnear)

/-- Rewrites a file and deletes it, under two spellings of its path below a root of two
separators. -/
def rewriteAndDelete : Patch :=
  [.update (text "f") none [⟨none, [text "a"], [text "b"], false⟩], .delete (text "/f")]

/-- A workspace without a file that keeps its log in one. -/
def loggedTo (file : Bytes) : Workspace :=
  { disk := ⟨[], []⟩, settings := { file } }

/-- Adds two files. -/
def twoFiles : Patch :=
  [.add (text "/f") (text "x\n"), .add (text "/g") (text "y\n")]

/-- Adds a file, and takes the entry for that out of the log. -/
def eraseEntry : Patch :=
  [.add (text "/f") (text "x\n"),
    .update (text "/log") none [⟨none, [text "[1970-01-01 00:00:00] [OK] A /f"], [], false⟩]]

/-- Adds a file below the place where the log is to be, and one beside that. -/
def belowLog : Patch :=
  [.add (text "/d/log/f") (text "x\n"), .add (text "/d/g") (text "y\n")]

/-- The order matters where one hunk leaves few enough directories for another one to make, where a
file has two spellings, and for the log: it has its entries in the order of the hunks, one of which
may look for what another one has left there, and it is in the way of a directory as soon as it can
be written. -/
theorem apply_reverse_ne :
    (resolve (text "/") deepFirst = deepFirst ∧ deepFirst.Pairwise Hunk.Apart ∧
        (apply 3 deepFirst emptyWorkspace).1.error =
          some (.file .makeParents (Disk.pathTo deepNames) .nameTooLong) ∧
        (apply 3 deepFirst.reverse emptyWorkspace).1.error = none) ∧
      ((resolve (text "//") rewriteAndDelete).flatMap Hunk.paths = [text "//f", text "/f"] ∧
        (apply 3 (resolve (text "//") rewriteAndDelete) singleFile).1.error = none ∧
        (apply 3 (resolve (text "//") rewriteAndDelete).reverse singleFile).1.error =
          some (.file .readForUpdate (text "//f") .noSuchFile)) ∧
      ((∀ patch ∈ [twoFiles, eraseEntry, belowLog], patch.Pairwise Hunk.Apart) ∧
        ((apply 3 twoFiles (loggedTo (text "/log"))).1.error = none ∧
          (apply 3 twoFiles (loggedTo (text "/log"))).2.disk.node? [text "log"] ≠
            (apply 3 twoFiles.reverse (loggedTo (text "/log"))).2.disk.node? [text "log"]) ∧
        ((apply 3 eraseEntry (loggedTo (text "/log"))).1.error = none ∧
          (apply 3 eraseEntry.reverse (loggedTo (text "/log"))).1.error ≠ none) ∧
        (apply 3 belowLog (loggedTo (text "/d/log"))).1.error = none ∧
          (apply 3 belowLog.reverse (loggedTo (text "/d/log"))).1.error =
            some (.file .makeParents (text "/d/log/f") .notDirectory)) := by
  refine ⟨⟨by decide +kernel, deepFirst_apart, error_deepFirst, error_reverse_deepFirst⟩, ?_⟩
  decide +kernel

end Patch

end Patchwork
