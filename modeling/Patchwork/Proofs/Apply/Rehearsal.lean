import Mathlib.Data.List.Dedup
import Mathlib.Data.List.Nodup
import Patchwork.Proofs.Apply.Confined
import Patchwork.Proofs.Apply.Ledger

/-!
# Rehearsals

A rehearsal tries every hunk on the files as they are, while an application lets each hunk see
what the ones before it did.  A hunk that reads no file which an earlier one touches finds that
file as the rehearsal found it, so both place its chunks or fail in the same way, and only writing
and removing can still fail.  Main statement: `Patch.apply_of_rehearse`, for patches that name
every path once.

Paths that differ may still lead to one file, below a root of several separators: there a patch
that names every path once can delete a file twice.
-/

namespace Patchwork

namespace Hunk

/-- The file that the hunk reads stands at no location that the tried hunks, or the log, touch. -/
def Clear (start : Workspace) (tried : List Hunk) (hunk : Hunk) : Prop :=
  ∀ path ∈ hunk.source?, start.disk.goal path ∉ start.touched (tried.flatMap paths)

section Clearance

variable {start before : Workspace} {tried : List Hunk} {hunk : Hunk}

theorem Clear.off_log (hclear : hunk.Clear start tried) : hunk.Clear start [] := by
  intro path hpath hmem
  refine hclear path hpath (Set.union_subset_union_left _ ?_ hmem)
  rintro location ⟨other, hother, -⟩
  cases hother

variable (hcheck : hunk.check start.disk = .ok ()) (hclear : hunk.Clear start tried)
  (hspares : start.Spares (tried.flatMap paths) before)

include hcheck hclear hspares

/-- Hunks that are clear of the ones before them find their file as it was at the start. -/
theorem Clear.check_eq : hunk.check before.disk = .ok () := by
  rw [check_eq_ok_iff] at hcheck ⊢
  intro path hpath
  obtain ⟨content, hstatus⟩ := hcheck path hpath
  exact ⟨content, hspares.status hstatus (hclear path hpath)⟩

omit hcheck in
theorem Clear.log_eq : hunk.Clear before [] := by
  intro path hpath
  rw [hspares.touched_eq, Disk.goal_of_current hspares.keeps.current]
  exact hclear.off_log path hpath

theorem Clear.obstacle?_eq : hunk.obstacle? before.disk = hunk.obstacle? start.disk := by
  cases hunk with
  | add | delete => rfl
  | update path destination chunks =>
    obtain ⟨content, hstatus⟩ := check_eq_ok_iff.mp hcheck path rfl
    rw [obstacle?, obstacle?, hspares.status hstatus (hclear path rfl), hstatus]

end Clearance

section Later

variable {start before : Workspace} {tried : List Hunk} {hunk : Hunk}
  (hcheck : hunk.check start.disk = .ok ()) (hspares : start.Spares (tried.flatMap paths) before)

include hcheck hspares

/-- A hunk that is applied behind others. -/
theorem apply_later (context : Int) :
    (hunk.apply context).Ensures before
      (fun _ after => start.Spares ((tried ++ [hunk]).flatMap paths) after ∧
        (hunk.Clear start tried → hunk.obstacle? start.disk = none))
      fun failure _ => hunk.Clear start tried →
        hunk.obstacle? start.disk = some failure ∨
          hunk.obstacle? start.disk = none ∧ failure.IsWriteAt hunk.paths := by
  have hconfined := apply_confined context hunk before
  have hafter : ∀ after, before.Spares hunk.paths after →
      start.Spares ((tried ++ [hunk]).flatMap paths) after := by
    intro after hown
    rw [List.flatMap_append, List.flatMap_singleton]
    exact (hspares.mono (List.subset_append_left _ _)).trans
      (hown.mono (List.subset_append_right _ _))
  have houtcome : hunk.Clear start tried → (hunk.apply context).Ensures before
      (fun _ _ => hunk.obstacle? start.disk = none)
      fun failure _ => hunk.obstacle? start.disk = some failure ∨
        hunk.obstacle? start.disk = none ∧ failure.IsWriteAt hunk.paths := by
    intro hclear
    rw [← hclear.obstacle?_eq hcheck hspares]
    exact apply_outcome (hclear.check_eq hcheck hspares) (hclear.log_eq hspares) context
  exact (hconfined.and (Step.ensures_imp houtcome)).imp
    (fun _ after hdone => ⟨hafter after hdone.1, hdone.2⟩) fun _ _ hfailed => hfailed.2

/-- A hunk that is tried behind others. -/
theorem rehearse_later :
    hunk.rehearse.Ensures before
      (fun _ after => start.Spares (tried.flatMap paths) after ∧
        (hunk.Clear start tried → hunk.obstacle? start.disk = none))
      fun failure _ => hunk.Clear start tried → hunk.obstacle? start.disk = some failure := by
  have hconfined := rehearse_confined hunk before
  have hafter : ∀ after, before.Spares [] after → start.Spares (tried.flatMap paths) after :=
    fun after hown => hspares.trans (hown.mono (List.nil_subset _))
  have houtcome : hunk.Clear start tried → hunk.rehearse.Ensures before
      (fun _ _ => hunk.obstacle? start.disk = none)
      fun failure _ => hunk.obstacle? start.disk = some failure := by
    intro hclear
    rw [← hclear.obstacle?_eq hcheck hspares]
    exact rehearse_outcome (hclear.check_eq hcheck hspares)
  exact (hconfined.and (Step.ensures_imp houtcome)).imp
    (fun _ after hdone => ⟨hafter after hdone.1, hdone.2⟩) fun _ _ hfailed => hfailed.2

end Later

end Hunk

namespace Patch

theorem check_eq_ok_iff {disk : Disk} {patch : Patch} :
    check disk patch = .ok () ↔ ∀ hunk ∈ patch, hunk.check disk = .ok () := by
  induction patch with
  | nil => simp [check]
  | cons hunk hunks ih =>
    rw [check, List.forall_mem_cons]
    split
    · rename_i failure hfailed
      simp [hfailed]
    · rename_i hchecked
      simp [hchecked, ih]

/-- The application of the hunks ended at one of them, since something could not be written or
removed. -/
def StopsWriting (hunks : List Hunk) (report : Report) : Prop :=
  ∃ earlier hunk later failure, hunks = earlier ++ hunk :: later ∧
    report.changes.length = earlier.length ∧ report.error = some failure ∧
    failure.IsWriteAt hunk.paths

section Runs

variable {start before : Workspace} {tried hunks : List Hunk} {patch earlier later : Patch}
  {hunk : Hunk} {failure : Failure}

/-- The hunks are tried in order, and the first one that has something in its way ends that. -/
theorem forM_rehearse_ensures (hcheck : ∀ hunk ∈ hunks, hunk.check start.disk = .ok ())
    (hspares : start.Spares [] before) :
    (hunks.forM Hunk.rehearse).Ensures before
      (fun _ _ => ∀ hunk ∈ hunks, hunk.Clear start [] → hunk.obstacle? start.disk = none)
      fun failure _ => ∃ earlier hunk later, hunks = earlier ++ hunk :: later ∧
        (∀ other ∈ earlier, other.Clear start [] → other.obstacle? start.disk = none) ∧
        (hunk.Clear start [] → hunk.obstacle? start.disk = some failure) := by
  induction hunks generalizing before with
  | nil => exact Step.ensures_pure (List.forall_mem_nil _)
  | cons hunk hunks ih =>
    rw [List.forall_mem_cons] at hcheck
    have hnone : start.Spares (([] : List Hunk).flatMap Hunk.paths) before := hspares
    have hfirst := Hunk.rehearse_later hcheck.1 hnone
    refine Step.ensures_bind (hfirst.imp (fun _ middle hdone => ?_) fun failure _ hfailed => ?_)
    · refine (ih hcheck.2 hdone.1).imp (fun _ _ hrest => ?_) fun failure _ hrest => ?_
      · exact List.forall_mem_cons.mpr ⟨hdone.2, hrest⟩
      · obtain ⟨earlier, other, later, rfl, hclears, hother⟩ := hrest
        exact ⟨hunk :: earlier, other, later, rfl, List.forall_mem_cons.mpr ⟨hdone.2, hclears⟩,
          hother⟩
    · exact ⟨[], hunk, hunks, rfl, List.forall_mem_nil _, hfailed⟩

/-- Hunks are applied in order up to one that fails.  Those that are clear of the ones before them
have nothing in their way, and such a hunk fails only because of what is in its way or because
something cannot be written. -/
theorem applyHunks_trial (context : Int) (report : Report)
    (hcheck : ∀ hunk ∈ hunks, hunk.check start.disk = .ok ())
    (hspares : start.Spares (tried.flatMap Hunk.paths) before) (herror : report.error = none) :
    ∃ completed rest, hunks = completed ++ rest ∧
      (applyHunks context report before hunks).1.changes.length =
        report.changes.length + completed.length ∧
      (∀ earlier hunk later, completed = earlier ++ hunk :: later →
        hunk.Clear start (tried ++ earlier) → hunk.obstacle? start.disk = none) ∧
      (rest = [] ∧ (applyHunks context report before hunks).1.error = none ∨
        ∃ hunk later failure, rest = hunk :: later ∧
          (applyHunks context report before hunks).1.error = some failure ∧
          (hunk.Clear start (tried ++ completed) →
            hunk.obstacle? start.disk = some failure ∨
              hunk.obstacle? start.disk = none ∧ failure.IsWriteAt hunk.paths)) := by
  induction hunks generalizing tried before report with
  | nil => exact ⟨[], [], rfl, rfl, by simp, .inl ⟨rfl, herror⟩⟩
  | cons hunk hunks ih =>
    rw [List.forall_mem_cons] at hcheck
    have hfirst := Hunk.apply_later hcheck.1 hspares context
    rw [Step.Ensures] at hfirst
    rw [applyHunks]
    rcases hran : (hunk.apply context).run before with ⟨failure | change, after⟩
    · rw [hran] at hfirst
      refine ⟨[], hunk :: hunks, rfl, rfl, by simp, .inr ⟨hunk, hunks, failure, rfl, rfl, ?_⟩⟩
      rwa [List.append_nil]
    · rw [hran] at hfirst
      have hlogged : start.Spares ((tried ++ [hunk]).flatMap Hunk.paths)
          (after.log .success change.doneMessage) :=
        hfirst.1.trans ((after.spares_log _ _).mono (List.nil_subset _))
      obtain ⟨completed, rest, rfl, hlength, hclears, hends⟩ :=
        ih (report.record change) hcheck.2 hlogged ((report.error_record change).trans herror)
      refine ⟨hunk :: completed, rest, rfl, ?_, ?_, ?_⟩
      · simp only [hlength, Report.changes_record, List.length_append, List.length_cons,
          List.length_nil]
        omega
      · intro earlier other later hsplit hclear
        cases earlier with
        | nil =>
          obtain ⟨rfl, rfl⟩ := List.cons.inj hsplit
          rw [List.append_nil] at hclear
          exact hfirst.2 hclear
        | cons first earlier =>
          obtain ⟨rfl, rfl⟩ := List.cons.inj hsplit
          rw [List.append_cons] at hclear
          exact hclears earlier other later rfl hclear
      · rw [List.append_cons]
        exact hends

/-- A rehearsal ends well if every file is there and no hunk has anything in its way. -/
theorem rehearse_ensures (patch : Patch) (start : Workspace) :
    patch.rehearse.Ensures start
      (fun _ _ => check start.disk patch = .ok () ∧
        ∀ hunk ∈ patch, hunk.Clear start [] → hunk.obstacle? start.disk = none)
      fun failure _ => check start.disk patch = .ok () →
        ∃ earlier hunk later, patch = earlier ++ hunk :: later ∧
          (∀ other ∈ earlier, other.Clear start [] → other.obstacle? start.disk = none) ∧
          (hunk.Clear start [] → hunk.obstacle? start.disk = some failure) := by
  refine Step.ensures_get ?_
  cases hchecked : check start.disk patch with
  | error failure => exact Step.ensures_throw nofun
  | ok passed =>
    have hhunks := forM_rehearse_ensures (check_eq_ok_iff.mp hchecked) (.refl [] start)
    exact hhunks.imp (fun _ _ hnone => ⟨rfl, hnone⟩) fun _ _ hfound _ => hfound

/-- A patch whose files are there is applied up to a hunk that fails. -/
theorem apply_trial (context : Int) (hne : patch ≠ [])
    (hcheck : check start.disk patch = .ok ()) :
    ∃ completed rest, patch = completed ++ rest ∧
      (apply context patch start).1.changes.length = completed.length ∧
      (∀ earlier hunk later, completed = earlier ++ hunk :: later →
        hunk.Clear start earlier → hunk.obstacle? start.disk = none) ∧
      (rest = [] ∧ (apply context patch start).1.error = none ∨
        ∃ hunk later failure, rest = hunk :: later ∧
          (apply context patch start).1.error = some failure ∧
          (hunk.Clear start completed →
            hunk.obstacle? start.disk = some failure ∨
              hunk.obstacle? start.disk = none ∧ failure.IsWriteAt hunk.paths)) := by
  have hstart : start.Spares (([] : List Hunk).flatMap Hunk.paths) start := .refl [] start
  obtain ⟨completed, rest, hsplit, hlength, hclears, hends⟩ :=
    applyHunks_trial context {} (check_eq_ok_iff.mp hcheck) hstart rfl
  rw [apply, if_neg hne]
  refine ⟨completed, rest, hsplit, ?_, hclears, hends⟩
  rw [hlength, List.length_nil, Nat.zero_add]

variable (hne : patch ≠ []) (hcheck : check start.disk patch = .ok ())
  (hclear : ∀ earlier hunk later, patch = earlier ++ hunk :: later → hunk.Clear start earlier)

include hne hcheck hclear

/-- Hunks that are clear of each other, with nothing in their way, can only fail at writing. -/
theorem apply_of_unobstructed (context : Int)
    (hnone : ∀ hunk ∈ patch, hunk.obstacle? start.disk = none) :
    (apply context patch start).1.error = none ∨
      StopsWriting patch (apply context patch start).1 := by
  obtain ⟨completed, rest, hsplit, hlength, -, hends⟩ := apply_trial context hne hcheck
  rcases hends with ⟨-, herror⟩ | ⟨hunk, later, failure, rfl, herror, hfailed⟩
  · exact .inl herror
  · have hhunk : hunk ∈ patch := hsplit ▸ List.mem_append_right _ List.mem_cons_self
    have hwrite := (hfailed (hclear completed hunk later hsplit)).resolve_left
      (by rw [hnone hunk hhunk]; exact nofun)
    exact .inr ⟨completed, hunk, later, failure, hsplit, hlength, herror, hwrite.2⟩

/-- Hunks that are clear of each other end at the first one that has something in its way, or
before it at writing. -/
theorem apply_of_obstructed (context : Int) (hpatch : patch = earlier ++ hunk :: later)
    (hnone : ∀ other ∈ earlier, other.obstacle? start.disk = none)
    (hobstacle : hunk.obstacle? start.disk = some failure) :
    (apply context patch start).1.changes.length = earlier.length ∧
        (apply context patch start).1.error = some failure ∨
      StopsWriting earlier (apply context patch start).1 := by
  obtain ⟨completed, rest, hsplit, hlength, hcompleted, hends⟩ := apply_trial context hne hcheck
  have hsame : completed ++ rest = earlier ++ hunk :: later := hsplit ▸ hpatch
  have hbefore : ∃ between, earlier = completed ++ between ∧ rest = between ++ hunk :: later := by
    rcases List.append_eq_append_iff.mp hsame with hbetween | ⟨beyond, hbeyond, hrest⟩
    · exact hbetween
    · cases beyond with
      | nil => exact ⟨[], by rw [hbeyond, List.append_nil, List.append_nil], hrest.symm⟩
      | cons first beyond =>
        -- the hunk with something in its way cannot have been completed
        obtain ⟨rfl, -⟩ := List.cons.inj hrest
        have hfree := hcompleted earlier hunk beyond hbeyond (hclear earlier hunk later hpatch)
        rw [hobstacle] at hfree
        cases hfree
  obtain ⟨between, rfl, rfl⟩ := hbefore
  rcases hends with ⟨hnil, -⟩ | ⟨stopped, skipped, problem, hrest, herror, hfailed⟩
  · exact absurd hnil (List.append_ne_nil_of_right_ne_nil _ (List.cons_ne_nil _ _))
  · have hfailed := hfailed (hclear completed stopped skipped (hsplit.trans (by rw [hrest])))
    cases between with
    | nil =>
      obtain ⟨rfl, rfl⟩ := List.cons.inj hrest
      rw [hobstacle] at hfailed
      rcases hfailed with heq | ⟨heq, -⟩
      · obtain rfl := Option.some.inj heq
        exact .inl ⟨by rw [hlength, List.append_nil], herror⟩
      · cases heq
    | cons first between =>
      obtain ⟨rfl, rfl⟩ := List.cons.inj hrest
      have hfree := hnone first (List.mem_append_right _ List.mem_cons_self)
      have hwrite := hfailed.resolve_left (by rw [hfree]; exact nofun)
      exact .inr ⟨completed, first, between, problem, rfl, hlength, herror, hwrite.2⟩

end Runs

section Distinct

variable {root : Bytes} {source patch earlier later : Patch} {hunk : Hunk} {before : Workspace}
  (hpatch : patch = resolve root source) (hroot : Path.isAbsolute root = true)
  (hzero : ∀ hunk ∈ patch, ∀ path ∈ hunk.paths, 0 ∉ path)
  (hdistinct : (patch.flatMap fun hunk => hunk.paths.dedup).Nodup)

include hdistinct in
/-- In a patch that names every path once, no path of a hunk is one of the hunks before it. -/
theorem ne_of_mem_paths {path other : Bytes} (hsplit : patch = earlier ++ hunk :: later)
    (hpath : path ∈ hunk.paths) (hother : other ∈ earlier.flatMap Hunk.paths) : other ≠ path := by
  rintro rfl
  obtain ⟨before, hbefore, hother⟩ := List.mem_flatMap.mp hother
  rw [hsplit, List.flatMap_append] at hdistinct
  apply List.disjoint_of_nodup_append hdistinct
  · exact List.mem_flatMap.mpr ⟨before, hbefore, List.mem_dedup.mpr hother⟩
  · exact List.mem_flatMap.mpr ⟨hunk, List.mem_cons_self, List.mem_dedup.mpr hpath⟩

include hpatch hroot hzero hdistinct in
/-- In a patch that names every path once, every hunk is clear of those before it, unless the root
is a run of several separators or the hunk reads the log. -/
theorem clear_of_distinct (htop : Path.isTop root = true → root = [Path.separator])
    (hlog : before.settings.file ≠ [] → ∀ hunk ∈ patch, ∀ path ∈ hunk.source?,
      before.disk.goal before.settings.file ≠ Path.names path)
    (hcheck : hunk.check before.disk = .ok ()) (hsplit : patch = earlier ++ hunk :: later) :
    hunk.Clear before earlier := by
  have hsound : ∀ hunk ∈ patch, ∀ path ∈ hunk.paths,
      before.disk.goal path = Path.names path ∧ Path.Resolved path ∧
        ∃ spelled, Path.resolve root spelled = path := by
    intro hunk hhunk path hpath
    rw [hpatch] at hhunk
    obtain ⟨spelled, rfl⟩ := exists_resolve_of_mem_paths hhunk hpath
    have hresolved := Path.resolved_resolve hroot spelled
    rw [← hpatch] at hhunk
    exact ⟨Disk.goal_of_resolved hresolved (hzero hunk hhunk _ hpath) _, hresolved, spelled, rfl⟩
  intro path hsource hmem
  have hpath := Hunk.source?_subset_paths hsource
  have hhunk : hunk ∈ patch := hsplit ▸ List.mem_append_right _ List.mem_cons_self
  obtain ⟨hgoal, hresolved, spelled, hspelled⟩ := hsound hunk hhunk path hpath
  rw [hgoal] at hmem
  rcases hmem with ⟨other, hother, hsame⟩ | ⟨hset, hsame⟩
  · obtain ⟨owner, howner, hnamed⟩ := List.mem_flatMap.mp hother
    obtain ⟨hotherGoal, -, respelled, hrespelled⟩ :=
      hsound owner (hsplit ▸ List.mem_append_left _ howner) other hnamed
    rw [hotherGoal] at hsame
    obtain ⟨content, hstatus⟩ := Hunk.check_eq_ok_iff.mp hcheck path hsource
    have hnode := ((Disk.status_eq_ok_iff hresolved (hzero hunk hhunk path hpath)).mp hstatus).2.2
    have hne : Path.names other ≠ [] := by
      rw [hsame]
      exact Disk.ne_top_of_not_directory (by rw [hnode]; exact nofun)
    apply ne_of_mem_paths hdistinct hsplit hpath hother
    rw [← hrespelled, ← hspelled] at hsame ⊢
    rw [← hrespelled] at hne
    exact Path.resolve_eq_of_names hroot htop hsame hne
  · exact hlog hset hunk hhunk path hsource hsame

end Distinct

/-- A patch that names every path once is applied as it is rehearsed: if the rehearsal ends well,
only writing and removing can fail, and if it ends at a hunk that has something in its way, the
application ends with the same failure or at an earlier hunk that could not be written. -/
theorem apply_of_rehearse (context : Int) (root : Bytes) (source patch : Patch)
    (before : Workspace) (hpatch : patch = resolve root source)
    (hroot : Path.isAbsolute root = true) (hne : patch ≠ [])
    (hzero : ∀ hunk ∈ patch, ∀ path ∈ hunk.paths, 0 ∉ path)
    (hdistinct : (patch.flatMap fun hunk => hunk.paths.dedup).Nodup)
    (htop : Path.isTop root = true → root = [Path.separator])
    (hlog : before.settings.file ≠ [] → ∀ hunk ∈ patch, ∀ path ∈ hunk.source?,
      before.disk.goal before.settings.file ≠ Path.names path) :
    ((patch.rehearse.run before).1 = .ok () →
      (apply context patch before).1.error = none ∨
        StopsWriting patch (apply context patch before).1) ∧
    ∀ failure, check before.disk patch = .ok () → (patch.rehearse.run before).1 = .error failure →
      ∃ earlier hunk later, patch = earlier ++ hunk :: later ∧
        (∀ other ∈ earlier, other.obstacle? before.disk = none) ∧
        hunk.obstacle? before.disk = some failure ∧
        ((apply context patch before).1.changes.length = earlier.length ∧
            (apply context patch before).1.error = some failure ∨
          StopsWriting earlier (apply context patch before).1) := by
  have hclear : check before.disk patch = .ok () → ∀ earlier hunk later,
      patch = earlier ++ hunk :: later → hunk.Clear before earlier := by
    intro hcheck earlier hunk later hsplit
    have hhunk : hunk ∈ patch := hsplit ▸ List.mem_append_right _ List.mem_cons_self
    exact clear_of_distinct hpatch hroot hzero hdistinct htop hlog
      (check_eq_ok_iff.mp hcheck hunk hhunk) hsplit
  have hoff : check before.disk patch = .ok () → ∀ hunk ∈ patch, hunk.Clear before [] := by
    intro hcheck hunk hhunk
    obtain ⟨earlier, later, hsplit⟩ := List.append_of_mem hhunk
    exact (hclear hcheck earlier hunk later hsplit).off_log
  have hrehearsed := rehearse_ensures patch before
  rw [Step.Ensures] at hrehearsed
  rcases hran : patch.rehearse.run before with ⟨failure | passed, after⟩
  · rw [hran] at hrehearsed
    refine ⟨by rintro ⟨⟩, fun other hcheck hsame => ?_⟩
    obtain rfl := Except.error.inj hsame
    obtain ⟨earlier, hunk, later, hsplit, hearlier, hobstacle⟩ := hrehearsed hcheck
    have hnone : ∀ other ∈ earlier, other.obstacle? before.disk = none := by
      intro other hother
      exact hearlier other hother (hoff hcheck other (hsplit ▸ List.mem_append_left _ hother))
    have hobstacle := hobstacle
      (hoff hcheck hunk (hsplit ▸ List.mem_append_right _ List.mem_cons_self))
    exact ⟨earlier, hunk, later, hsplit, hnone, hobstacle,
      apply_of_obstructed hne hcheck (hclear hcheck) context hsplit hnone hobstacle⟩
  · rw [hran] at hrehearsed
    obtain ⟨hcheck, hnone⟩ := hrehearsed
    refine ⟨fun _ => ?_, by rintro _ _ ⟨⟩⟩
    exact apply_of_unobstructed hne hcheck (hclear hcheck) context
      fun hunk hhunk => hnone hunk hhunk (hoff hcheck hunk hhunk)

/-- Moves the file into a new directory and adds another one. -/
def moveAndAdd : Patch :=
  [rewriteAndMove (text "d/g"), .add (text "k") (text "c\n")]

/-- Adds a file, and rewrites a line that is not in the other one. -/
def addAndMiss : Patch :=
  [.add (text "k") (text "c\n"), .update (text "f") none [⟨none, [text "b"], [text "c"], false⟩]]

theorem apply_of_rehearse_moveAndAdd_addAndMiss :
    (((resolve (text "/") moveAndAdd).rehearse.run singleFile).1 = .ok () ∧
      ((apply 3 (resolve (text "/") moveAndAdd) singleFile).1.error = none ∨
        StopsWriting (resolve (text "/") moveAndAdd)
          (apply 3 (resolve (text "/") moveAndAdd) singleFile).1)) ∧
    ∃ failure, ((resolve (text "/") addAndMiss).rehearse.run singleFile).1 = .error failure ∧
      ∃ earlier hunk later, resolve (text "/") addAndMiss = earlier ++ hunk :: later ∧
        (∀ other ∈ earlier, other.obstacle? singleFile.disk = none) ∧
        hunk.obstacle? singleFile.disk = some failure ∧
        ((apply 3 (resolve (text "/") addAndMiss) singleFile).1.changes.length = earlier.length ∧
            (apply 3 (resolve (text "/") addAndMiss) singleFile).1.error = some failure ∨
          StopsWriting earlier (apply 3 (resolve (text "/") addAndMiss) singleFile).1) := by
  have hnoLog : ∀ patch : Patch, singleFile.settings.file ≠ [] → ∀ hunk ∈ patch,
      ∀ path ∈ hunk.source?, singleFile.disk.goal singleFile.settings.file ≠ Path.names path :=
    fun _ hset => absurd rfl hset
  have hdone : ((resolve (text "/") moveAndAdd).rehearse.run singleFile).1 = .ok () := by
    decide +kernel
  have hmissed : ((resolve (text "/") addAndMiss).rehearse.run singleFile).1 =
      .error (.unplaced (text "/f") (.linesNotFound [text "b"])) := by
    decide +kernel
  have happlied := apply_of_rehearse 3 (text "/") moveAndAdd (resolve (text "/") moveAndAdd)
    singleFile rfl rfl (by decide) (by decide) (by decide) (by decide) (hnoLog _)
  have hstopped := apply_of_rehearse 3 (text "/") addAndMiss (resolve (text "/") addAndMiss)
    singleFile rfl rfl (by decide) (by decide) (by decide) (by decide) (hnoLog _)
  exact ⟨⟨hdone, happlied.1 hdone⟩, _, hmissed, hstopped.2 _ (by decide) hmissed⟩

/-- Below a root of two separators a patch can name two spellings of one file.  To delete both is
rehearsed well, and applied up to the second one, for which no file is left. -/
theorem deleteTwice_respelled :
    ((resolve (text "//") [.delete (text "f"), .delete (text "/f")]).flatMap
        fun hunk => hunk.paths.dedup).Nodup ∧
      ((resolve (text "//") [.delete (text "f"), .delete (text "/f")]).rehearse.run
        singleFile).1 = .ok () ∧
      (apply 3 (resolve (text "//") [.delete (text "f"), .delete (text "/f")]) singleFile).1.error =
        some (.file .readForDeletion (text "/f") .noSuchFile) := by
  decide +kernel

end Patch

end Patchwork
