import Patchwork.Proofs.Placement.Rebuild
import Patchwork.Proofs.Placement.Verbatim

/-!
# Updates of different lines land in any order

An update that rewrites one line of a file finds that line where it stands verbatim for the first
time, whatever else was rewritten before, as long as no update writes a line that another one looks
for.  So each line gives way in its place, and the file is the same in the end in whatever order the
updates are applied.  Main statement: `LineUpdate.updateContent_anyOrder`.
-/

namespace Patchwork

namespace Lines

/-- No line is empty, and none has a line feed inside. -/
def Solid (lines : List Bytes) : Prop :=
  ∀ line ∈ lines, line ≠ [] ∧ Bytes.newline ∉ line

instance : DecidablePred Solid := fun lines =>
  inferInstanceAs (Decidable (∀ line ∈ lines, line ≠ [] ∧ Bytes.newline ∉ line))

theorem splitAt_ended {lines : List Bytes} (hlines : ∀ line ∈ lines, Bytes.newline ∉ line) :
    Bytes.splitAt Bytes.newline (ended lines) = lines ++ [[]] := by
  rw [Bytes.splitAt_eq_splitOn]
  induction lines with
  | nil => rfl
  | cons line lines ih =>
    rw [List.forall_mem_cons] at hlines
    have hended : ended (line :: lines) = line ++ Bytes.newline :: ended lines := by
      rw [ended, List.flatMap_cons, List.append_assoc]
      rfl
    rw [hended, List.splitOn_append_cons_self_of_not_mem hlines.1, ih hlines.2, List.cons_append]

/-- Lines are found again in the content that they make up with their line feeds. -/
theorem ofFile_ended {lines : List Bytes} (hlines : ∀ line ∈ lines, Bytes.newline ∉ line) :
    ofFile (ended lines) = lines := by
  rw [ofFile, splitAt_ended hlines]
  simp only [List.getLast?_concat, beq_self_eq_true, if_true, List.dropLast_concat]

theorem Solid.toFile_eq {lines : List Bytes} (hlines : Solid lines) : toFile lines = ended lines := by
  rw [toFile_eq_ended, ended_dropBlankEnd_eq_iff]
  exact fun hlast => (hlines [] (List.mem_of_getLast? hlast)).1 rfl

theorem Solid.replace {gap new tail : List Bytes} {line : Bytes}
    (hlines : Solid (gap ++ line :: tail)) (hnew : Solid new) : Solid (gap ++ (new ++ tail)) := by
  rw [Solid, List.forall_mem_append, List.forall_mem_cons] at hlines
  rw [Solid, List.forall_mem_append, List.forall_mem_append]
  exact ⟨hlines.1, hnew, hlines.2.2⟩

end Lines

open Lines (Solid ended)

/-- An update of one line, which gives way to new ones. -/
structure LineUpdate where
  old : Bytes
  new : List Bytes
  deriving DecidableEq, Repr

namespace LineUpdate

/-- The chunk that carries out the update. -/
def chunk (update : LineUpdate) : Chunk where
  anchor := none
  oldLines := [update.old]
  newLines := update.new
  atEnd := false

/-- The update as a passage behind lines that stay. -/
def passage (gap : List Bytes) (update : LineUpdate) : Passage where
  gap
  old := [update.old]
  new := update.new

/-- The lines when every one that an update looks for has given way to the new ones. -/
def applyAll (updates : List LineUpdate) (lines : List Bytes) : List Bytes :=
  lines.flatMap fun line =>
    match updates.find? (·.old = line) with
    | some update => update.new
    | none => [line]

/-- The updates are about different lines, each of which stands once among the lines, and none
writes a line that any of them looks for. -/
structure Independent (lines : List Bytes) (updates : List LineUpdate) : Prop where
  distinct : (updates.map old).Nodup
  once : ∀ update ∈ updates, lines.count update.old = 1
  fresh : ∀ update ∈ updates, ∀ line ∈ update.new, ∀ other ∈ updates, line ≠ other.old

section Replacing

variable {updates order : List LineUpdate} {update : LineUpdate} {lines gap tail : List Bytes}
  {line : Bytes}

theorem applyAll_append (updates : List LineUpdate) (lines more : List Bytes) :
    applyAll updates (lines ++ more) = applyAll updates lines ++ applyAll updates more :=
  List.flatMap_append

/-- Lines that no update looks for stay. -/
theorem applyAll_eq_self (hlines : ∀ line ∈ lines, ∀ update ∈ updates, line ≠ update.old) :
    applyAll updates lines = lines := by
  induction lines with
  | nil => rfl
  | cons line lines ih =>
    rw [List.forall_mem_cons] at hlines
    have hnone : updates.find? (·.old = line) = none := by
      rw [List.find?_eq_none]
      intro update hupdate
      simpa using (hlines.1 update hupdate).symm
    have hrest := ih hlines.2
    rw [applyAll] at hrest ⊢
    rw [List.flatMap_cons, hrest, hnone]
    rfl

/-- An update does nothing to lines among which the one that it looks for is not. -/
theorem applyAll_cons_of_notMem (habsent : update.old ∉ lines) :
    applyAll (update :: updates) lines = applyAll updates lines := by
  refine List.flatMap_congr fun line hline => ?_
  have hne : update.old ≠ line := by
    rintro rfl
    exact habsent hline
  rw [List.find?_cons_of_neg (by simpa using hne)]

/-- The first update may be carried out before the others. -/
theorem applyAll_cons (habove : update.old ∉ gap) (hbelow : update.old ∉ tail)
    (hfresh : ∀ line ∈ update.new, ∀ other ∈ updates, line ≠ other.old) :
    applyAll (update :: updates) (gap ++ update.old :: tail) =
      applyAll updates (gap ++ (update.new ++ tail)) := by
  have hline : applyAll (update :: updates) [update.old] = update.new := by
    rw [applyAll, List.flatMap_singleton, List.find?_cons_of_pos (by simp)]
  calc applyAll (update :: updates) (gap ++ update.old :: tail)
      = applyAll (update :: updates) (gap ++ ([update.old] ++ tail)) := rfl
    _ = applyAll updates gap ++ (update.new ++ applyAll updates tail) := by
      rw [applyAll_append, applyAll_append, applyAll_cons_of_notMem habove, hline,
        applyAll_cons_of_notMem hbelow]
    _ = applyAll updates (gap ++ (update.new ++ tail)) := by
      rw [applyAll_append, applyAll_append, applyAll_eq_self hfresh]

/-- At most one update looks for a line. -/
theorem find?_eq_some_iff (hdistinct : (updates.map old).Nodup) :
    updates.find? (·.old = line) = some update ↔ update ∈ updates ∧ update.old = line := by
  constructor
  · intro hfound
    exact ⟨List.mem_of_find?_eq_some hfound, by simpa using List.find?_some hfound⟩
  · rintro ⟨hupdate, rfl⟩
    obtain ⟨found, hfound⟩ : ∃ found, updates.find? (·.old = update.old) = some found :=
      Option.isSome_iff_exists.mp (List.find?_isSome.mpr ⟨update, hupdate, decide_eq_true rfl⟩)
    have hold : found.old = update.old := by simpa using List.find?_some hfound
    rw [hfound, List.inj_on_of_nodup_map hdistinct (List.mem_of_find?_eq_some hfound) hupdate hold]

theorem applyAll_perm (horder : order.Perm updates) (hdistinct : (updates.map old).Nodup)
    (lines : List Bytes) : applyAll order lines = applyAll updates lines := by
  have hdistinct' : (order.map old).Nodup := (horder.map old).nodup_iff.mpr hdistinct
  refine List.flatMap_congr fun line _ => ?_
  have hfind : order.find? (·.old = line) = updates.find? (·.old = line) := by
    ext update
    rw [find?_eq_some_iff hdistinct', find?_eq_some_iff hdistinct, horder.mem_iff]
  rw [hfind]

end Replacing

namespace Independent

variable {lines gap tail : List Bytes} {updates order : List LineUpdate} {update : LineUpdate}

theorem perm (hindependent : Independent lines updates) (horder : order.Perm updates) :
    Independent lines order where
  distinct := (horder.map old).nodup_iff.mpr hindependent.distinct
  once update hupdate := hindependent.once update (horder.mem_iff.mp hupdate)
  fresh update hupdate line hline other hother :=
    hindependent.fresh update (horder.mem_iff.mp hupdate) line hline other (horder.mem_iff.mp hother)

/-- The line that an update looks for stands in one place. -/
theorem exists_split (hindependent : Independent lines (update :: updates)) :
    ∃ gap tail, lines = gap ++ update.old :: tail ∧ update.old ∉ gap ∧ update.old ∉ tail := by
  have honce := hindependent.once update List.mem_cons_self
  obtain ⟨gap, tail, rfl, habove⟩ :=
    List.eq_append_cons_of_mem (List.count_pos_iff.mp (honce ▸ Nat.one_pos))
  refine ⟨gap, tail, rfl, habove, fun hbelow => ?_⟩
  rw [List.count_append, List.count_cons_self, List.count_eq_zero_of_not_mem habove] at honce
  have hcount := List.count_pos_iff.mpr hbelow
  omega

/-- When one update is carried out, the others are still independent. -/
theorem carryOut (hindependent : Independent (gap ++ update.old :: tail) (update :: updates)) :
    Independent (gap ++ (update.new ++ tail)) updates where
  distinct := (List.nodup_cons.mp hindependent.distinct).2
  once other hother := by
    have hmem := List.mem_cons_of_mem update hother
    have hne : update.old ≠ other.old := fun heq =>
      (List.nodup_cons.mp hindependent.distinct).1 (heq ▸ List.mem_map_of_mem hother)
    have hnew : other.old ∉ update.new := fun hline =>
      hindependent.fresh update List.mem_cons_self other.old hline other hmem rfl
    have honce := hindependent.once other hmem
    rw [List.count_append, List.count_cons_of_ne hne] at honce
    rw [List.count_append, List.count_append, List.count_eq_zero_of_not_mem hnew, Nat.zero_add, honce]
  fresh other hother line hline third hthird :=
    hindependent.fresh other (List.mem_cons_of_mem update hother) line hline third
      (List.mem_cons_of_mem update hthird)

end Independent

section Updating

variable {lines gap tail : List Bytes} {updates order : List LineUpdate} {update : LineUpdate}

/-- The one chunk is placed at the first line that is verbatim what it looks for. -/
theorem replacements_chunk (habove : update.old ∉ gap) (tail : List Bytes) :
    Placement.replacements (gap ++ update.old :: tail) [update.chunk] =
      .ok [⟨gap.length, 1, update.new⟩] := by
  have hlines : (gap ++ update.old :: tail).drop 0 =
      Passage.original [update.passage gap] tail := by
    simp [Passage.original, passage]
  have hfirst : Passage.Unambiguous (gap ++ update.old :: tail) 0 [update.passage gap] := by
    refine ⟨List.cons_ne_nil _ _, fun offset hoffset hopens => ?_, trivial⟩
    change offset < gap.length at hoffset
    change [update.old] <+: _ at hopens
    rw [Nat.zero_add, List.drop_append_of_le_length (Nat.le_of_lt hoffset),
      List.drop_eq_getElem_cons hoffset, List.cons_append, List.cons_prefix_cons] at hopens
    exact habove (hopens.1 ▸ List.getElem_mem hoffset)
  have hplaced := Passage.placeAll_chunks hlines hfirst
  change Placement.placeAll _ 0 [update.chunk] = _ at hplaced
  rw [Placement.replacements, hplaced]
  simp [Passage.cuts, passage, Except.map, Replacement.sort, Replacement.insertByStart]

/-- One update rewrites its line in place. -/
theorem updateContent_chunk (habove : update.old ∉ gap) (hlines : Solid (gap ++ update.old :: tail))
    (hnew : Solid update.new) :
    Placement.updateContent (ended (gap ++ update.old :: tail)) [update.chunk] =
      .ok (ended (gap ++ (update.new ++ tail))) := by
  have hspliced : Replacement.spliceAll (gap ++ update.old :: tail)
      [⟨gap.length, 1, update.new⟩] = gap ++ (update.new ++ tail) := by
    simp [Replacement.spliceAll, Replacement.splice]
  rw [Placement.updateContent, Lines.ofFile_ended fun line hline => (hlines line hline).2,
    replacements_chunk habove]
  exact congrArg Except.ok ((congrArg Lines.toFile hspliced).trans (hlines.replace hnew).toFile_eq)

/-- Updates that are independent are carried out one after another. -/
theorem foldlM_updateContent (hlines : Solid lines) (hnew : ∀ update ∈ updates, Solid update.new)
    (hindependent : Independent lines updates) :
    updates.foldlM (fun content update => Placement.updateContent content [update.chunk])
        (ended lines) = .ok (ended (applyAll updates lines)) := by
  induction updates generalizing lines with
  | nil =>
    rw [applyAll_eq_self fun _ _ => List.forall_mem_nil _]
    rfl
  | cons update updates ih =>
    rw [List.forall_mem_cons] at hnew
    obtain ⟨gap, tail, rfl, habove, hbelow⟩ := hindependent.exists_split
    have hfresh : ∀ line ∈ update.new, ∀ other ∈ updates, line ≠ other.old :=
      fun line hline other hother => hindependent.fresh update List.mem_cons_self line hline other
        (List.mem_cons_of_mem update hother)
    rw [List.foldlM_cons, updateContent_chunk habove hlines hnew.1,
      applyAll_cons habove hbelow hfresh]
    exact ih (hlines.replace hnew.1) hnew.2 hindependent.carryOut

/-- Updates about different lines of a file, none of which writes a line that another one looks for,
all succeed in any order and leave the same file: every line that is looked for has given way in its
place. -/
theorem updateContent_anyOrder (hlines : Solid lines) (hnew : ∀ update ∈ updates, Solid update.new)
    (hindependent : Independent lines updates) (horder : order.Perm updates) :
    order.foldlM (fun content update => Placement.updateContent content [update.chunk])
        (ended lines) = .ok (ended (applyAll updates lines)) := by
  rw [← applyAll_perm horder hindependent.distinct]
  exact foldlM_updateContent hlines (fun update hupdate => hnew update (horder.mem_iff.mp hupdate))
    (hindependent.perm horder)

end Updating

/-- Lines that look alike under the looser tiers. -/
def alikeLines : List Bytes := [text "a", text " a", text "b ", text "b"]

/-- One line gives way to two, one to none, and one to a line that only looks like another one. -/
def alikeUpdates : List LineUpdate :=
  [⟨text "b", [text "b  "]⟩, ⟨text "a", [text "c", text "a "]⟩, ⟨text "b ", []⟩]

theorem updateContent_anyOrder_alike :
    Solid alikeLines ∧ (∀ update ∈ alikeUpdates, Solid update.new) ∧
      Independent alikeLines alikeUpdates ∧ alikeUpdates.reverse.Perm alikeUpdates ∧
      alikeUpdates.reverse.foldlM (fun content update =>
          Placement.updateContent content [update.chunk]) (text "a\n a\nb \nb\n") =
        .ok (text "c\na \n a\nb  \n") := by
  have hlines : Solid alikeLines := by decide
  have hnew : ∀ update ∈ alikeUpdates, Solid update.new := by decide
  have hindependent : Independent alikeLines alikeUpdates := ⟨by decide, by decide, by decide⟩
  have horder := alikeUpdates.reverse_perm
  exact ⟨hlines, hnew, hindependent, horder,
    updateContent_anyOrder hlines hnew hindependent horder⟩

end LineUpdate

end Patchwork
