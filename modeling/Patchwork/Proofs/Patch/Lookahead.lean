import Patchwork.Proofs.Patch.ChunkLayout

/-!
# Readers look one line ahead

What a reader takes depends on the lines that it takes and on the first line behind them: it takes
the same where that line is the last one, and whatever else stands behind it, or where nothing stands
behind.  Nor does it depend on the number of the first line.  Main statement: `Hunk.read_local`.
-/

namespace Patchwork

open Bytes (trim)

namespace Lines

/-- The lines are none, or they begin with the first one of the others. -/
def BeginLike (lines others : List Bytes) : Prop :=
  ∀ line ∈ lines.head?, line ∈ others.head?

theorem beginLike_nil (others : List Bytes) : BeginLike [] others :=
  nofun

theorem beginLike_of_head? {lines others : List Bytes} (hhead : lines.head? = others.head?) :
    BeginLike lines others :=
  fun _ hline => hhead ▸ hline

theorem BeginLike.append {lines others : List Bytes} (halike : BeginLike lines others)
    (opening : List Bytes) : BeginLike (opening ++ lines) (opening ++ others) := by
  cases opening with
  | nil => exact halike
  | cons line opening => exact fun _ => id

end Lines

namespace Chunk

variable {first : Bool} {number : Nat} {line : Bytes} {anchor : Option Bytes}
  {lines rest : List Bytes} {chunk : Chunk} {chunks : List Chunk}

/-- The lines may stand behind a chunk in the place of the others: a marker is never taken for a
part of the chunk in front of it. -/
def MayFollow (lines others : List Bytes) : Prop :=
  ∀ line ∈ lines.head?, line ∈ others.head? ∨ line = Marker.chunk

theorem mayFollow_of_beginLike {others : List Bytes} (halike : Lines.BeginLike lines others) :
    MayFollow lines others :=
  fun line hline => .inl (halike line hline)

theorem readBody_local (hread : readBody anchor number lines = .ok (chunk, rest)) :
    ∃ taken, taken ≠ [] ∧ lines = taken ++ rest ∧ ∀ other, MayFollow other rest →
      ∀ number, readBody anchor number (taken ++ other) = .ok (chunk, other) := by
  obtain ⟨changes, endMark, rfl, hne, hchanges, hlongest, rfl, hmarked, hunmarked⟩ :=
    readBody_eq_ok_iff.mp hread
  refine ⟨changes ++ endMark.toList, List.append_ne_nil_of_left_ne_nil hne _,
    (List.append_assoc _ _ _).symm, fun other hother number => ?_⟩
  refine readBody_eq_ok_iff.mpr ⟨changes, endMark, List.append_assoc _ _ _, hne, hchanges, ?_, rfl,
    hmarked, fun hnone line hline => ?_⟩
  · cases endMark with
    | some mark => exact hlongest
    | none =>
      intro line hline
      rcases hother line hline with hsame | rfl
      · exact hlongest line hsame
      · decide
  · rcases hother line hline with hsame | rfl
    · exact hunmarked hnone line hsame
    · decide

theorem read_local (hread : read first number (line :: lines) = .ok (chunk, rest)) :
    ∃ taken, lines = taken ++ rest ∧ ∀ other, MayFollow other rest →
      ∀ number, read first number (line :: (taken ++ other)) = .ok (chunk, other) := by
  rw [read] at hread
  split at hread
  · rename_i anchor hheader
    obtain ⟨taken, -, rfl, htaken⟩ := readBody_local hread
    refine ⟨taken, rfl, fun other hother number => ?_⟩
    rw [read, hheader]
    exact htaken other hother (number + 1)
  · rename_i hheader
    split at hread
    · rename_i hfirst
      obtain ⟨taken, hne, hlines, htaken⟩ := readBody_local hread
      obtain ⟨other, taken, rfl⟩ := List.exists_cons_of_ne_nil hne
      obtain ⟨rfl, rfl⟩ := List.cons.inj hlines
      refine ⟨taken, rfl, fun other hother number => ?_⟩
      rw [read, hheader]
      simp only [hfirst, if_true]
      exact htaken other hother number
    · cases hread

theorem readAll_local (hread : readAll first number lines = .ok (chunks, rest)) :
    ∃ taken, lines = taken ++ rest ∧ ∀ other, Lines.BeginLike other rest →
      ∀ number, readAll first number (taken ++ other) = .ok (chunks, other) := by
  fun_induction readAll first number lines generalizing chunks rest with
  | case1 first =>
    cases hread
    refine ⟨[], rfl, fun other hother number => ?_⟩
    cases other with
    | nil => rw [List.nil_append, readAll]
    | cons line other => cases hother line rfl
  | case2 first number line behind hblank ih =>
    obtain ⟨taken, rfl, htaken⟩ := ih hread
    refine ⟨line :: taken, rfl, fun other hother number => ?_⟩
    rw [List.cons_append, readAll, if_pos hblank]
    exact htaken other hother (number + 1)
  | case3 first number line behind hblank hstop =>
    cases hread
    refine ⟨[], rfl, fun other hother number => ?_⟩
    cases other with
    | nil => rw [List.nil_append, readAll]
    | cons next other =>
      obtain rfl : line = next := Option.some.inj (hother next rfl)
      rw [List.nil_append, readAll, if_neg hblank, if_pos hstop]
  | case4 => cases hread
  | case5 => cases hread
  | case6 first number line behind hblank hstop chunk left hchunk hlength chunks last hrest ih =>
    cases hread
    obtain ⟨taken, rfl, htaken⟩ := read_local hchunk
    obtain ⟨more, rfl, hmore⟩ := ih hrest
    refine ⟨line :: (taken ++ more), by rw [List.cons_append, List.append_assoc],
      fun other hother number => ?_⟩
    have hleft := mayFollow_of_beginLike (hother.append more)
    rw [List.cons_append, List.append_assoc]
    exact readAll_of_read hblank (fun hprefix => hstop (List.isPrefixOf_iff_prefix.mpr hprefix))
      (htaken _ hleft number) (hmore other hother)

end Chunk

namespace Hunk

variable {number : Nat} {line path : Bytes} {lines rest : List Bytes} {hunk : Hunk}

/-- The hunk of an update with the chunks that were read behind its header, which need to be some. -/
def ofChunks (path : Bytes) (destination : Option Bytes) (number : Nat) :
    Except Patch.Error (List Chunk × List Bytes) → Except Patch.Error (Hunk × List Bytes)
  | .error problem => .error problem
  | .ok ([], _) => .error (.emptyUpdate number path)
  | .ok (chunk :: chunks, rest) => .ok (.update path destination (chunk :: chunks), rest)

theorem readUpdate_unmoved (hunmoved : ∀ line ∈ lines.head?, destination? line = none)
    (path : Bytes) (number : Nat) :
    readUpdate path number lines =
      ofChunks path none number (Chunk.readAll true (number + 1) lines) := by
  have hnone : lines.head?.bind destination? = none := Option.bind_eq_none_iff.mpr hunmoved
  simp only [readUpdate, hnone, Option.isSome_none, Bool.false_eq_true, if_false, Nat.add_zero,
    List.drop_zero]
  rcases Chunk.readAll true (number + 1) lines with problem | ⟨chunks, rest⟩
  · rfl
  · cases chunks <;> rfl

theorem readUpdate_moved {moved : Bytes} (hmoved : destination? line = some moved) (path : Bytes)
    (number : Nat) (lines : List Bytes) :
    readUpdate path number (line :: lines) =
      ofChunks path (some moved) number (Chunk.readAll true (number + 2) lines) := by
  simp only [readUpdate, List.head?_cons, Option.bind_some, hmoved, Option.isSome_some, if_true,
    List.drop_one, List.tail_cons]
  rcases Chunk.readAll true (number + 1 + 1) lines with problem | ⟨chunks, rest⟩
  · rfl
  · cases chunks <;> rfl

/-- What follows the header of an update begins with a move, or it does not. -/
theorem moved_or_unmoved (lines : List Bytes) :
    (∃ line moved rest, lines = line :: rest ∧ destination? line = some moved) ∨
      ∀ line ∈ lines.head?, destination? line = none := by
  cases lines with
  | nil => exact .inr nofun
  | cons line lines =>
    cases hmoved : destination? line with
    | some moved => exact .inl ⟨line, moved, lines, rfl, hmoved⟩
    | none =>
      refine .inr fun other hother => ?_
      obtain rfl : line = other := Option.some.inj hother
      exact hmoved

theorem ofChunks_eq_ok {destination : Option Bytes}
    {read : Except Patch.Error (List Chunk × List Bytes)}
    (hread : ofChunks path destination number read = .ok (hunk, rest)) :
    ∃ chunks, read = .ok (chunks, rest) ∧
      ∀ number rest, ofChunks path destination number (.ok (chunks, rest)) = .ok (hunk, rest) := by
  rcases read with problem | ⟨chunks, left⟩
  · cases hread
  · cases chunks with
    | nil => cases hread
    | cons chunk chunks =>
      obtain ⟨rfl, rfl⟩ := Prod.mk.inj (Except.ok.inj hread)
      exact ⟨chunk :: chunks, rfl, fun _ _ => rfl⟩

theorem readUpdate_local (hread : readUpdate path number lines = .ok (hunk, rest)) :
    ∃ taken, lines = taken ++ rest ∧ ∀ other, Lines.BeginLike other rest →
      ∀ number, readUpdate path number (taken ++ other) = .ok (hunk, other) := by
  rcases moved_or_unmoved lines with ⟨line, moved, behind, rfl, hmoved⟩ | hunmoved
  · rw [readUpdate_moved hmoved] at hread
    obtain ⟨chunks, hchunks, hhunk⟩ := ofChunks_eq_ok hread
    obtain ⟨taken, rfl, htaken⟩ := Chunk.readAll_local hchunks
    refine ⟨line :: taken, rfl, fun other hother number => ?_⟩
    rw [List.cons_append, readUpdate_moved hmoved, htaken other hother, hhunk]
  · rw [readUpdate_unmoved hunmoved] at hread
    obtain ⟨chunks, hchunks, hhunk⟩ := ofChunks_eq_ok hread
    obtain ⟨taken, rfl, htaken⟩ := Chunk.readAll_local hchunks
    refine ⟨taken, rfl, fun other hother number => ?_⟩
    have hstill : ∀ line ∈ (taken ++ other).head?, destination? line = none :=
      fun line hline => hunmoved line (hother.append taken line hline)
    rw [readUpdate_unmoved hstill, htaken other hother, hhunk]

/-- The header of a hunk decides how the hunk is read. -/
theorem read_cases (line : Bytes) :
    (∃ path, ∀ number rest, read number line rest =
        .ok (.add path (contentsOf (rest.takeWhile isAddition)), rest.dropWhile isAddition)) ∨
      (∃ path, ∀ number rest, read number line rest = .ok (.delete path, rest)) ∨
      (∃ path, trim line = Marker.updateFile ++ path ∧
        ∀ number rest, read number line rest = readUpdate path number rest) ∨
      ∀ number rest, read number line rest = .error (.invalidHeader number (trim line)) := by
  cases hadd : Marker.after? Marker.addFile (trim line) with
  | some path => exact .inl ⟨path, fun number rest => by simp only [read, hadd]⟩
  | none =>
    cases hdelete : Marker.after? Marker.deleteFile (trim line) with
    | some path => exact .inr (.inl ⟨path, fun number rest => by simp only [read, hadd, hdelete]⟩)
    | none =>
      cases hupdate : Marker.after? Marker.updateFile (trim line) with
      | some path =>
        refine .inr (.inr (.inl ⟨path, Marker.after?_eq_some_iff.mp hupdate, ?_⟩))
        exact fun number rest => by simp only [read, hadd, hdelete, hupdate]
      | none =>
        refine .inr (.inr (.inr fun number rest => ?_))
        simp only [read, hadd, hdelete, hupdate]

/-- A hunk is read wherever its lines stand, in front of nothing or of the line in front of which
they were read. -/
theorem read_local (hread : read number line lines = .ok (hunk, rest)) :
    ∃ taken, lines = taken ++ rest ∧ ∀ other, Lines.BeginLike other rest →
      ∀ number, read number line (taken ++ other) = .ok (hunk, other) := by
  rcases read_cases line with ⟨path, hadd⟩ | ⟨path, hdelete⟩ | ⟨path, -, hupdate⟩ | hinvalid
  · rw [hadd] at hread
    cases hread
    refine ⟨lines.takeWhile isAddition, List.takeWhile_append_dropWhile.symm,
      fun other hother number => ?_⟩
    have hrun : ∀ line ∈ lines.takeWhile isAddition, isAddition line = true :=
      fun line => List.mem_takeWhile_imp
    have hstop : ∀ line ∈ other.head?, ¬ isAddition line = true :=
      fun line hline => not_of_mem_head?_dropWhile _ _ line (hother line hline)
    rw [hadd, takeWhile_run hrun hstop, dropWhile_run hrun hstop]
  · rw [hdelete] at hread
    cases hread
    exact ⟨[], rfl, fun other _ number => hdelete number other⟩
  · rw [hupdate] at hread
    obtain ⟨taken, rfl, htaken⟩ := readUpdate_local hread
    refine ⟨taken, rfl, fun other hother number => ?_⟩
    rw [hupdate]
    exact htaken other hother number
  · rw [hinvalid] at hread
    cases hread

end Hunk

end Patchwork
