import Patchwork.Proofs.Patch.Grammar
import Patchwork.Proofs.Patch.Lookahead

/-!
# Where readers fail

A reader fails at a line that it cannot go on with: some lines in the place of that one and of those
behind it would have been read, but none that begin with it.  An update without chunks is the
exception, since its header alone does not show it.  Main statements: `Chunk.readAll_error` and
`Hunk.readAll_error`.
-/

namespace Patchwork

open Bytes (trim)

/-- An update has no chunk. -/
def Patch.Error.IsEmptyUpdate (problem : Patch.Error) : Prop :=
  ∃ line path, problem = .emptyUpdate line path

/-- The reader fails at the first one of the lines behind, or at the end if there is none, whatever
its number is and whatever else stands there. -/
def FailsBehind {α : Type} (read : Nat → List Bytes → Except Patch.Error α)
    (opening behind : List Bytes) : Prop :=
  ∀ other number, other.head? = behind.head? →
    ∃ problem, read number (opening ++ other) = .error problem

namespace Chunk

variable {first : Bool} {number : Nat} {line : Bytes} {anchor : Option Bytes}
  {lines opening behind : List Bytes} {problem : Patch.Error}

/-! ## Chunks -/

/-- The shortest line that is added to a file. -/
def addedLine : Bytes := [LineKind.additionSign]

theorem read_addedLine (hheader : header? line = some anchor) (first : Bool) :
    ∃ chunk, ∀ number, read first number [line, addedLine] = .ok (chunk, []) := by
  refine ⟨ofOperations anchor [.insert []] false, fun number => ?_⟩
  rw [read, hheader]
  rfl

/-- No chunk is read behind its marker where the next line is none about a line of the file. -/
theorem readBody_of_none (hnone : ∀ line ∈ lines.head?, Operation.ofLine? line = none)
    (anchor : Option Bytes) (number : Nat) :
    ∃ problem, readBody anchor number lines = .error problem ∧ problem.line? = some number ∧
      ¬ problem.IsEmptyUpdate := by
  cases lines with
  | nil => exact ⟨_, rfl, rfl, by rintro ⟨_, _, ⟨⟩⟩⟩
  | cons line lines =>
    have hrun : Operation.takeRun (line :: lines) = ([], line :: lines) := by
      rw [Operation.takeRun, hnone line rfl]
    rw [readBody, hrun]
    by_cases hmark : LineKind.ofLine line = .endOfFile
    · exact ⟨_, if_pos hmark, rfl, by rintro ⟨_, _, ⟨⟩⟩⟩
    · exact ⟨_, if_neg hmark, rfl, by rintro ⟨_, _, ⟨⟩⟩⟩

theorem none_of_readBody (hread : readBody anchor number lines = .error problem) :
    ∀ line ∈ lines.head?, Operation.ofLine? line = none := by
  intro line hline
  obtain ⟨others, rfl⟩ := List.head?_eq_some_iff.mp hline
  by_contra hsome
  obtain ⟨operation, hoperation⟩ := Option.ne_none_iff_exists'.mp hsome
  rw [readBody, Operation.takeRun, hoperation] at hread
  cases hread

theorem readBody_error (hread : readBody anchor number lines = .error problem) :
    problem.line? = some number ∧ ¬ problem.IsEmptyUpdate ∧
      FailsBehind (readBody anchor) [] lines := by
  have hnone := none_of_readBody hread
  obtain ⟨found, hfound, hline, hkind⟩ := readBody_of_none hnone anchor number
  obtain rfl := Except.error.inj (hread.symm.trans hfound)
  refine ⟨hline, hkind, fun other number hother => ?_⟩
  rw [← hother] at hnone
  obtain ⟨problem, hproblem, -⟩ := readBody_of_none hnone anchor number
  exact ⟨problem, hproblem⟩

/-- A chunk fails at the line behind its marker, or at its first line if that is none. -/
theorem read_error (hread : read first number (line :: lines) = .error problem) :
    ¬ problem.IsEmptyUpdate ∧
      (problem.line? = some (number + 1) ∧ (∃ anchor, header? line = some anchor) ∧
          FailsBehind (read first) [line] lines ∨
        problem.line? = some number ∧ FailsBehind (read first) [] (line :: lines)) := by
  rw [read] at hread
  split at hread
  · rename_i anchor hheader
    obtain ⟨hline, hkind, hrefused⟩ := readBody_error hread
    refine ⟨hkind, .inl ⟨hline, ⟨anchor, hheader⟩, fun other number hother => ?_⟩⟩
    rw [List.singleton_append, read, hheader]
    exact hrefused other (number + 1) hother
  · rename_i hheader
    split at hread
    · rename_i hfirst
      obtain ⟨hline, hkind, hrefused⟩ := readBody_error hread
      refine ⟨hkind, .inr ⟨hline, fun other number hother => ?_⟩⟩
      obtain ⟨more, rfl⟩ := List.head?_eq_some_iff.mp hother
      rw [List.nil_append, read, hheader]
      simp only [hfirst, if_true]
      exact hrefused (line :: more) number rfl
    · rename_i hfirst
      obtain rfl := Except.error.inj hread
      refine ⟨by rintro ⟨_, _, ⟨⟩⟩, .inr ⟨rfl, fun other number hother => ?_⟩⟩
      obtain ⟨more, rfl⟩ := List.head?_eq_some_iff.mp hother
      rw [List.nil_append, read, hheader]
      exact ⟨_, if_neg hfirst⟩

/-- The chunks of an update go no further than the lines in front: with some others they are chunks,
but with the one that stands there they are not. -/
structure Fault (first : Bool) (opening behind : List Bytes) : Prop where
  viable : ∃ more chunk chunks, Lines.Unbroken more ∧
    MayFollow (opening ++ more) (opening ++ behind) ∧
      ∀ number, readAll first number (opening ++ more) = .ok (chunk :: chunks, [])
  refused : FailsBehind (readAll first) opening behind

theorem readAll_of_error {lines : List Bytes} (hblank : trim line ≠ [])
    (hstop : ¬ Marker.stop.isPrefixOf line = true)
    (hread : read first number (line :: lines) = .error problem) :
    readAll first number (line :: lines) = .error problem := by
  rw [readAll, if_neg hblank, if_neg hstop]
  split
  · rename_i found hfound
    rw [hread] at hfound
    obtain rfl := Except.error.inj hfound
    rfl
  · rename_i hfound
    rw [hread] at hfound
    cases hfound

theorem readAll_addedLine {marker : Bytes} (hheader : header? marker = some anchor) (first : Bool) :
    ∃ chunk, ∀ number, readAll first number [marker, addedLine] = .ok ([chunk], []) := by
  have hmarks := (header?_eq_some_iff.mp hheader).head?_trim
  have hblank : trim marker ≠ [] := by
    intro hnil
    rw [hnil] at hmarks
    cases hmarks
  have hstop : ¬ Marker.stop <+: marker := by
    intro hprefix
    rw [head?_trim_of_stop hprefix] at hmarks
    exact absurd hmarks (by decide)
  obtain ⟨chunk, hchunk⟩ := read_addedLine hheader first
  refine ⟨chunk, fun number => readAll_of_read hblank hstop (hchunk number) fun number => ?_⟩
  rw [readAll]

theorem failsBehind_readAll (hblank : trim line ≠ [])
    (hstop : ¬ Marker.stop.isPrefixOf line = true) (hlines : opening ++ behind = line :: lines)
    (hread : FailsBehind (read first) opening behind) :
    FailsBehind (readAll first) opening behind := by
  intro other number hother
  have hhead : (opening ++ other).head? = some line := by
    rw [List.head?_append, hother, ← List.head?_append, hlines, List.head?_cons]
  obtain ⟨problem, hproblem⟩ := hread other number hother
  obtain ⟨more, hmore⟩ := List.head?_eq_some_iff.mp hhead
  rw [hmore] at hproblem ⊢
  exact ⟨problem, readAll_of_error hblank hstop hproblem⟩

theorem fault_of_read_error (hblank : trim line ≠ []) (hstop : ¬ Marker.stop.isPrefixOf line = true)
    (hread : read first number (line :: lines) = .error problem) :
    ¬ problem.IsEmptyUpdate ∧ ∃ opening behind, line :: lines = opening ++ behind ∧
      problem.line? = some (number + opening.length) ∧ Fault first opening behind := by
  obtain ⟨hkind, ⟨hline, ⟨anchor, hheader⟩, hrefused⟩ | ⟨hline, hrefused⟩⟩ := read_error hread
  · -- behind a marker, an added line would do
    obtain ⟨chunk, hchunk⟩ := readAll_addedLine hheader first
    refine ⟨hkind, [line], lines, rfl, hline, ⟨[addedLine], chunk, [], ?_, ?_, hchunk⟩,
      failsBehind_readAll hblank hstop rfl hrefused⟩
    · exact List.forall_mem_singleton.mpr (by decide)
    · exact fun other hother => .inl hother
  · -- in the place of the line, a chunk would do that has a marker, wherever it stands
    have hmarker : header? Marker.chunk = some none := rfl
    obtain ⟨chunk, hchunk⟩ := readAll_addedLine hmarker first
    refine ⟨hkind, [], line :: lines, rfl, hline,
      ⟨[Marker.chunk, addedLine], chunk, [], ?_, ?_, hchunk⟩,
      failsBehind_readAll hblank hstop rfl hrefused⟩
    · exact List.forall_mem_cons.mpr ⟨by decide, List.forall_mem_singleton.mpr (by decide)⟩
    · exact fun other hother => .inr (Option.some.inj hother).symm

theorem Fault.separator (hfault : Fault first opening behind) (hblank : trim line = []) :
    Fault first (line :: opening) behind where
  viable := by
    obtain ⟨more, chunk, chunks, hmore, -, hread⟩ := hfault.viable
    refine ⟨more, chunk, chunks, hmore, fun _ => .inl, fun number => ?_⟩
    rw [List.cons_append, readAll, if_pos hblank]
    exact hread (number + 1)
  refused other number hother := by
    obtain ⟨problem, hproblem⟩ := hfault.refused other (number + 1) hother
    refine ⟨problem, ?_⟩
    rw [List.cons_append, readAll, if_pos hblank]
    exact hproblem

/-- The chunks behind one that is read go no further than all of them do. -/
theorem Fault.chunk {taken : List Bytes} {chunk : Chunk} (hfault : Fault false opening behind)
    (hblank : trim line ≠ []) (hstop : ¬ Marker.stop.isPrefixOf line = true)
    (hread : ∀ other, MayFollow other (opening ++ behind) →
      ∀ number, read first number (line :: (taken ++ other)) = .ok (chunk, other)) :
    Fault first (line :: (taken ++ opening)) behind where
  viable := by
    obtain ⟨more, next, chunks, hmore, hfollow, hrest⟩ := hfault.viable
    refine ⟨more, chunk, next :: chunks, hmore, fun _ => .inl, fun number => ?_⟩
    rw [List.cons_append, List.append_assoc]
    exact readAll_of_read hblank (mt List.isPrefixOf_iff_prefix.mpr hstop)
      (hread _ hfollow number) hrest
  refused other number hother := by
    have hfollow := mayFollow_of_beginLike ((Lines.beginLike_of_head? hother).append opening)
    have hfirst := hread _ hfollow number
    rw [List.cons_append, List.append_assoc, readAll, if_neg hblank, if_neg hstop]
    split
    · exact ⟨_, rfl⟩
    · rename_i found left hfound
      rw [hfirst] at hfound
      cases hfound
      obtain ⟨problem, hproblem⟩ := hfault.refused other _ hother
      rw [hproblem]
      exact ⟨problem, rfl⟩

theorem readAll_error (hread : readAll first number lines = .error problem) :
    ¬ problem.IsEmptyUpdate ∧ ∃ opening behind, lines = opening ++ behind ∧
      problem.line? = some (number + opening.length) ∧ Fault first opening behind := by
  fun_induction readAll first number lines with
  | case1 => cases hread
  | case2 first number line lines hblank ih =>
    obtain ⟨hkind, opening, behind, rfl, hline, hfault⟩ := ih hread
    refine ⟨hkind, line :: opening, behind, rfl, ?_, hfault.separator hblank⟩
    rw [hline, List.length_cons, Nat.add_right_comm, Nat.add_assoc]
  | case3 => cases hread
  | case4 first number line lines hblank hstop found hfound =>
    obtain rfl := Except.error.inj hread
    exact fault_of_read_error hblank hstop hfound
  | case5 first number line lines hblank hstop chunk left hchunk hlength found hrest ih =>
    obtain rfl := Except.error.inj hread
    obtain ⟨taken, rfl, htaken⟩ := read_local hchunk
    obtain ⟨hkind, opening, behind, rfl, hline, hfault⟩ := ih hrest
    refine ⟨hkind, line :: (taken ++ opening), behind, ?_, ?_, hfault.chunk hblank hstop htaken⟩
    · rw [List.cons_append, List.append_assoc]
    · rw [hline]
      simp only [List.length_cons, List.length_append]
      exact congrArg some (by omega)
  | case6 => cases hread

end Chunk

namespace Hunk

variable {number : Nat} {line path : Bytes} {lines opening behind : List Bytes}
  {problem : Patch.Error}

/-! ## Hunks -/

/-- Nothing but a move and separators stands behind the header of an update, up to the end or a line
that begins with three stars. -/
def Hollow (lines : List Bytes) : Prop :=
  ∃ move : Option Bytes, ∃ separators behind, lines = move.toList ++ (separators ++ behind) ∧
    (∀ line ∈ move, Marker.moveTo <+: trim line) ∧ (∀ line ∈ separators, trim line = []) ∧
    ∀ line ∈ behind.head?, Marker.stop <+: line

/-- An update goes no further than the lines in front. -/
structure UpdateFault (path : Bytes) (opening behind : List Bytes) : Prop where
  viable : ∃ more hunk, Lines.Unbroken more ∧
    ∀ number, readUpdate path number (opening ++ more) = .ok (hunk, [])
  refused : FailsBehind (readUpdate path) opening behind

theorem updateFault_of_moved {moved : Bytes} (hmoved : destination? line = some moved)
    (hfault : Chunk.Fault true opening behind) (path : Bytes) :
    UpdateFault path (line :: opening) behind where
  viable := by
    obtain ⟨more, chunk, chunks, hmore, -, hread⟩ := hfault.viable
    refine ⟨more, .update path (some moved) (chunk :: chunks), hmore, fun number => ?_⟩
    rw [List.cons_append, readUpdate_moved hmoved, hread]
    rfl
  refused other number hother := by
    obtain ⟨problem, hproblem⟩ := hfault.refused other (number + 2) hother
    refine ⟨problem, ?_⟩
    rw [List.cons_append, readUpdate_moved hmoved, hproblem]
    rfl

theorem updateFault_of_unmoved
    (hunmoved : ∀ line ∈ (opening ++ behind).head?, destination? line = none)
    (hfault : Chunk.Fault true opening behind) (path : Bytes) : UpdateFault path opening behind where
  viable := by
    obtain ⟨more, chunk, chunks, hmore, hfollow, hread⟩ := hfault.viable
    have hstill : ∀ line ∈ (opening ++ more).head?, destination? line = none := by
      intro line hline
      rcases hfollow line hline with hsame | rfl
      · exact hunmoved line hsame
      · rfl
    refine ⟨more, .update path none (chunk :: chunks), hmore, fun number => ?_⟩
    rw [readUpdate_unmoved hstill, hread]
    rfl
  refused other number hother := by
    have halike := (Lines.beginLike_of_head? hother).append opening
    have hstill : ∀ line ∈ (opening ++ other).head?, destination? line = none :=
      fun line hline => hunmoved line (halike line hline)
    obtain ⟨problem, hproblem⟩ := hfault.refused other (number + 1) hother
    refine ⟨problem, ?_⟩
    rw [readUpdate_unmoved hstill, hproblem]
    rfl

theorem ofChunks_eq_error {destination : Option Bytes}
    {read : Except Patch.Error (List Chunk × List Bytes)}
    (hread : ofChunks path destination number read = .error problem) :
    read = .error problem ∨
      problem = .emptyUpdate number path ∧ ∃ rest, read = .ok ([], rest) := by
  rcases read with found | ⟨chunks, rest⟩
  · obtain rfl := Except.error.inj hread
    exact .inl rfl
  · cases chunks with
    | nil => exact .inr ⟨(Except.error.inj hread).symm, rest, rfl⟩
    | cons chunk chunks => cases hread

/-- Parts without a chunk are separators. -/
theorem Part.Fit.separators {first : Bool} {parts : List Part} (hfit : Part.Fit first parts behind)
    (hnone : parts.filterMap Part.chunk? = []) :
    (∀ line ∈ parts.flatMap Part.lines, trim line = []) ∧
      ∀ line ∈ behind.head?, Marker.stop <+: line := by
  induction parts with
  | nil => exact ⟨List.forall_mem_nil _, hfit⟩
  | cons part parts ih =>
    cases part with
    | separator blank =>
      obtain ⟨hblanks, hstop⟩ := ih hfit.2 hnone
      exact ⟨List.forall_mem_cons.mpr ⟨hfit.1, hblanks⟩, hstop⟩
    | chunk layout => cases hnone

theorem exists_separators {first : Bool} {rest : List Bytes}
    (hread : Chunk.readAll first number lines = .ok ([], rest)) :
    ∃ separators, lines = separators ++ rest ∧ (∀ line ∈ separators, trim line = []) ∧
      ∀ line ∈ rest.head?, Marker.stop <+: line := by
  obtain ⟨parts, rfl, hfit, hnone⟩ := Part.exists_parts_of_readAll hread
  exact ⟨parts.flatMap Part.lines, rfl, hfit.separators hnone⟩

theorem readUpdate_error (hread : readUpdate path number lines = .error problem) :
    problem = .emptyUpdate number path ∧ Hollow lines ∨
      ¬ problem.IsEmptyUpdate ∧ ∃ opening behind, lines = opening ++ behind ∧
        problem.line? = some (number + 1 + opening.length) ∧ UpdateFault path opening behind := by
  rcases moved_or_unmoved lines with ⟨line, moved, rest, rfl, hmoved⟩ | hunmoved
  · rw [readUpdate_moved hmoved] at hread
    rcases ofChunks_eq_error hread with hchunks | ⟨rfl, left, hchunks⟩
    · obtain ⟨hkind, opening, behind, rfl, hline, hfault⟩ := Chunk.readAll_error hchunks
      refine .inr ⟨hkind, line :: opening, behind, rfl, ?_, updateFault_of_moved hmoved hfault path⟩
      rw [hline, List.length_cons]
      exact congrArg some (by omega)
    · obtain ⟨separators, rfl, hseparators, hstop⟩ := exists_separators hchunks
      refine .inl ⟨rfl, some line, separators, left, rfl, fun other hother => ?_, hseparators,
        hstop⟩
      obtain rfl := Option.some.inj hother
      exact ⟨moved, (Marker.after?_eq_some_iff.mp hmoved).symm⟩
  · rw [readUpdate_unmoved hunmoved] at hread
    rcases ofChunks_eq_error hread with hchunks | ⟨rfl, left, hchunks⟩
    · obtain ⟨hkind, opening, behind, rfl, hline, hfault⟩ := Chunk.readAll_error hchunks
      exact .inr ⟨hkind, opening, behind, rfl, hline, updateFault_of_unmoved hunmoved hfault path⟩
    · obtain ⟨separators, rfl, hseparators, hstop⟩ := exists_separators hchunks
      exact .inl ⟨rfl, none, separators, left, rfl, nofun, hseparators, hstop⟩

/-- Hunks go no further than the lines in front: with some others they are hunks, but with the line
that stands there they are not.  If that line is the header of an update without chunks, the lines
in front are hunks. -/
structure Fault (problem : Patch.Error) (opening behind : List Bytes) : Prop where
  viable : ¬ problem.IsEmptyUpdate → ∃ more hunks, Lines.Unbroken more ∧
    Lines.BeginLike (opening ++ more) (opening ++ behind) ∧
      ∀ number, readAll number (opening ++ more) = .ok hunks
  refused : ¬ problem.IsEmptyUpdate → FailsBehind readAll opening behind
  complete : problem.IsEmptyUpdate → ∃ hunks, ∀ number, readAll number opening = .ok hunks
  hollow : ∀ line path, problem = .emptyUpdate line path → ∃ header rest,
    behind = header :: rest ∧ trim header = Marker.updateFile ++ path ∧ Hollow rest

theorem readAll_of_error (hread : read number line lines = .error problem) :
    readAll number (line :: lines) = .error problem := by
  rw [readAll]
  split
  · rename_i found hfound
    rw [hread] at hfound
    obtain rfl := Except.error.inj hfound
    rfl
  · rename_i hfound
    rw [hread] at hfound
    cases hfound

theorem readAll_nil (number : Nat) : readAll number [] = .ok [] := by
  rw [readAll]

theorem fault_of_read_error (hread : read number line lines = .error problem) :
    ∃ opening behind, line :: lines = opening ++ behind ∧
      problem.line? = some (number + opening.length) ∧ Fault problem opening behind := by
  rcases read_cases line with ⟨path, hadd⟩ | ⟨path, hdelete⟩ | ⟨path, hpath, hupdate⟩ | hinvalid
  · rw [hadd] at hread
    cases hread
  · rw [hdelete] at hread
    cases hread
  · rw [hupdate] at hread
    rcases readUpdate_error hread with ⟨rfl, hhollow⟩ | ⟨hkind, opening, behind, rfl, hline, hfault⟩
    · exact ⟨[], line :: lines, rfl, rfl, {
        viable := fun hkind => absurd ⟨_, _, rfl⟩ hkind
        refused := fun hkind => absurd ⟨_, _, rfl⟩ hkind
        complete := fun _ => ⟨[], readAll_nil⟩
        hollow := fun other otherPath hsame => by
          obtain ⟨-, rfl⟩ := Patch.Error.emptyUpdate.inj hsame
          exact ⟨line, lines, rfl, hpath, hhollow⟩ }⟩
    · refine ⟨line :: opening, behind, rfl, ?_, {
        viable := fun _ => ?_
        refused := fun _ other number hother => ?_
        complete := fun hempty => absurd hempty hkind
        hollow := fun line path hsame => absurd ⟨line, path, hsame⟩ hkind }⟩
      · rw [hline, List.length_cons]
        exact congrArg some (by omega)
      · -- the update is read to the end, so that no hunk follows
        obtain ⟨more, hunk, hmore, hviable⟩ := hfault.viable
        refine ⟨more, [hunk], hmore, fun _ => id, fun number => ?_⟩
        exact readAll_of_read ((hupdate number _).trans (hviable number)) readAll_nil
      · obtain ⟨found, hfound⟩ := hfault.refused other number hother
        exact ⟨found, readAll_of_error ((hupdate number _).trans hfound)⟩
  · rw [hinvalid] at hread
    obtain rfl := Except.error.inj hread
    exact ⟨[], line :: lines, rfl, rfl, {
      viable := fun _ => ⟨[], [], nofun, nofun, readAll_nil⟩
      refused := fun _ other number hother => by
        obtain ⟨more, rfl⟩ := List.head?_eq_some_iff.mp hother
        exact ⟨_, readAll_of_error (hinvalid number more)⟩
      complete := nofun
      hollow := nofun }⟩

/-- The hunks behind one that is read go no further than all of them do. -/
theorem Fault.hunk {taken : List Bytes} {hunk : Hunk} (hfault : Fault problem opening behind)
    (hread : ∀ other, Lines.BeginLike other (opening ++ behind) →
      ∀ number, read number line (taken ++ other) = .ok (hunk, other)) :
    Fault problem (line :: (taken ++ opening)) behind where
  viable hkind := by
    obtain ⟨more, hunks, hmore, halike, hviable⟩ := hfault.viable hkind
    refine ⟨more, hunk :: hunks, hmore, fun _ => id, fun number => ?_⟩
    rw [List.cons_append, List.append_assoc]
    exact readAll_of_read (hread _ halike number) hviable
  refused hkind other number hother := by
    have halike := (Lines.beginLike_of_head? hother).append opening
    have hfirst := hread _ halike number
    rw [List.cons_append, List.append_assoc, readAll]
    split
    · exact ⟨_, rfl⟩
    · rename_i found left hfound
      rw [hfirst] at hfound
      cases hfound
      obtain ⟨problem, hproblem⟩ := hfault.refused hkind other _ hother
      rw [hproblem]
      exact ⟨problem, rfl⟩
  complete hempty := by
    obtain ⟨hunks, hcomplete⟩ := hfault.complete hempty
    have halike := (Lines.beginLike_nil behind).append opening
    rw [List.append_nil] at halike
    exact ⟨hunk :: hunks, fun number => readAll_of_read (hread _ halike number) hcomplete⟩
  hollow := hfault.hollow

theorem readAll_error (hread : readAll number lines = .error problem) :
    ∃ opening behind, lines = opening ++ behind ∧
      problem.line? = some (number + opening.length) ∧ Fault problem opening behind := by
  fun_induction readAll number lines with
  | case1 => cases hread
  | case2 number line lines found hfound =>
    obtain rfl := Except.error.inj hread
    exact fault_of_read_error hfound
  | case3 number line lines hunk left hhunk hlength found hrest ih =>
    obtain rfl := Except.error.inj hread
    obtain ⟨taken, rfl, htaken⟩ := read_local hhunk
    obtain ⟨opening, behind, rfl, hline, hfault⟩ := ih hrest
    refine ⟨line :: (taken ++ opening), behind, ?_, ?_, hfault.hunk htaken⟩
    · rw [List.cons_append, List.append_assoc]
    · rw [hline]
      simp only [List.length_cons, List.length_append]
      exact congrArg some (by omega)
  | case4 => cases hread

end Hunk

end Patchwork
