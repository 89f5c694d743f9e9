import Patchwork.Proofs.Patch.ChunkLayout

/-!
# The grammar of patch texts

A text is read as a patch exactly if its lines are laid out as the hunks of the patch.  Main
statement: `Patch.parse_eq_ok_iff`.
-/

namespace Patchwork

open Bytes (trim)

namespace Hunk

/-! ## Hunks -/

section Hunks

variable {number : Nat} {line path : Bytes} {lines behind rest : List Bytes} {hunk : Hunk}
  {layout : Layout}

theorem trim_ne_endOfFile {header marker : Bytes} (hmarker : Marker.Heads marker)
    (hheader : trim header = marker ++ path) : trim header ≠ Marker.endOfFile := by
  intro heq
  exact hmarker.notEnd ⟨path, hheader.symm.trans heq⟩

/-- The first line of a hunk is its header, which is no mark of the end of the file. -/
theorem Layout.Fits.exists_cons (hfits : layout.Fits behind) :
    ∃ header body, layout.lines = header :: body ∧ trim header ≠ Marker.endOfFile := by
  cases layout with
  | add header path additions =>
    exact ⟨header, additions, rfl, trim_ne_endOfFile heads_addFile hfits.1⟩
  | delete header path => exact ⟨header, [], rfl, trim_ne_endOfFile heads_deleteFile hfits⟩
  | update header path move parts =>
    exact ⟨header, _, rfl, trim_ne_endOfFile heads_updateFile hfits.1⟩

theorem isAddition_iff : isAddition line = true ↔ line.head? = some LineKind.additionSign :=
  beq_iff_eq

theorem after?_eq_none_iff {marker : Bytes} :
    Marker.after? marker line = none ↔ ¬ marker <+: line := by
  rw [Marker.after?, ← List.isPrefixOf_iff_prefix]
  split
  · rename_i hmarker
    exact iff_of_false (by rintro ⟨⟩) (not_not.mpr hmarker)
  · rename_i hmarker
    exact iff_of_true rfl hmarker

/-- What follows the header of an update is read where its move and its parts stand. -/
theorem readUpdate_layout {header : Bytes} {move : Option (Bytes × Bytes)} {parts : List Part}
    (hfits : (Layout.update header path move parts).Fits behind)
    (hend : ∀ line ∈ behind.head?, trim line ≠ Marker.endOfFile) (number : Nat) :
    readUpdate path number
      ((move.map Prod.fst).toList ++ parts.flatMap Part.lines ++ behind) =
        .ok (.update path (move.map Prod.snd) (parts.filterMap Part.chunk?), behind) := by
  obtain ⟨-, hmoved, hunmoved, hparts, ⟨layout, hlayout⟩⟩ := hfits
  have hread := Part.readAll_parts hparts hend
  have hmem : layout.chunk ∈ parts.filterMap Part.chunk? :=
    List.mem_filterMap.mpr ⟨.chunk layout, hlayout, rfl⟩
  obtain ⟨chunk, chunks, hchunks⟩ := List.exists_cons_of_ne_nil (List.ne_nil_of_mem hmem)
  rw [hchunks] at hread ⊢
  rw [readUpdate]
  cases move with
  | none =>
    have hhead : (parts.flatMap Part.lines ++ behind).head?.bind destination? = none := by
      rw [Option.bind_eq_none_iff]
      exact fun line hline => after?_eq_none_iff.mpr (hunmoved rfl line hline)
    simp only [Option.map_none, Option.toList_none, List.nil_append, hhead, Option.isSome_none,
      Bool.false_eq_true, if_false, List.drop_zero, hread]
  | some move =>
    obtain ⟨line, moved⟩ := move
    have hhead : destination? line = some moved :=
      Marker.after?_eq_some_iff.mpr (hmoved line moved rfl)
    simp only [Option.map_some, Option.toList_some, List.cons_append, List.nil_append,
      List.head?_cons, Option.bind_some, hhead, Option.isSome_some, if_true, List.drop_one,
      List.tail_cons, hread]

/-- A hunk is read where its layout stands. -/
theorem read_layout (hfits : layout.Fits behind)
    (hend : ∀ line ∈ behind.head?, trim line ≠ Marker.endOfFile) :
    ∃ header body, layout.lines = header :: body ∧
      ∀ number, read number header (body ++ behind) = .ok (layout.hunk, behind) := by
  cases layout with
  | add header path additions =>
    obtain ⟨hheader, hadditions, hbehind⟩ := hfits
    refine ⟨header, additions, rfl, fun number => ?_⟩
    have hpath : Marker.after? Marker.addFile (trim header) = some path :=
      Marker.after?_eq_some_iff.mpr hheader
    have hrun : ∀ line ∈ additions, isAddition line = true :=
      fun line hline => isAddition_iff.mpr (hadditions line hline)
    have hstop : ∀ line ∈ behind.head?, ¬ isAddition line = true :=
      fun line hline => mt isAddition_iff.mp (hbehind line hline)
    simp only [read, hpath, takeWhile_run hrun hstop, dropWhile_run hrun hstop]
    rfl
  | delete header path =>
    have hheader : trim header = Marker.deleteFile ++ path := hfits
    refine ⟨header, [], rfl, fun number => ?_⟩
    have hadd : Marker.after? Marker.addFile (Marker.deleteFile ++ path) = none := rfl
    have hdelete : Marker.after? Marker.deleteFile (Marker.deleteFile ++ path) = some path :=
      Marker.after?_eq_some_iff.mpr rfl
    simp only [read, hheader, hadd, hdelete]
    rfl
  | update header path move parts =>
    refine ⟨header, _, rfl, fun number => ?_⟩
    have hadd : Marker.after? Marker.addFile (Marker.updateFile ++ path) = none := rfl
    have hdelete : Marker.after? Marker.deleteFile (Marker.updateFile ++ path) = none := rfl
    have hupdate : Marker.after? Marker.updateFile (Marker.updateFile ++ path) = some path :=
      Marker.after?_eq_some_iff.mpr rfl
    simp only [read, hfits.1, hadd, hdelete, hupdate]
    exact readUpdate_layout hfits hend number

theorem exists_parts_of_readUpdate (hread : readUpdate path number lines = .ok (hunk, rest)) :
    ∃ (move : Option (Bytes × Bytes)) (parts : List Part),
      lines = (move.map Prod.fst).toList ++ parts.flatMap Part.lines ++ rest ∧
      (∀ line moved, move = some (line, moved) → trim line = Marker.moveTo ++ moved) ∧
      (move = none → ∀ line ∈ (parts.flatMap Part.lines ++ rest).head?,
        ¬ Marker.moveTo <+: trim line) ∧
      Part.Fit true parts rest ∧ (∃ layout, Part.chunk layout ∈ parts) ∧
      hunk = .update path (move.map Prod.snd) (parts.filterMap Part.chunk?) := by
  have hchunk : ∀ parts : List Part, parts.filterMap Part.chunk? ≠ [] →
      ∃ layout, Part.chunk layout ∈ parts := by
    intro parts hne
    obtain ⟨chunk, hmem⟩ := List.exists_mem_of_ne_nil _ hne
    obtain ⟨part, hpart, hpartChunk⟩ := List.mem_filterMap.mp hmem
    cases part with
    | separator blank => cases hpartChunk
    | chunk layout => exact ⟨layout, hpart⟩
  simp only [readUpdate] at hread
  split at hread
  · cases hread
  · cases hread
  · rename_i chunks left hne hchunks
    cases hread
    obtain ⟨parts, hlines, hfit, rfl⟩ := Part.exists_parts_of_readAll hchunks
    cases hdestination : lines.head?.bind destination? with
    | none =>
      rw [hdestination] at hlines
      simp only [Option.isSome_none, Bool.false_eq_true, if_false, List.drop_zero] at hlines
      refine ⟨none, parts, hlines, by rintro _ _ ⟨⟩, fun _ line hline => ?_, hfit, hchunk parts hne, rfl⟩
      rw [← hlines] at hline
      exact after?_eq_none_iff.mp (Option.bind_eq_none_iff.mp hdestination line hline)
    | some moved =>
      obtain ⟨line, hline, hmoved⟩ := Option.bind_eq_some_iff.mp hdestination
      obtain ⟨others, rfl⟩ := List.head?_eq_some_iff.mp hline
      rw [hdestination] at hlines
      simp only [Option.isSome_some, if_true, List.drop_one, List.tail_cons] at hlines
      refine ⟨some (line, moved), parts, ?_, fun other otherMoved hsame => ?_, by rintro ⟨⟩, hfit,
        hchunk parts hne, rfl⟩
      · rw [hlines]
        rfl
      · obtain ⟨rfl, rfl⟩ := Prod.mk.inj (Option.some.inj hsame)
        exact Marker.after?_eq_some_iff.mp hmoved

/-- What is read as a hunk has the layout of one. -/
theorem exists_layout_of_read (hread : read number line lines = .ok (hunk, rest)) :
    ∃ layout : Layout, line :: lines = layout.lines ++ rest ∧ layout.Fits rest ∧
      layout.hunk = hunk := by
  simp only [read] at hread
  split at hread
  · rename_i path hpath
    cases hread
    refine ⟨.add line path (lines.takeWhile isAddition), ?_,
      ⟨Marker.after?_eq_some_iff.mp hpath, fun addition haddition => ?_,
        fun next hnext => mt isAddition_iff.mpr (not_of_mem_head?_dropWhile _ _ next hnext)⟩, rfl⟩
    · rw [Layout.lines, List.cons_append, List.takeWhile_append_dropWhile]
    · exact isAddition_iff.mp (List.mem_takeWhile_imp haddition)
  · split at hread
    · rename_i path hpath
      cases hread
      exact ⟨.delete line path, rfl, Marker.after?_eq_some_iff.mp hpath, rfl⟩
    · split at hread
      · rename_i path hpath
        obtain ⟨move, parts, rfl, hmoved, hunmoved, hfit, hchunk, rfl⟩ :=
          exists_parts_of_readUpdate hread
        exact ⟨.update line path move parts, rfl,
          ⟨Marker.after?_eq_some_iff.mp hpath, hmoved, hunmoved, hfit, hchunk⟩, rfl⟩
      · cases hread

/-- What follows a hunk is no mark of the end of the file. -/
theorem Layout.Fit.unmarked {layouts : List Layout} (hfit : Layout.Fit layouts) :
    ∀ line ∈ (layouts.flatMap Layout.lines).head?, trim line ≠ Marker.endOfFile := by
  cases layouts with
  | nil => exact nofun
  | cons layout layouts =>
    obtain ⟨header, body, hlayout, hmark⟩ := hfit.1.exists_cons
    intro line hline
    rw [List.flatMap_cons, hlayout] at hline
    obtain rfl : header = line := Option.some.inj hline
    exact hmark

/-- Lines are read as hunks exactly if they are laid out as hunks one after another. -/
theorem readAll_eq_ok_iff {hunks : List Hunk} :
    readAll number lines = .ok hunks ↔
      ∃ layouts : List Layout, lines = layouts.flatMap Layout.lines ∧ Layout.Fit layouts ∧
        layouts.map Layout.hunk = hunks := by
  constructor
  · intro hread
    fun_induction readAll number lines generalizing hunks with
    | case1 =>
      cases hread
      exact ⟨[], rfl, trivial, rfl⟩
    | case2 => cases hread
    | case3 => cases hread
    | case4 number line behind hunk left hhunk hlength hunks hrest ih =>
      cases hread
      obtain ⟨layouts, rfl, hfit, rfl⟩ := ih hrest
      obtain ⟨layout, hlines, hfits, rfl⟩ := exists_layout_of_read hhunk
      exact ⟨layout :: layouts, hlines, ⟨hfits, hfit⟩, rfl⟩
  · rintro ⟨layouts, rfl, hfit, rfl⟩
    induction layouts generalizing number with
    | nil =>
      rw [List.flatMap_nil, readAll]
      rfl
    | cons layout layouts ih =>
      obtain ⟨hfits, hrest⟩ := hfit
      obtain ⟨header, body, hlines, hread⟩ := read_layout hfits hrest.unmarked
      rw [List.flatMap_cons, hlines, List.cons_append]
      exact readAll_of_read (hread number) fun number => ih hrest

end Hunks

end Hunk

/-! ## Envelopes -/

namespace Envelope

variable {lines inner body : List Bytes}

theorem Delimits.tail_dropLast (hdelimits : Delimits body lines) :
    lines.tail.dropLast = body := by
  obtain ⟨opening, closing, rfl, -, -⟩ := hdelimits
  rw [List.tail_cons, List.dropLast_concat]

theorem check_eq_ok_iff : check lines = .ok () ↔ ∃ body, Delimits body lines := by
  rw [check]
  constructor
  · intro hcheck
    split at hcheck
    · cases hcheck
    · rename_i hhead
      split at hcheck
      · cases hcheck
      · rename_i hlast
        rw [not_not] at hhead
        rw [not_or, not_not] at hlast
        obtain ⟨opening, hopening, hbegin⟩ := Option.map_eq_some_iff.mp hhead
        obtain ⟨others, rfl⟩ := List.head?_eq_some_iff.mp hopening
        have hne : others ≠ [] := by
          rintro rfl
          exact hlast.1 Nat.one_lt_two
        obtain ⟨closing, hclosing, hend⟩ := Option.map_eq_some_iff.mp hlast.2
        rw [List.getLast?_cons_of_ne_nil hne] at hclosing
        obtain ⟨body, rfl⟩ := List.getLast?_eq_some_iff.mp hclosing
        exact ⟨body, opening, closing, rfl, hbegin, hend⟩
  · rintro ⟨body, opening, closing, rfl, hbegin, hend⟩
    have hhead : (opening :: (body ++ [closing])).head?.map trim = some Marker.beginPatch :=
      congrArg some hbegin
    have hlast : (opening :: (body ++ [closing])).getLast?.map trim = some Marker.endPatch := by
      rw [← List.cons_append, List.getLast?_concat, Option.map_some, hend]
    have hlength : ¬ (opening :: (body ++ [closing])).length < 2 := by
      rw [List.length_cons, List.length_append, List.length_singleton]
      omega
    rw [if_neg (not_not.mpr hhead), if_neg (not_or.mpr ⟨hlength, not_not.mpr hlast⟩)]

/-- A here-document is not taken for a patch without one. -/
theorem not_delimits_of_opener {opener : Bytes} (hopener : trim opener ∈ openers) :
    ¬ Delimits body (opener :: lines) := by
  rintro ⟨opening, closing, hlines, hbegin, -⟩
  obtain ⟨rfl, -⟩ := List.cons.inj hlines
  rw [hbegin] at hopener
  exact absurd hopener (by decide)

theorem isHeredoc_iff :
    isHeredoc lines = true ↔
      4 ≤ lines.length ∧ ∃ opener inner closer, lines = opener :: (inner ++ [closer]) ∧
        trim opener ∈ openers ∧ text "EOF" <:+ trim closer := by
  rw [isHeredoc, Bool.and_eq_true_iff, Bool.and_eq_true_iff, decide_eq_true_iff,
    Option.any_eq_true, Option.any_eq_true, and_assoc]
  refine and_congr_right fun hlength => ?_
  constructor
  · rintro ⟨⟨opener, hhead, hopener⟩, closer, hlast, hcloser⟩
    obtain ⟨others, rfl⟩ := List.head?_eq_some_iff.mp hhead
    have hne : others ≠ [] := by
      rintro rfl
      exact absurd hlength (by simp)
    rw [List.getLast?_cons_of_ne_nil hne] at hlast
    obtain ⟨inner, rfl⟩ := List.getLast?_eq_some_iff.mp hlast
    exact ⟨opener, inner, closer, rfl, List.contains_iff_mem.mp hopener,
      List.isSuffixOf_iff_suffix.mp hcloser⟩
  · rintro ⟨opener, inner, closer, rfl, hopener, hcloser⟩
    refine ⟨⟨opener, rfl, List.contains_iff_mem.mpr hopener⟩, closer, ?_,
      List.isSuffixOf_iff_suffix.mpr hcloser⟩
    rw [← List.cons_append, List.getLast?_concat]

/-- The lines are unwrapped to lines with a body between markers exactly if they enclose it. -/
theorem encloses_iff :
    Encloses body lines ↔ ∃ inner, unwrap lines = .ok inner ∧ inner.tail.dropLast = body := by
  rw [unwrap]
  constructor
  · rintro (hdelimits | ⟨opener, inner, closer, rfl, hopener, hcloser, hdelimits⟩)
    · rw [check_eq_ok_iff.mpr ⟨body, hdelimits⟩]
      exact ⟨lines, rfl, hdelimits.tail_dropLast⟩
    · have hheredoc : isHeredoc (opener :: (inner ++ [closer])) = true := by
        refine isHeredoc_iff.mpr ⟨?_, opener, inner, closer, rfl, hopener, hcloser⟩
        obtain ⟨opening, closing, rfl, -, -⟩ := hdelimits
        simp
      cases hcheck : check (opener :: (inner ++ [closer])) with
      | ok passed =>
        obtain ⟨other, hother⟩ := check_eq_ok_iff.mp hcheck
        exact absurd hother (not_delimits_of_opener hopener)
      | error problem =>
        simp only [hheredoc, if_true, List.tail_cons, List.dropLast_concat,
          check_eq_ok_iff.mpr ⟨body, hdelimits⟩]
        exact ⟨inner, rfl, hdelimits.tail_dropLast⟩
  · rintro ⟨inner, hunwrap, rfl⟩
    cases hcheck : check lines with
    | ok passed =>
      rw [hcheck] at hunwrap
      obtain rfl : lines = inner := Except.ok.inj hunwrap
      obtain ⟨body, hdelimits⟩ := check_eq_ok_iff.mp hcheck
      rw [hdelimits.tail_dropLast]
      exact .inl hdelimits
    | error problem =>
      simp only [hcheck] at hunwrap
      split at hunwrap
      · rename_i hheredoc
        obtain ⟨-, opener, wrapped, closer, rfl, hopener, hcloser⟩ := isHeredoc_iff.mp hheredoc
        rw [List.tail_cons, List.dropLast_concat] at hunwrap
        cases hinner : check wrapped with
        | error problem =>
          rw [hinner] at hunwrap
          cases hunwrap
        | ok passed =>
          rw [hinner] at hunwrap
          obtain rfl : wrapped = inner := Except.ok.inj hunwrap
          obtain ⟨body, hdelimits⟩ := check_eq_ok_iff.mp hinner
          rw [hdelimits.tail_dropLast]
          exact .inr ⟨opener, wrapped, closer, rfl, hopener, hcloser, hdelimits⟩
      · cases hunwrap

end Envelope

namespace Patch

/-- A text is read as a patch exactly if its lines are laid out as the hunks of the patch. -/
theorem parse_eq_ok_iff {source : Bytes} {patch : Patch} :
    parse source = .ok patch ↔
      ∃ layouts, LaidOut layouts source ∧ layouts.map Hunk.Layout.hunk = patch := by
  have hparse : parse source = .ok patch ↔
      ∃ inner, Envelope.unwrap (Lines.ofPatch (trim source)) = .ok inner ∧
        Hunk.readAll 2 inner.tail.dropLast = .ok patch := by
    rw [parse]
    split
    · rename_i hempty
      rw [hempty]
      refine iff_of_false (by rintro ⟨⟩) ?_
      rintro ⟨inner, hunwrap, -⟩
      have hnone : Envelope.unwrap (Lines.ofPatch []) = .error .missingBegin := by decide
      rw [hnone] at hunwrap
      cases hunwrap
    · cases hunwrap : Envelope.unwrap (Lines.ofPatch (trim source)) with
      | error problem => simp
      | ok inner => simp [readBody]
  rw [hparse]
  constructor
  · rintro ⟨inner, hunwrap, hread⟩
    obtain ⟨layouts, hlines, hfit, rfl⟩ := Hunk.readAll_eq_ok_iff.mp hread
    exact ⟨layouts, ⟨Envelope.encloses_iff.mpr ⟨inner, hunwrap, hlines⟩, hfit⟩, rfl⟩
  · rintro ⟨layouts, ⟨hencloses, hfit⟩, rfl⟩
    obtain ⟨inner, hunwrap, hbody⟩ := Envelope.encloses_iff.mp hencloses
    exact ⟨inner, hunwrap, Hunk.readAll_eq_ok_iff.mpr ⟨layouts, hbody, hfit, rfl⟩⟩

end Patch

end Patchwork
