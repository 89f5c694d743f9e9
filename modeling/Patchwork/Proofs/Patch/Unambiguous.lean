import Patchwork.Proofs.Patch.Grammar

/-!
# No text has two layouts

The readers of a part find the same lines behind it, and the same meaning, whichever layout its
lines are given; what is left is to tell the lines of the part itself from each other.  Main
statement: `Patch.parse_grammar`.
-/

namespace Patchwork

open Bytes (trim)

namespace Chunk

variable {first : Bool} {line : Bytes} {behind rest : List Bytes} {layout other : Layout}

theorem Marks.unique {anchor content : Option Bytes} (hanchor : Marks anchor line)
    (hcontent : Marks content line) : anchor = content := by
  rw [← header?_eq_some_iff] at hanchor hcontent
  exact Option.some.inj (hanchor.symm.trans hcontent)

/-- A chunk without a marker does not begin like one that has a marker. -/
theorem Layout.Fits.lines_ne {marker : Bytes × Option Bytes} (hfits : layout.Fits first behind)
    (hother : other.Fits first rest) (hnone : layout.marker = none)
    (hsome : other.marker = some marker) : layout.lines ++ behind ≠ other.lines ++ rest := by
  obtain ⟨line, anchor⟩ := marker
  obtain ⟨change, changes, hchanges⟩ := List.exists_cons_of_ne_nil hfits.nonempty
  rw [Layout.lines, Layout.lines, hnone, hsome, hchanges]
  intro hsame
  obtain ⟨rfl, -⟩ := List.cons.inj hsame
  have hunmarked := (hfits.unmarked hnone).2 change (by rw [hchanges]; rfl)
  exact hunmarked.2 anchor (hother.marker change anchor hsome)

/-- The first line tells which marker a chunk has, if any. -/
theorem Layout.Fits.marker_eq (hfits : layout.Fits first behind) (hother : other.Fits first rest)
    (hlines : layout.lines ++ behind = other.lines ++ rest) : layout.marker = other.marker := by
  cases hmarker : layout.marker with
  | none =>
    cases hotherMarker : other.marker with
    | none => rfl
    | some marker => exact absurd hlines (hfits.lines_ne hother hmarker hotherMarker)
  | some marker =>
    cases hotherMarker : other.marker with
    | none => exact absurd hlines.symm (hother.lines_ne hfits hotherMarker hmarker)
    | some otherMarker =>
      obtain ⟨line, anchor⟩ := marker
      obtain ⟨otherLine, content⟩ := otherMarker
      rw [Layout.lines, Layout.lines, hmarker, hotherMarker] at hlines
      obtain ⟨rfl, -⟩ := List.cons.inj hlines
      obtain rfl := (hfits.marker _ _ hmarker).unique (hother.marker _ _ hotherMarker)
      rfl

/-- Lines have one layout as a chunk. -/
theorem Layout.Fits.unique (hfits : layout.Fits first behind) (hother : other.Fits first rest)
    (hend : layout.Unmarked behind) (hotherEnd : other.Unmarked rest)
    (hlines : layout.lines ++ behind = other.lines ++ rest) : layout = other ∧ behind = rest := by
  have hmarker := hfits.marker_eq hother hlines
  have hbehind : behind = rest := by
    have hread := read_layout hfits hend 0
    rw [hlines, read_layout hother hotherEnd 0] at hread
    exact (Prod.mk.inj (Except.ok.inj hread)).2.symm
  subst hbehind
  have hown := List.append_cancel_right hlines
  rw [Layout.lines, Layout.lines, hmarker] at hown
  have hbody := congrArg (· ++ behind) (List.append_cancel_left hown)
  simp only [List.append_assoc] at hbody
  have hchanges : layout.changes = other.changes := by
    rw [← takeWhile_run hfits.changes hfits.longest, hbody,
      takeWhile_run hother.changes hother.longest]
  rw [hchanges] at hbody
  have hmark : layout.endMark = other.endMark := by
    have hheads := congrArg List.head? (List.append_cancel_right (List.append_cancel_left hbody))
    rwa [Option.head?_toList, Option.head?_toList] at hheads
  refine ⟨?_, rfl⟩
  calc layout = ⟨layout.marker, layout.changes, layout.endMark⟩ := rfl
    _ = ⟨other.marker, other.changes, other.endMark⟩ := by rw [hmarker, hchanges, hmark]

end Chunk

namespace Hunk

namespace Part

variable {first : Bool} {behind : List Bytes} {parts others : List Part}

theorem Fit.ne_nil {part : Part} (hfit : Fit first (part :: parts) behind) :
    (part :: parts).flatMap Part.lines ≠ [] := by
  rw [List.flatMap_cons]
  apply List.append_ne_nil_of_left_ne_nil
  cases part with
  | separator line => exact List.cons_ne_nil _ _
  | chunk layout =>
    obtain ⟨line, tail, hlines, -⟩ := hfit.1.exists_cons
    rw [Part.lines, hlines]
    exact List.cons_ne_nil _ _

/-- A separator is no first line of a chunk. -/
theorem Fit.separator_ne {line : Bytes} {layout : Chunk.Layout} {rest : List Bytes}
    (hblank : trim line = []) (hfits : layout.Fits first rest) (below : List Bytes) :
    line :: below ≠ layout.lines ++ rest := by
  obtain ⟨opening, tail, hlines, hvisible, -⟩ := hfits.exists_cons
  rw [hlines]
  intro hsame
  obtain ⟨rfl, -⟩ := List.cons.inj hsame
  exact hvisible hblank

/-- Lines have one layout as the parts of an update. -/
theorem Fit.unique (hfit : Fit first parts behind) (hothers : Fit first others behind)
    (hend : ∀ line ∈ behind.head?, trim line ≠ Marker.endOfFile)
    (hlines : parts.flatMap Part.lines = others.flatMap Part.lines) : parts = others := by
  induction parts generalizing first others with
  | nil =>
    cases others with
    | nil => rfl
    | cons part others => exact absurd hlines.symm hothers.ne_nil
  | cons part parts ih =>
    cases others with
    | nil => exact absurd hlines hfit.ne_nil
    | cons other others =>
      have hbehind : part.lines ++ (parts.flatMap Part.lines ++ behind) =
          other.lines ++ (others.flatMap Part.lines ++ behind) := by
        rw [← List.append_assoc, ← List.append_assoc, ← List.flatMap_cons, ← List.flatMap_cons,
          hlines]
      cases part with
      | separator line =>
        cases other with
        | separator otherLine =>
          obtain ⟨rfl, hrest⟩ := List.cons.inj hlines
          rw [ih hfit.2 hothers.2 hrest]
        | chunk layout => exact absurd hbehind (Fit.separator_ne hfit.1 hothers.1 _)
      | chunk layout =>
        cases other with
        | separator line => exact absurd hbehind.symm (Fit.separator_ne hothers.1 hfit.1 _)
        | chunk otherLayout =>
          obtain ⟨rfl, hrest⟩ := hfit.1.unique hothers.1 (fun _ => hfit.2.unmarked hend)
            (fun _ => hothers.2.unmarked hend) hbehind
          rw [ih hfit.2 hothers.2 (List.append_cancel_right hrest)]

end Part

namespace Layout

variable {layout other : Layout} {behind rest : List Bytes} {layouts others : List Layout}

/-- Lines have one layout as a hunk. -/
theorem Fits.unique (hfits : layout.Fits behind) (hother : other.Fits rest)
    (hend : ∀ line ∈ behind.head?, trim line ≠ Marker.endOfFile)
    (hotherEnd : ∀ line ∈ rest.head?, trim line ≠ Marker.endOfFile)
    (hlines : layout.lines ++ behind = other.lines ++ rest) : layout = other ∧ behind = rest := by
  have hmeaning : layout.hunk = other.hunk ∧ behind = rest := by
    obtain ⟨header, body, hlayout, hread⟩ := read_layout hfits hend
    obtain ⟨otherHeader, otherBody, hotherLayout, hotherRead⟩ := read_layout hother hotherEnd
    rw [hlayout, hotherLayout, List.cons_append, List.cons_append] at hlines
    obtain ⟨rfl, hbody⟩ := List.cons.inj hlines
    have hsame := hread 0
    rw [hbody, hotherRead 0] at hsame
    obtain ⟨hhunk, hbehind⟩ := Prod.mk.inj (Except.ok.inj hsame)
    exact ⟨hhunk.symm, hbehind.symm⟩
  obtain ⟨hhunk, rfl⟩ := hmeaning
  refine ⟨?_, rfl⟩
  have hown := List.append_cancel_right hlines
  cases layout with
  | add header path additions =>
    cases other with
    | add otherHeader otherPath otherAdditions =>
      obtain ⟨rfl, -⟩ := Hunk.add.inj hhunk
      obtain ⟨rfl, rfl⟩ := List.cons.inj hown
      rfl
    | delete | update => cases hhunk
  | delete header path =>
    cases other with
    | delete otherHeader otherPath =>
      obtain rfl := Hunk.delete.inj hhunk
      obtain ⟨rfl, -⟩ := List.cons.inj hown
      rfl
    | add | update => cases hhunk
  | update header path move parts =>
    cases other with
    | update otherHeader otherPath otherMove otherParts =>
      obtain ⟨rfl, hmoved, -⟩ := Hunk.update.inj hhunk
      obtain ⟨rfl, hbody⟩ := List.cons.inj hown
      obtain ⟨-, -, hunmoved, hparts, -⟩ := hfits
      obtain ⟨-, -, hotherUnmoved, hotherParts, -⟩ := hother
      cases move with
      | none =>
        cases otherMove with
        | none => rw [hparts.unique hotherParts hend hbody]
        | some otherMove => cases hmoved
      | some move =>
        cases otherMove with
        | none => cases hmoved
        | some otherMove =>
          obtain ⟨line, moved⟩ := move
          obtain ⟨otherLine, otherMoved⟩ := otherMove
          obtain rfl : moved = otherMoved := Option.some.inj hmoved
          obtain ⟨rfl, hrest⟩ := List.cons.inj hbody
          rw [hparts.unique hotherParts hend hrest]
    | add | delete => cases hhunk

/-- Lines have one layout as hunks. -/
theorem Fit.unique (hfit : Fit layouts) (hothers : Fit others)
    (hlines : layouts.flatMap Layout.lines = others.flatMap Layout.lines) : layouts = others := by
  induction layouts generalizing others with
  | nil =>
    cases others with
    | nil => rfl
    | cons other others =>
      obtain ⟨header, body, hother, -⟩ := hothers.1.exists_cons
      rw [List.flatMap_cons, hother] at hlines
      cases hlines
  | cons layout layouts ih =>
    cases others with
    | nil =>
      obtain ⟨header, body, hlayout, -⟩ := hfit.1.exists_cons
      rw [List.flatMap_cons, hlayout] at hlines
      cases hlines
    | cons other others =>
      rw [List.flatMap_cons, List.flatMap_cons] at hlines
      obtain ⟨rfl, hrest⟩ := hfit.1.unique hothers.1 hfit.2.unmarked hothers.2.unmarked hlines
      rw [ih hfit.2 hothers.2 hrest]

end Layout

end Hunk

namespace Patch

/-- The parser accepts exactly the texts that have a layout, and reads them as the hunks of it; no
text has two layouts. -/
theorem parse_grammar (source : Bytes) :
    (∀ patch, parse source = .ok patch ↔
      ∃ layouts, LaidOut layouts source ∧ layouts.map Hunk.Layout.hunk = patch) ∧
    ∀ layouts others, LaidOut layouts source → LaidOut others source → layouts = others := by
  refine ⟨fun patch => parse_eq_ok_iff, fun layouts others hlayouts hothers => ?_⟩
  obtain ⟨inner, hunwrap, hbody⟩ := Envelope.encloses_iff.mp hlayouts.1
  obtain ⟨otherInner, hotherUnwrap, hotherBody⟩ := Envelope.encloses_iff.mp hothers.1
  rw [hunwrap] at hotherUnwrap
  obtain rfl := Except.ok.inj hotherUnwrap
  exact hlayouts.2.unique hothers.2 (hbody.symm.trans hotherBody)

/-- A patch in a here-document, with lines that could be taken for several parts: a move behind a
blank, an empty line and a marker in front of a chunk, and an empty line inside one. -/
def hereDocument : Bytes :=
  text "<<EOF\n*** Begin Patch\n  *** Update File: f\n *** Move to: g\n\n @@\n-a\n\n" ++
    text "*** End of File\n\t\n@@ b\n+c\n*** Add File: h\n+d\n*** Delete File: i\n" ++
    text "*** End Patch\nEOF\n"

/-- The hunks of the here-document. -/
def hereHunks : Patch :=
  [.update (text "f") (some (text "g"))
      [⟨none, [text "a", []], [[]], true⟩, ⟨some (text "b"), [], [text "c"], false⟩],
    .add (text "h") (text "d\n"), .delete (text "i")]

theorem parse_grammar_hereDocument :
    ∃ layouts, LaidOut layouts hereDocument ∧ layouts.map Hunk.Layout.hunk = hereHunks ∧
      ∀ others, LaidOut others hereDocument → layouts = others := by
  obtain ⟨hparse, hunique⟩ := parse_grammar hereDocument
  obtain ⟨layouts, hlaidOut, hhunks⟩ := (hparse hereHunks).mp (by decide +kernel)
  exact ⟨layouts, hlaidOut, hhunks, fun others hothers => hunique _ _ hlaidOut hothers⟩

end Patch

end Patchwork
