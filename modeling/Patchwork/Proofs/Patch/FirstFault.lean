import Patchwork.Proofs.Patch.Fault

/-!
# The line at fault

The error that a text is refused with names the first line that no patch has there: the lines in
front of it begin the body of some patch, and with it they begin that of none.  Where an update has
no chunks, it names the header of the update, and the lines in front are the body of a patch.  Main
statement: `Patch.parse_fault`.
-/

namespace Patchwork

open Bytes (trim)

namespace Envelope

variable {lines inner : List Bytes} {problem : Patch.Error}

/-! ## Envelopes -/

/-- The markers are looked for at the ends of some lines: of all, or of those in a here-document. -/
theorem exists_unwrap_eq (lines : List Bytes) :
    ∃ inner, unwrap lines = (check inner).map fun _ => inner := by
  rw [unwrap]
  split
  · rename_i hcheck
    exact ⟨lines, by rw [hcheck]; rfl⟩
  · rename_i found hcheck
    split
    · exact ⟨lines.tail.dropLast, rfl⟩
    · exact ⟨lines, by rw [hcheck]; rfl⟩

theorem check_of_unwrap (hunwrap : unwrap lines = .ok inner) : check inner = .ok () := by
  obtain ⟨looked, hlooked⟩ := exists_unwrap_eq lines
  rw [hlooked] at hunwrap
  cases hcheck : check looked with
  | error found =>
    rw [hcheck] at hunwrap
    cases hunwrap
  | ok passed =>
    rw [hcheck] at hunwrap
    obtain rfl := Except.ok.inj hunwrap
    exact hcheck

theorem line?_of_check (hcheck : check lines = .error problem) : problem.line? = none := by
  rw [check] at hcheck
  split at hcheck
  · obtain rfl := Except.error.inj hcheck
    rfl
  · split at hcheck
    · obtain rfl := Except.error.inj hcheck
      rfl
    · cases hcheck

/-- Where a marker is missing, no line is at fault. -/
theorem line?_of_unwrap (hunwrap : unwrap lines = .error problem) : problem.line? = none := by
  obtain ⟨looked, hlooked⟩ := exists_unwrap_eq lines
  rw [hlooked] at hunwrap
  cases hcheck : check looked with
  | error found =>
    rw [hcheck] at hunwrap
    obtain rfl := Except.error.inj hunwrap
    exact line?_of_check hcheck
  | ok passed =>
    rw [hcheck] at hunwrap
    cases hunwrap

end Envelope

namespace Patch

variable {source : Bytes} {body : List Bytes}

/-! ## Bodies -/

/-- The body of the text as it is unwrapped: the lines between the markers. -/
def HasBody (source : Bytes) (body : List Bytes) : Prop :=
  ∃ lines, Envelope.unwrap (Lines.ofPatch (trim source)) = .ok lines ∧
    Envelope.Delimits body lines

/-- The lines are the body of some text that is read as a patch. -/
def Accepted (body : List Bytes) : Prop :=
  ∃ source patch, parse source = .ok patch ∧ HasBody source body

theorem parse_of_unwrap {lines : List Bytes}
    (hunwrap : Envelope.unwrap (Lines.ofPatch (trim source)) = .ok lines) :
    parse source = readBody lines := by
  have hne : trim source ≠ [] := by
    intro hempty
    have hnone : Envelope.unwrap (Lines.ofPatch []) = .error .missingBegin := by decide
    rw [hempty, hnone] at hunwrap
    cases hunwrap
  rw [parse, if_neg hne, hunwrap]

theorem HasBody.parse_eq (hbody : HasBody source body) : parse source = Hunk.readAll 2 body := by
  obtain ⟨lines, hunwrap, hdelimits⟩ := hbody
  rw [parse_of_unwrap hunwrap, readBody, hdelimits.tail_dropLast]

/-- The text with the lines between its markers. -/
def enclose (body : List Bytes) : Bytes :=
  (Marker.beginPatch :: body).flatMap (fun line => line ++ [Bytes.carriageReturn, Bytes.newline]) ++
    Marker.endPatch

theorem hasBody_enclose (hbody : Lines.Unbroken body) : HasBody (enclose body) body := by
  have htrim : trim (enclose body) = enclose body := by
    apply Bytes.trim_eq_self
    · exact Bool.false_ne_true
    · rw [enclose, List.getLast?_append_of_ne_nil _ (by decide)]
      decide
  have hlines : Lines.ofPatch (trim (enclose body)) =
      Marker.beginPatch :: (body ++ [Marker.endPatch]) := by
    have hopen : Lines.Unbroken (Marker.beginPatch :: body) :=
      List.forall_mem_cons.mpr ⟨by decide, hbody⟩
    rw [htrim, enclose, Lines.ofPatch_concat hopen (by decide) (by decide)]
    rfl
  have hdelimits : Envelope.Delimits body (Marker.beginPatch :: (body ++ [Marker.endPatch])) :=
    ⟨_, _, rfl, by decide, by decide⟩
  refine ⟨_, ?_, hdelimits⟩
  rw [hlines, Envelope.unwrap, Envelope.check_eq_ok_iff.mpr ⟨body, hdelimits⟩]

/-- Whatever is read as hunks is the body of some text, unless a line feed stands in a line. -/
theorem accepted_of_readAll {hunks : List Hunk} (hbody : Lines.Unbroken body)
    (hread : Hunk.readAll 2 body = .ok hunks) : Accepted body := by
  have henclosed := hasBody_enclose hbody
  exact ⟨enclose body, hunks, henclosed.parse_eq.trans hread, henclosed⟩

theorem not_accepted_of_readAll {problem : Error} (hread : Hunk.readAll 2 body = .error problem) :
    ¬ Accepted body := by
  rintro ⟨source, patch, hparse, hbody⟩
  rw [hbody.parse_eq, hread] at hparse
  cases hparse

theorem HasBody.unbroken (hbody : HasBody source body) : Lines.Unbroken body := by
  obtain ⟨lines, hunwrap, opening, closing, rfl, -, -⟩ := hbody
  intro line hline
  have hmem : line ∈ opening :: (body ++ [closing]) :=
    List.mem_cons_of_mem _ (List.mem_append_left _ hline)
  exact Lines.newline_notMem_of_mem_ofPatch (Envelope.mem_of_unwrap hunwrap line hmem)

/-- A text whose markers are missing is refused with no line, and any other one for its body. -/
theorem exists_body_of_error {problem : Error} {number : Nat}
    (hparse : parse source = .error problem) (hline : problem.line? = some number) :
    ∃ lines body, Envelope.unwrap (Lines.ofPatch (trim source)) = .ok lines ∧
      Envelope.Delimits body lines ∧ Hunk.readAll 2 body = .error problem := by
  cases hunwrap : Envelope.unwrap (Lines.ofPatch (trim source)) with
  | error found =>
    rw [parse, hunwrap] at hparse
    split at hparse
    · obtain rfl := Except.error.inj hparse
      cases hline
    · obtain rfl := Except.error.inj hparse
      rw [Envelope.line?_of_unwrap hunwrap] at hline
      cases hline
  | ok lines =>
    obtain ⟨body, hdelimits⟩ := Envelope.check_eq_ok_iff.mp (Envelope.check_of_unwrap hunwrap)
    exact ⟨lines, body, rfl, hdelimits,
      (HasBody.parse_eq ⟨lines, hunwrap, hdelimits⟩).symm.trans hparse⟩

/-! ## The line at fault -/

/-- Some accepted body begins with the lines in front, but none goes on with the line behind them.
Where no line is behind them, the lines in front are no accepted body themselves. -/
structure FirstFault (opening behind : List Bytes) : Prop where
  viable : ∃ more, Accepted (opening ++ more)
  impossible : ∀ line ∈ behind.head?, ∀ more, ¬ Accepted (opening ++ line :: more)
  unfinished : behind = [] → ¬ Accepted opening

/-- The lines in front are an accepted body, and behind them stands an update of the file at the
path that has no chunk. -/
structure HollowUpdate (path : Bytes) (opening behind : List Bytes) : Prop where
  accepted : Accepted opening
  hollow : ∃ header rest, behind = header :: rest ∧ trim header = Marker.updateFile ++ path ∧
    Hunk.Hollow rest

/-- Lines are counted from the one that opens the patch.  The error names the first line that no
accepted patch has there, or the header of an update without chunks. -/
theorem parse_fault (source : Bytes) (problem : Error) (number : Nat)
    (hparse : parse source = .error problem) (hline : problem.line? = some number) :
    ∃ lines opening behind, Envelope.unwrap (Lines.ofPatch (trim source)) = .ok lines ∧
      Envelope.Delimits (opening ++ behind) lines ∧ opening.length + 2 = number ∧
      2 ≤ number ∧ number ≤ lines.length ∧
      (¬ problem.IsEmptyUpdate → FirstFault opening behind) ∧
      ∀ path, problem = .emptyUpdate number path → HollowUpdate path opening behind := by
  obtain ⟨lines, body, hunwrap, hdelimits, hread⟩ := exists_body_of_error hparse hline
  obtain ⟨opening, behind, rfl, hfaultLine, hfault⟩ := Hunk.readAll_error hread
  have hunbroken : Lines.Unbroken (opening ++ behind) :=
    HasBody.unbroken ⟨lines, hunwrap, hdelimits⟩
  have hopening : Lines.Unbroken opening := fun line hmem =>
    hunbroken line (List.mem_append_left _ hmem)
  have hnumber : opening.length + 2 = number := by
    rw [hline] at hfaultLine
    exact (Nat.add_comm _ _).trans (Option.some.inj hfaultLine).symm
  have hlength : lines.length = opening.length + behind.length + 2 := by
    obtain ⟨first, last, rfl, -, -⟩ := hdelimits
    simp only [List.length_cons, List.length_append, List.length_nil]
  refine ⟨lines, opening, behind, hunwrap, hdelimits, hnumber, by omega, by omega, fun hkind => ?_,
    fun path hempty => ?_⟩
  · obtain ⟨more, hunks, hmore, -, hviable⟩ := hfault.viable hkind
    refine ⟨⟨more, ?_⟩, fun line hmem more => ?_, fun hnil => ?_⟩
    · exact accepted_of_readAll (List.forall_mem_append.mpr ⟨hopening, hmore⟩) (hviable 2)
    · obtain ⟨found, hfound⟩ := hfault.refused hkind (line :: more) 2 (Option.mem_def.mp hmem).symm
      exact not_accepted_of_readAll hfound
    · obtain ⟨found, hfound⟩ := hfault.refused hkind [] 2 (by rw [hnil])
      rw [List.append_nil] at hfound
      exact not_accepted_of_readAll hfound
  · obtain ⟨hunks, hcomplete⟩ := hfault.complete ⟨number, path, hempty⟩
    exact ⟨accepted_of_readAll hopening (hcomplete 2), hfault.hollow number path hempty⟩

/-- A line behind a chunk that cannot begin another one. -/
def strayLine : Bytes :=
  text "*** Begin Patch\n*** Update File: f\n@@\n+a\n\t\nx\n*** End Patch"

/-- A second hunk that has a move, but no chunk. -/
def moveOnly : Bytes :=
  text "*** Begin Patch\n*** Delete File: d\n*** Update File: f\n*** Move to: g\n\n*** End Patch"

theorem parse_fault_strayLine_moveOnly :
    parse strayLine = .error (.missingContextMarker 6 (text "x")) ∧
    parse moveOnly = .error (.emptyUpdate 3 (text "f")) ∧
    (∃ lines opening behind, Envelope.unwrap (Lines.ofPatch (trim strayLine)) = .ok lines ∧
      Envelope.Delimits (opening ++ behind) lines ∧ opening.length + 2 = 6 ∧
      FirstFault opening behind) ∧
    ∃ lines opening behind, Envelope.unwrap (Lines.ofPatch (trim moveOnly)) = .ok lines ∧
      Envelope.Delimits (opening ++ behind) lines ∧ opening.length + 2 = 3 ∧
      HollowUpdate (text "f") opening behind := by
  have hstray : parse strayLine = .error (.missingContextMarker 6 (text "x")) := by decide +kernel
  have hmove : parse moveOnly = .error (.emptyUpdate 3 (text "f")) := by decide +kernel
  refine ⟨hstray, hmove, ?_, ?_⟩
  · obtain ⟨lines, opening, behind, hunwrap, hdelimits, hlength, -, -, hfault, -⟩ :=
      parse_fault strayLine _ 6 hstray rfl
    exact ⟨lines, opening, behind, hunwrap, hdelimits, hlength, hfault nofun⟩
  · obtain ⟨lines, opening, behind, hunwrap, hdelimits, hlength, -, -, -, hhollow⟩ :=
      parse_fault moveOnly _ 3 hmove rfl
    exact ⟨lines, opening, behind, hunwrap, hdelimits, hlength, hhollow _ rfl⟩

end Patch

end Patchwork
