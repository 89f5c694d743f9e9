import Patchwork.Patch.Basic
import Patchwork.Patch.Error

/-!
# Reading patches

`Patch.parse` reads a text as a patch.  Readers of parts take the lines that are left and the
number of the first of them, and give back what they read with the lines behind it; each takes
at least one line, which is why the loops over hunks and chunks end.
-/

namespace Patchwork

open Bytes (trim)

namespace Envelope

/-- The lines stand between the markers that open and close a patch. -/
def check (lines : List Bytes) : Except Patch.Error Unit :=
  if lines.head?.map trim ≠ some Marker.beginPatch then .error .missingBegin
  else if lines.length < 2 ∨ lines.getLast?.map trim ≠ some Marker.endPatch then
    .error .missingEnd
  else .ok ()

/-- The lines that may open a shell here-document around a patch. -/
def openers : List Bytes :=
  [text "<<EOF", text "<<'EOF'", text "<<\"EOF\""]

/-- The lines are wrapped in a shell here-document. -/
def isHeredoc (lines : List Bytes) : Bool :=
  4 ≤ lines.length &&
    lines.head?.any (fun line => openers.contains (trim line)) &&
    lines.getLast?.any fun line => (text "EOF").isSuffixOf (trim line)

/-- The lines of a patch from the opening to the closing marker, without a here-document
around them. -/
def unwrap (lines : List Bytes) : Except Patch.Error (List Bytes) :=
  match check lines with
  | .ok () => .ok lines
  | .error problem =>
    if isHeredoc lines then
      let inner := lines.tail.dropLast
      (check inner).map fun _ => inner
    else .error problem

end Envelope

namespace Chunk

/-- The anchor that a chunk's first line gives: `none` if the line is no chunk marker. -/
def header? (line : Bytes) : Option (Option Bytes) :=
  if trim line = Marker.chunk then some none
  else (Marker.after? Marker.anchoredChunk (trim line)).map some

/-- The chunk that an anchor, operations and an end-of-file mark make up. -/
def ofOperations (anchor : Option Bytes) (operations : List Operation) (atEnd : Bool) : Chunk where
  anchor
  oldLines := operations.filterMap Operation.old?
  newLines := operations.filterMap Operation.new?
  atEnd

/-- Closes a chunk behind its operations: an end-of-file mark there belongs to it. -/
def close (anchor : Option Bytes) (operations : List Operation) :
    List Bytes → Chunk × List Bytes
  | [] => (ofOperations anchor operations false, [])
  | line :: rest =>
    if LineKind.ofLine line = .endOfFile then (ofOperations anchor operations true, rest)
    else (ofOperations anchor operations false, line :: rest)

/-- Reads the operations of a chunk, at least one, and closes it. -/
def readBody (anchor : Option Bytes) (number : Nat) (lines : List Bytes) :
    Except Patch.Error (Chunk × List Bytes) :=
  match Operation.takeRun lines with
  | (operation :: operations, rest) => .ok (close anchor (operation :: operations) rest)
  | ([], []) => .error (.emptyChunk number)
  | ([], line :: _) =>
    if LineKind.ofLine line = .endOfFile then .error (.emptyChunk number)
    else .error (.unexpectedLine number line)

/-- Reads a chunk.  The marker that begins it may be missing only if `markerOptional`. -/
def read (markerOptional : Bool) (number : Nat) (lines : List Bytes) :
    Except Patch.Error (Chunk × List Bytes) :=
  match lines with
  | [] => .error (.emptyChunk number)
  | line :: rest =>
    match header? line with
    | some anchor => readBody anchor (number + 1) rest
    | none =>
      if markerOptional then readBody none number lines
      else .error (.missingContextMarker number line)

theorem length_close (anchor : Option Bytes) (operations : List Operation)
    (lines : List Bytes) : (close anchor operations lines).2.length ≤ lines.length := by
  cases lines with
  | nil => simp [close]
  | cons line rest => rw [close]; split <;> simp

theorem length_readBody {anchor : Option Bytes} {number : Nat} {lines rest : List Bytes}
    {chunk : Chunk} (hread : readBody anchor number lines = .ok (chunk, rest)) :
    rest.length < lines.length := by
  have hlength := Operation.length_takeRun lines
  rw [readBody] at hread
  split at hread
  · rename_i operation operations behind hrun
    have hclose := length_close anchor (operation :: operations) behind
    simp only [Except.ok.injEq] at hread
    rw [hread] at hclose
    simp only [hrun, List.length_cons] at hlength hclose
    omega
  · simp at hread
  · split at hread <;> simp at hread

theorem length_read {markerOptional : Bool} {number : Nat} {lines rest : List Bytes}
    {chunk : Chunk} (hread : read markerOptional number lines = .ok (chunk, rest)) :
    rest.length < lines.length := by
  cases lines with
  | nil => simp [read] at hread
  | cons line behind =>
    simp only [read] at hread
    split at hread
    · have := length_readBody hread
      simp only [List.length_cons]
      omega
    · split at hread
      · exact length_readBody hread
      · simp at hread

/-- Reads the chunks of an update up to the end of the lines or a line that begins with three
stars.  Lines of blanks between chunks are skipped. -/
def readAll (first : Bool) (number : Nat) (lines : List Bytes) :
    Except Patch.Error (List Chunk × List Bytes) :=
  match lines with
  | [] => .ok ([], [])
  | line :: rest =>
    if trim line = [] then readAll first (number + 1) rest
    else if Marker.stop.isPrefixOf line then .ok ([], line :: rest)
    else
      match hread : read first number (line :: rest) with
      | .error problem => .error problem
      | .ok (chunk, behind) =>
        have := length_read hread
        match readAll false (number + ((line :: rest).length - behind.length)) behind with
        | .error problem => .error problem
        | .ok (chunks, last) => .ok (chunk :: chunks, last)
termination_by lines.length
decreasing_by all_goals (simp only [List.length_cons] at *; omega)

theorem length_readAll {first : Bool} {number : Nat} {lines : List Bytes}
    {read : List Chunk × List Bytes} (hread : readAll first number lines = .ok read) :
    read.2.length ≤ lines.length := by
  fun_induction readAll first number lines generalizing read with
  | case1 => simp only [Except.ok.injEq] at hread; simp [← hread]
  | case2 first number line behind hblank ih =>
    have := ih hread
    simp only [List.length_cons]
    omega
  | case3 => simp only [Except.ok.injEq] at hread; simp [← hread]
  | case4 => simp at hread
  | case5 => simp at hread
  | case6 first number line rest hblank hstop chunk behind hchunk hlength chunks last hrest ih =>
    simp only [Except.ok.injEq] at hread
    have := ih hrest
    rw [← hread]
    simp only [] at this ⊢
    omega

end Chunk

namespace Hunk

/-- The path behind the move marker of a line, if the line has one. -/
def destination? (line : Bytes) : Option Bytes :=
  Marker.after? Marker.moveTo (trim line)

/-- Reads what follows the header of an update: a destination and chunks. -/
def readUpdate (path : Bytes) (number : Nat) (lines : List Bytes) :
    Except Patch.Error (Hunk × List Bytes) :=
  let destination := lines.head?.bind destination?
  let moved := if destination.isSome then 1 else 0
  match Chunk.readAll true (number + 1 + moved) (lines.drop moved) with
  | .error problem => .error problem
  | .ok ([], _) => .error (.emptyUpdate number path)
  | .ok (chunks, rest) => .ok (.update path destination chunks, rest)

/-- The contents that the added lines of a new file make up. -/
def contentsOf (lines : List Bytes) : Bytes :=
  lines.flatMap fun line => line.drop 1 ++ [Bytes.newline]

def isAddition (line : Bytes) : Bool :=
  line.head? == some LineKind.additionSign

/-- Reads a hunk whose header is the given line. -/
def read (number : Nat) (line : Bytes) (rest : List Bytes) :
    Except Patch.Error (Hunk × List Bytes) :=
  let header := trim line
  match Marker.after? Marker.addFile header with
  | some path =>
    .ok (.add path (contentsOf (rest.takeWhile isAddition)), rest.dropWhile isAddition)
  | none =>
    match Marker.after? Marker.deleteFile header with
    | some path => .ok (.delete path, rest)
    | none =>
      match Marker.after? Marker.updateFile header with
      | some path => readUpdate path number rest
      | none => .error (.invalidHeader number header)

theorem length_readUpdate {path : Bytes} {number : Nat} {lines rest : List Bytes} {hunk : Hunk}
    (hread : readUpdate path number lines = .ok (hunk, rest)) :
    rest.length ≤ lines.length := by
  simp only [readUpdate] at hread
  split at hread
  · simp at hread
  · simp at hread
  · rename_i hchunks
    have := Chunk.length_readAll hchunks
    simp only [List.length_drop, Except.ok.injEq, Prod.mk.injEq] at this hread
    rw [← hread.2]
    omega

theorem length_read {number : Nat} {line : Bytes} {lines rest : List Bytes} {hunk : Hunk}
    (hread : read number line lines = .ok (hunk, rest)) :
    rest.length ≤ lines.length := by
  simp only [read] at hread
  split at hread
  · simp only [Except.ok.injEq, Prod.mk.injEq] at hread
    rw [← hread.2]
    exact (List.dropWhile_suffix isAddition).length_le
  · split at hread
    · simp only [Except.ok.injEq, Prod.mk.injEq] at hread
      exact Nat.le_of_eq (congrArg List.length hread.2.symm)
    · split at hread
      · exact length_readUpdate hread
      · simp at hread

/-- Reads hunks up to the end of the lines. -/
def readAll (number : Nat) (lines : List Bytes) : Except Patch.Error (List Hunk) :=
  match lines with
  | [] => .ok []
  | line :: rest =>
    match hread : read number line rest with
    | .error problem => .error problem
    | .ok (hunk, behind) =>
      have := length_read hread
      match readAll (number + ((line :: rest).length - behind.length)) behind with
      | .error problem => .error problem
      | .ok hunks => .ok (hunk :: hunks)
termination_by lines.length
decreasing_by simp only [List.length_cons] at *; omega

end Hunk

namespace Patch

/-- The hunks between the markers of a patch; the first line behind the opening marker is
line two. -/
def readBody (lines : List Bytes) : Except Patch.Error Patch :=
  Hunk.readAll 2 lines.tail.dropLast

/-- Reads a text as a patch.  Blank bytes around the text are no part of it. -/
def parse (patch : Bytes) : Except Patch.Error Patch :=
  if trim patch = [] then .error .emptyPatch
  else
    match Envelope.unwrap (Lines.ofPatch (trim patch)) with
    | .error problem => .error problem
    | .ok lines => readBody lines

end Patch

end Patchwork
