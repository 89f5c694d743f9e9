import Patchwork.Diff.Unified

/-!
# Reading unified diffs

A strict reader: every section has to stand at the place that its heading names on both sides,
hold as many lines as the heading counts, and find its unchanged and deleted lines in the
content it is applied to.  Read the other way round, a diff takes the new content back to the
old one.
-/

namespace Patchwork

namespace Diff

/-- On which sides a line of a diff stands. -/
inductive Side
  | both
  | oldOnly
  | newOnly
  deriving DecidableEq, Repr

namespace Side

def ofSign? (sign : UInt8) : Option Side :=
  if sign = keptSign then some both
  else if sign = deletedSign then some oldOnly
  else if sign = insertedSign then some newOnly
  else none

def flip : Side → Side
  | both => both
  | oldOnly => newOnly
  | newOnly => oldOnly

end Side

/-- Where a section stands on one side: behind `start` lines, `count` lines long. -/
structure Span where
  start : Nat
  count : Nat
  deriving DecidableEq, Repr

/-- A section of a diff: its heading, and its lines with the line feeds that end them. -/
structure Section where
  old : Span
  new : Span
  lines : List (Side × Bytes)
  deriving DecidableEq, Repr

namespace Section

/-- A section read the other way round. -/
def flip (part : Section) : Section :=
  ⟨part.new, part.old, part.lines.map fun (side, line) => (side.flip, line)⟩

end Section

/-- The number that decimal digits stand for. -/
def number? (digits : Bytes) : Option Nat :=
  if digits ≠ [] ∧ digits.all fun digit => 48 ≤ digit && digit ≤ 57 then
    some (digits.foldl (fun number digit => number * 10 + (digit.toNat - 48)) 0)
  else none

/-- Reads the place of a section on one side.  A missing count is one, and a count of zero names
the line before the section. -/
def span? (range : Bytes) : Option Span :=
  match Bytes.splitAt 44 range with
  | [start] => do
    let start ← number? start
    if start = 0 then none else some ⟨start - 1, 1⟩
  | [start, count] => do
    let start ← number? start
    let count ← number? count
    if count = 0 then some ⟨start, 0⟩
    else if start = 0 then none else some ⟨start - 1, count⟩
  | _ => none

/-- Reads the heading of a section. -/
def heading? (line : Bytes) : Option (Span × Span) :=
  match Bytes.splitAt Bytes.space line with
  | [opening, 45 :: oldRange, 43 :: newRange, closing] =>
    if opening = text "@@" ∧ closing = text "@@\n" then do
      some (← span? oldRange, ← span? newRange)
    else none
  | _ => none

/-- What is written behind a line without a line feed. -/
def missingEndLine : Bytes := text "\\ No newline at end of file\n"

/-- Reads lines until both sides have as many as the heading counts.  A line that is marked so
loses its line feed. -/
def readLines (old new : Nat) : List Bytes → Option (List (Side × Bytes) × List Bytes)
  | [] => if old = 0 ∧ new = 0 then some ([], []) else none
  | line :: rest =>
    if old = 0 ∧ new = 0 then some ([], line :: rest)
    else match line with
      | [] => none
      | sign :: content => do
        let side ← Side.ofSign? sign
        if (side ≠ .newOnly ∧ old = 0) ∨ (side ≠ .oldOnly ∧ new = 0) then none
        let oldLeft := if side = .newOnly then old else old - 1
        let newLeft := if side = .oldOnly then new else new - 1
        match rest with
        | next :: behind =>
          if next = missingEndLine then
            let (lines, last) ← readLines oldLeft newLeft behind
            some ((side, content.dropLast) :: lines, last)
          else
            let (lines, last) ← readLines oldLeft newLeft (next :: behind)
            some ((side, content) :: lines, last)
        | [] =>
          let (lines, last) ← readLines oldLeft newLeft []
          some ((side, content) :: lines, last)

/-- Reads sections up to the end of the lines; there are at most `most` of them. -/
def readSections (most : Nat) (lines : List Bytes) : Option (List Section) :=
  match most, lines with
  | _, [] => some []
  | 0, _ => none
  | most + 1, line :: rest => do
    let (old, new) ← heading? line
    let (lines, behind) ← readLines old.count new.count rest
    some (⟨old, new, lines⟩ :: (← readSections most behind))

/-- Reads a diff: the lines with the names, and then its sections. -/
def read? (diff : Bytes) : Option (List Section) :=
  match Lines.withEnds diff with
  | oldName :: newName :: rest =>
    if (text "--- ").isPrefixOf oldName ∧ (text "+++ ").isPrefixOf newName then
      readSections rest.length rest
    else none
  | _ => none

/-- Carries the lines of a section out on the lines it stands at: the new lines, and the old
lines behind the section. -/
def replaceLines : List (Side × Bytes) → List Bytes → Option (List Bytes × List Bytes)
  | [], old => some ([], old)
  | (.newOnly, line) :: lines, old => do
    let (new, behind) ← replaceLines lines old
    some (line :: new, behind)
  | (side, line) :: lines, present :: old =>
    if line = present then do
      let (new, behind) ← replaceLines lines old
      some (if side = .both then line :: new else new, behind)
    else none
  | _ :: _, [] => none

/-- Carries sections out on the lines behind the first `oldAt` old and `newAt` new ones. -/
def replaceSections (oldAt newAt : Nat) : List Section → List Bytes → Option (List Bytes)
  | [], old => some old
  | part :: parts, old =>
    let gap := part.old.start - oldAt
    if oldAt ≤ part.old.start ∧ gap ≤ old.length ∧ part.new.start = newAt + gap then do
      let (new, behind) ← replaceLines part.lines (old.drop gap)
      let rest ← replaceSections (part.old.start + part.old.count)
        (part.new.start + part.new.count) parts behind
      some (old.take gap ++ new ++ rest)
    else none

/-- The new content that a diff leads to from the old one. -/
def applyTo (diff oldContent : Bytes) : Option Bytes := do
  let new ← replaceSections 0 0 (← read? diff) (Lines.withEnds oldContent)
  some new.flatten

/-- The old content that a diff leads back to from the new one. -/
def revertFrom (diff newContent : Bytes) : Option Bytes := do
  let old ← replaceSections 0 0 ((← read? diff).map Section.flip) (Lines.withEnds newContent)
  some old.flatten

end Diff

end Patchwork
