import Patchwork.Utf8

/-!
# Searching lines

Finds a run of lines in a file.  Lines are compared in four tiers, from equality to a normal
form in which typographic characters stand for their plain counterparts.  A stricter match
anywhere in the searched window wins over a looser one before it.
-/

namespace Patchwork

/-- The plain character that a dash, a quote or a special blank stands for. -/
def plainCodePoint (codePoint : Nat) : Nat :=
  if (0x2010 ≤ codePoint ∧ codePoint ≤ 0x2015) ∨ codePoint = 0x2212 then '-'.toNat
  else if 0x2018 ≤ codePoint ∧ codePoint ≤ 0x201B then '\''.toNat
  else if 0x201C ≤ codePoint ∧ codePoint ≤ 0x201F then '"'.toNat
  else if codePoint = 0x85 ∨ codePoint = 0xA0 ∨ codePoint = 0x1680 ∨
      (0x2000 ≤ codePoint ∧ codePoint ≤ 0x200A) ∨ codePoint = 0x2028 ∨ codePoint = 0x2029 ∨
      codePoint = 0x202F ∨ codePoint = 0x205F ∨ codePoint = 0x3000 then ' '.toNat
  else codePoint

/-- A piece of a line with its plain character; stray bytes stay. -/
def Utf8.Piece.plain : Utf8.Piece → Bytes
  | .scalar codePoint => Utf8.encode (plainCodePoint codePoint)
  | .stray byte => [byte]

/-- The normal form of a line: plain characters, without blanks at the ends.  Mapping comes
first, so that special blanks at the ends go as well. -/
def normalizeLine (line : Bytes) : Bytes :=
  Bytes.trim ((Utf8.pieces line).flatMap Utf8.Piece.plain)

/-- How strictly lines are compared. -/
inductive Tier
  | equal
  | trimmedEnd
  | trimmed
  | normalized
  deriving DecidableEq, Repr

namespace Tier

/-- The tiers from the strictest to the loosest. -/
def all : List Tier := [equal, trimmedEnd, trimmed, normalized]

/-- The place of a tier among all, counted from one. -/
def rank : Tier → Nat
  | equal => 1
  | trimmedEnd => 2
  | trimmed => 3
  | normalized => 4

/-- What a tier sees of a line: two lines match if the tier sees the same. -/
def view : Tier → Bytes → Bytes
  | equal => id
  | trimmedEnd => Bytes.trimEnd
  | trimmed => Bytes.trim
  | normalized => normalizeLine

end Tier

/-- The first of `positions` many positions at which the lines begin with the pattern;
positions count on from `index`. -/
def firstOccurrence (pattern : List Bytes) (index positions : Nat) (lines : List Bytes) :
    Option Nat :=
  match positions, lines with
  | 0, _ => none
  | _ + 1, [] => if pattern.isEmpty then some index else none
  | positions + 1, line :: rest =>
    if pattern.isPrefixOf (line :: rest) then some index
    else firstOccurrence pattern (index + 1) positions rest

/-- Where a pattern was found, and how strictly it matched. -/
structure Match where
  index : Nat
  tier : Tier
  deriving DecidableEq, Repr

/-- Looks for a pattern at the positions from `first` to `last` under one tier. -/
def Tier.find? (tier : Tier) (lines pattern : List Bytes) (first last : Nat) : Option Match :=
  (firstOccurrence (pattern.map tier.view) first (last + 1 - first)
    ((lines.drop first).map tier.view)).map (⟨·, tier⟩)

/-- Looks for a pattern from `start` on, or only at the end of the lines.  The empty pattern is
found at once. -/
def seek (lines pattern : List Bytes) (start : Nat) (atEnd : Bool) : Option Match :=
  if pattern = [] then some ⟨start, .equal⟩
  else if lines.length < pattern.length then none
  else
    let last := lines.length - pattern.length
    let first := if atEnd then last else start
    Tier.all.findSome? fun tier => tier.find? lines pattern first last

/-- What is worth noting about a match that is not an equality. -/
def Match.note? (found : Match) : Option Bytes :=
  if found.tier = .equal then none
  else some <| text "seekSequence: matched at line " ++ decimal (found.index + 1) ++
    text " using fuzzy tier " ++ decimal found.tier.rank

end Patchwork
