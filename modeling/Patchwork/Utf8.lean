import Patchwork.Bytes

/-!
# UTF-8

A byte string is read as a sequence of pieces: a code point for every well-formed UTF-8
sequence, and a stray byte where none begins.  `encode` writes a code point, `sanitize` keeps
the well-formed sequences of a string and replaces what stands between them.  `text` is the
byte string of a literal.
-/

namespace Patchwork

namespace Utf8

/-- A byte of the form `10xxxxxx`, which can only continue a sequence. -/
def isContinuation (byte : UInt8) : Bool :=
  0x80 ≤ byte && byte ≤ 0xBF

/-- The second bytes that may follow a lead byte: the narrower ranges exclude overlong forms,
surrogates and values above the last code point. -/
def continues (lead second : UInt8) : Bool :=
  isContinuation second &&
    (if lead == 0xE0 then 0xA0 ≤ second
    else if lead == 0xED then second ≤ 0x9F
    else if lead == 0xF0 then 0x90 ≤ second
    else if lead == 0xF4 then second ≤ 0x8F
    else true)

/-- The code point of a lead byte's payload followed by continuation bytes. -/
def assemble (payload : Nat) (continuation : Bytes) : Nat :=
  continuation.foldl (fun codePoint byte => codePoint * 64 + byte.toNat % 64) payload

/-- The well-formed sequence at the front of a string: its code point and its length. -/
def front? : Bytes → Option (Nat × Nat)
  | [] => none
  | lead :: rest =>
    if lead < 0x80 then some (lead.toNat, 1)
    else if 0xC2 ≤ lead && lead ≤ 0xDF then
      match rest with
      | second :: _ =>
        if continues lead second then some (assemble (lead.toNat % 32) [second], 2) else none
      | _ => none
    else if 0xE0 ≤ lead && lead ≤ 0xEF then
      match rest with
      | second :: third :: _ =>
        if continues lead second && isContinuation third then
          some (assemble (lead.toNat % 16) [second, third], 3)
        else none
      | _ => none
    else if 0xF0 ≤ lead && lead ≤ 0xF4 then
      match rest with
      | second :: third :: fourth :: _ =>
        if continues lead second && isContinuation third && isContinuation fourth then
          some (assemble (lead.toNat % 8) [second, third, fourth], 4)
        else none
      | _ => none
    else none

/-- What a string consists of. -/
inductive Piece
  /-- A well-formed sequence. -/
  | scalar (codePoint : Nat)
  /-- A byte at which no well-formed sequence begins. -/
  | stray (byte : UInt8)
  deriving DecidableEq, Repr

/-- The pieces of a string behind the given number of bytes. -/
def piecesAfter : Nat → Bytes → List Piece
  | _, [] => []
  | skipped + 1, _ :: rest => piecesAfter skipped rest
  | 0, byte :: rest =>
    match front? (byte :: rest) with
    | some (codePoint, length) => .scalar codePoint :: piecesAfter (length - 1) rest
    | none => .stray byte :: piecesAfter 0 rest

/-- The pieces of a string in order. -/
def pieces (bytes : Bytes) : List Piece :=
  piecesAfter 0 bytes

/-- The continuation byte that holds the six bits of a code point above the given power of two. -/
def continuationByte (codePoint power : Nat) : UInt8 :=
  UInt8.ofNat (0x80 + codePoint / power % 64)

/-- The bytes of a code point.  A number above the last code point is cut by the same
arithmetic: every byte keeps its low eight bits. -/
def encode (codePoint : Nat) : Bytes :=
  if codePoint < 0x80 then
    [UInt8.ofNat codePoint]
  else if codePoint < 0x800 then
    [UInt8.ofNat (0xC0 + codePoint / 64), continuationByte codePoint 1]
  else if codePoint < 0x10000 then
    [UInt8.ofNat (0xE0 + codePoint / 4096), continuationByte codePoint 64,
      continuationByte codePoint 1]
  else
    [UInt8.ofNat (0xF0 ||| codePoint / 262144), continuationByte codePoint 4096,
      continuationByte codePoint 64, continuationByte codePoint 1]

/-- The bytes of any integer: a negative one is written as its low byte alone. -/
def encodeInt : Int → Bytes
  | .ofNat codePoint => encode codePoint
  | negative => [UInt8.ofNat (negative % 256).toNat]

/-- The code points that UTF-8 has a sequence for: all but the surrogates. -/
def IsScalar (codePoint : Nat) : Prop :=
  codePoint < 0xD800 ∨ (0xE000 ≤ codePoint ∧ codePoint ≤ 0x10FFFF)

/-- A string is well-formed if it is made of the sequences of code points. -/
def WellFormed (bytes : Bytes) : Prop :=
  ∃ codePoints : List Nat, (∀ codePoint ∈ codePoints, IsScalar codePoint) ∧
    bytes = codePoints.flatMap encode

/-- The bytes that a piece was read from. -/
def Piece.bytes : Piece → Bytes
  | .scalar codePoint => encode codePoint
  | .stray byte => [byte]

/-- A stray continuation byte is dropped, any other stray byte becomes a question mark. -/
def Piece.sanitize : Piece → Bytes
  | .scalar codePoint => encode codePoint
  | .stray byte => if isContinuation byte then [] else [63]

/-- The string with everything that is not well-formed UTF-8 replaced or dropped. -/
def sanitize (bytes : Bytes) : Bytes :=
  (pieces bytes).flatMap Piece.sanitize

end Utf8

/-- The UTF-8 bytes of a literal. -/
def text (literal : String) : Bytes :=
  literal.toList.flatMap fun char => Utf8.encode char.toNat

/-- The decimal digits of a number. -/
def decimal (number : Nat) : Bytes :=
  (Nat.toDigits 10 number).map fun digit => UInt8.ofNat digit.toNat

end Patchwork
