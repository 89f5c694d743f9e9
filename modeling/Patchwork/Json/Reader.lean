import Patchwork.Json.Basic

/-!
# Reading JSON

`Json.read` reads a whole text as one value.  Every reader takes the bytes that are left and
gives back what it read with the bytes behind it.  The depth that values and strings are read
with comes from the length of the text, and no text nests deeper.
-/

namespace Patchwork

namespace Json

def isSpace (byte : UInt8) : Bool :=
  byte == 32 || byte == 9 || byte == 10 || byte == 13

def skipSpace (bytes : Bytes) : Bytes := bytes.dropWhile isSpace

def isDigit (byte : UInt8) : Bool := 48 ≤ byte && byte ≤ 57

/-- The number that decimal digits stand for. -/
def ofDigits (digits : Bytes) : Nat :=
  digits.foldl (fun number digit => number * 10 + (digit.toNat - 48)) 0

def hexValue? (byte : UInt8) : Option Nat :=
  if isDigit byte then some (byte.toNat - 48)
  else if 97 ≤ byte && byte ≤ 102 then some (byte.toNat - 87)
  else if 65 ≤ byte && byte ≤ 70 then some (byte.toNat - 55)
  else none

/-- Reads four hexadecimal digits. -/
def hexQuad? : Bytes → Option (Nat × Bytes)
  | first :: second :: third :: fourth :: rest => do
    let digits ← [first, second, third, fourth].mapM hexValue?
    some (digits.foldl (fun number digit => number * 16 + digit) 0, rest)
  | _ => none

/-- Reads what follows `\u`: one unit, or two that make up a surrogate pair. -/
def escapedUnit? (bytes : Bytes) : Option (Nat × Bytes) := do
  let (unit, rest) ← hexQuad? bytes
  if 0xD800 ≤ unit ∧ unit < 0xDC00 then
    match rest with
    | 92 :: 117 :: behind =>
      let (low, last) ← hexQuad? behind
      if 0xDC00 ≤ low ∧ low < 0xE000 then
        some (0x10000 + (unit - 0xD800) * 1024 + (low - 0xDC00), last)
      else none
    | _ => none
  else if 0xDC00 ≤ unit ∧ unit < 0xE000 then none
  else some (unit, rest)

/-- Reads what follows a backslash. -/
def escaped? : Bytes → Option (Nat × Bytes)
  | 117 :: rest => escapedUnit? rest
  | byte :: rest =>
    if byte == 34 || byte == 92 || byte == 47 then some (byte.toNat, rest)
    else if byte == 98 then some (8, rest)
    else if byte == 102 then some (12, rest)
    else if byte == 110 then some (10, rest)
    else if byte == 114 then some (13, rest)
    else if byte == 116 then some (9, rest)
    else none
  | [] => none

/-- Reads a string behind its opening quote. -/
def readString : Nat → Bytes → Option (Bytes × Bytes)
  | 0, _ => none
  | _, [] => none
  | depth + 1, byte :: rest =>
    if byte = 34 then some ([], rest)
    else if byte = 92 then do
      let (codePoint, behind) ← escaped? rest
      let (content, last) ← readString depth behind
      some (Utf8.encode codePoint ++ content, last)
    else if byte < 32 then none
    else do
      let (codePoint, length) ← Utf8.front? (byte :: rest)
      let (content, last) ← readString depth (rest.drop (length - 1))
      some (Utf8.encode codePoint ++ content, last)

/-- Reads digits, at least one. -/
def digits? (bytes : Bytes) : Option (Bytes × Bytes) :=
  let digits := bytes.takeWhile isDigit
  if digits = [] then none else some (digits, bytes.dropWhile isDigit)

/-- Reads the digits before the point, without needless zeros. -/
def integerPart? (bytes : Bytes) : Option (Bytes × Bytes) :=
  match bytes with
  | 48 :: rest => some ([48], rest)
  | _ => digits? bytes

/-- Reads a point and the digits behind it, if there are any. -/
def fractionPart? : Bytes → Option (Bytes × Bytes)
  | 46 :: rest => digits? rest
  | bytes => some ([], bytes)

/-- Reads an exponent, if there is one. -/
def exponentPart? : Bytes → Option (Int × Bytes)
  | [] => some (0, [])
  | byte :: rest =>
    if byte = 101 ∨ byte = 69 then do
      let (negative, behind) := match rest with
        | 45 :: behind => (true, behind)
        | 43 :: behind => (false, behind)
        | behind => (false, behind)
      let (digits, last) ← digits? behind
      some (if negative then -(ofDigits digits : Int) else ofDigits digits, last)
    else some (0, byte :: rest)

/-- The least number that rounding to double precision leads beyond the largest double. -/
def overflowBound : Nat := Nat.pow 2 1024 - Nat.pow 2 970

/-- Whether a number is too large for double precision.  How many digits it has before the point
decides this alone but in one case. -/
def overflows (magnitude : Nat) (exponent : Int) : Bool :=
  let reach := (Nat.toDigits 10 magnitude).length + exponent
  if magnitude = 0 ∨ reach < 309 then false
  else if 309 < reach then true
  else if 0 ≤ exponent then overflowBound ≤ magnitude * Nat.pow 10 exponent.toNat
  else overflowBound * Nat.pow 10 exponent.natAbs ≤ magnitude

/-- Why a text cannot be read. -/
inductive ReadError
  | malformed
  /-- A number is too large for double precision. -/
  | outOfRange
  deriving DecidableEq, Repr

def orMalformed {α : Type} : Option α → Except ReadError α
  | some result => .ok result
  | none => .error .malformed

/-- Reads a number. -/
def readNumber (bytes : Bytes) : Except ReadError (Json × Bytes) := do
  let (negative, bytes) := match bytes with
    | 45 :: rest => (true, rest)
    | _ => (false, bytes)
  let (whole, bytes) ← orMalformed (integerPart? bytes)
  let (fraction, bytes) ← orMalformed (fractionPart? bytes)
  let (power, bytes) ← orMalformed (exponentPart? bytes)
  let magnitude := ofDigits (whole ++ fraction)
  let exponent := if magnitude = 0 then 0 else power - fraction.length
  if overflows magnitude exponent then throw .outOfRange
  let mantissa : Int := if negative then -magnitude else magnitude
  pure (number ⟨mantissa, exponent⟩, bytes)

/-- Reads a fixed word that stands for a value. -/
def readWord (word : Bytes) (value : Json) (bytes : Bytes) : Except ReadError (Json × Bytes) :=
  if word.isPrefixOf bytes then .ok (value, bytes.drop word.length) else .error .malformed

mutual

/-- Reads a value; blanks before it are skipped. -/
def readValue : Nat → Bytes → Except ReadError (Json × Bytes)
  | 0, _ => .error .malformed
  | depth + 1, bytes =>
    match skipSpace bytes with
    | [] => .error .malformed
    | byte :: rest =>
      if byte = 123 then
        match skipSpace rest with
        | 125 :: behind => .ok (object [], behind)
        | behind => (readMembers depth behind).map fun (members, last) =>
          (ofMembers members, last)
      else if byte = 91 then
        match skipSpace rest with
        | 93 :: behind => .ok (array [], behind)
        | behind => (readItems depth behind).map fun (items, last) => (array items, last)
      else if byte = 34 then
        (orMalformed (readString (rest.length + 1) rest)).map fun (content, last) =>
          (string content, last)
      else if byte = 110 then readWord (text "null") null (byte :: rest)
      else if byte = 116 then readWord (text "true") (bool true) (byte :: rest)
      else if byte = 102 then readWord (text "false") (bool false) (byte :: rest)
      else readNumber (byte :: rest)

/-- Reads the items of an array, at least one, and its closing bracket. -/
def readItems : Nat → Bytes → Except ReadError (List Json × Bytes)
  | 0, _ => .error .malformed
  | depth + 1, bytes => do
    let (item, behind) ← readValue depth bytes
    match skipSpace behind with
    | 44 :: rest =>
      let (items, last) ← readItems depth rest
      pure (item :: items, last)
    | 93 :: rest => pure ([item], rest)
    | _ => throw .malformed

/-- Reads the members of an object, at least one, and its closing brace. -/
def readMembers : Nat → Bytes → Except ReadError (List (Bytes × Json) × Bytes)
  | 0, _ => .error .malformed
  | depth + 1, bytes =>
    match skipSpace bytes with
    | 34 :: rest => do
      let (key, behind) ← orMalformed (readString (rest.length + 1) rest)
      match skipSpace behind with
      | 58 :: behind =>
        let (value, behind) ← readValue depth behind
        match skipSpace behind with
        | 44 :: rest =>
          let (members, last) ← readMembers depth rest
          pure ((key, value) :: members, last)
        | 125 :: rest => pure ([(key, value)], rest)
        | _ => throw .malformed
      | _ => throw .malformed
    | _ => .error .malformed

end

/-- What may stand before a text to say that it is UTF-8. -/
def byteOrderMark : Bytes := Utf8.encode 0xFEFF

/-- Reads a text as one value; only blanks may follow it. -/
def read (bytes : Bytes) : Except ReadError Json := do
  let bytes :=
    if byteOrderMark.isPrefixOf bytes then bytes.drop byteOrderMark.length else bytes
  let (value, rest) ← readValue (2 * bytes.length + 2) bytes
  if skipSpace rest = [] then pure value else throw .malformed

end Json

end Patchwork
