import Patchwork.Json.Basic

/-!
# Writing JSON

Writes a value over several lines, indented by two blanks per level.  Every ill-formed part of
a string is written as one replacement character, so that the output is valid UTF-8.
-/

namespace Patchwork

namespace Json

def quote : UInt8 := 34
def openBrace : UInt8 := 123
def closeBrace : UInt8 := 125
def openBracket : UInt8 := 91
def closeBracket : UInt8 := 93

/-- The two last hexadecimal digits of a number. -/
def hexPair (number : Nat) : Bytes :=
  [number / 16 % 16, number % 16].map fun digit => UInt8.ofNat (Nat.digitChar digit).toNat

/-- A code point inside a quoted string. -/
def escape (codePoint : Nat) : Bytes :=
  if codePoint = 34 then text "\\\""
  else if codePoint = 92 then text "\\\\"
  else if codePoint = 8 then text "\\b"
  else if codePoint = 9 then text "\\t"
  else if codePoint = 10 then text "\\n"
  else if codePoint = 12 then text "\\f"
  else if codePoint = 13 then text "\\r"
  else if codePoint < 32 then text "\\u00" ++ hexPair codePoint
  else Utf8.encode codePoint

def replacementCharacter : Bytes := Utf8.encode 0xFFFD

/-- How many bytes at the front of a string begin a sequence that then breaks off. -/
def brokenLength : Bytes → Nat
  | lead :: second :: rest =>
    if 0xE0 ≤ lead && lead ≤ 0xF4 && Utf8.continues lead second then
      if 0xF0 ≤ lead && rest.head?.any Utf8.isContinuation then 3 else 2
    else 1
  | _ => 1

/-- The content of a quoted string, behind the given number of bytes. -/
def escapeAfter : Nat → Bytes → Bytes
  | _, [] => []
  | skipped + 1, _ :: rest => escapeAfter skipped rest
  | 0, byte :: rest =>
    match Utf8.front? (byte :: rest) with
    | some (codePoint, length) => escape codePoint ++ escapeAfter (length - 1) rest
    | none => replacementCharacter ++ escapeAfter (brokenLength (byte :: rest) - 1) rest

def quoted (content : Bytes) : Bytes :=
  quote :: escapeAfter 0 content ++ [quote]

def Number.render (number : Number) : Bytes :=
  let digits := text (toString number.mantissa)
  if number.exponent = 0 then digits else digits ++ text "e" ++ text (toString number.exponent)

/-- The start of a line at a level. -/
def indent (level : Nat) : Bytes :=
  Bytes.newline :: List.replicate (2 * level) Bytes.space

/-- Parts in brackets, each on a line of its own one level further in. -/
def bracket (opening closing : UInt8) (level : Nat) (parts : List Bytes) : Bytes :=
  if parts = [] then [opening, closing]
  else opening :: List.intercalate [44] (parts.map (indent (level + 1) ++ ·)) ++
    indent level ++ [closing]

mutual

def renderAt (level : Nat) : Json → Bytes
  | null => text "null"
  | bool value => text (if value then "true" else "false")
  | number value => value.render
  | string value => quoted value
  | array items => bracket openBracket closeBracket level (renderItems (level + 1) items)
  | object members => bracket openBrace closeBrace level (renderMembers (level + 1) members)

def renderItems (level : Nat) : List Json → List Bytes
  | [] => []
  | item :: items => renderAt level item :: renderItems level items

def renderMembers (level : Nat) : List (Bytes × Json) → List Bytes
  | [] => []
  | (key, value) :: members =>
    (quoted key ++ text ": " ++ renderAt level value) :: renderMembers level members

end

def render (value : Json) : Bytes := renderAt 0 value

end Json

end Patchwork
