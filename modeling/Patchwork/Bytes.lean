/-!
# Byte strings

Patch texts, file contents and paths are byte strings: nothing promises that they are valid
UTF-8.  This module fixes the type, names the bytes that the formats give a meaning to, and
defines the ways of trimming and splitting that readers and searches share.
-/

namespace Patchwork

/-- A string of bytes, valid UTF-8 or not. -/
abbrev Bytes := List UInt8

namespace Bytes

abbrev tab : UInt8 := 9
abbrev newline : UInt8 := 10
abbrev carriageReturn : UInt8 := 13
abbrev space : UInt8 := 32
abbrev slash : UInt8 := 47

/-- The six blank bytes: space, tab, line feed, vertical tab, form feed, carriage return. -/
def isBlank (byte : UInt8) : Bool :=
  byte == space || (tab ≤ byte && byte ≤ carriageReturn)

/-- Removes the longest end of the string whose bytes all satisfy the test. -/
def dropEndWhile (test : UInt8 → Bool) (bytes : Bytes) : Bytes :=
  (bytes.reverse.dropWhile test).reverse

/-- Removes the spaces and tabs at the end. -/
def trimEnd (bytes : Bytes) : Bytes :=
  dropEndWhile (fun byte => byte == space || byte == tab) bytes

/-- Removes the blank bytes at both ends. -/
def trim (bytes : Bytes) : Bytes :=
  dropEndWhile isBlank (bytes.dropWhile isBlank)

/-- The part before the first zero byte: what is left of a string that passes through a
zero-terminated one. -/
def untilZero (bytes : Bytes) : Bytes :=
  bytes.takeWhile (· != 0)

theorem untilZero_eq_self {bytes : Bytes} (hzero : 0 ∉ bytes) : untilZero bytes = bytes := by
  induction bytes with
  | nil => rfl
  | cons byte rest ih =>
    simp only [List.mem_cons, not_or] at hzero
    rw [untilZero, List.takeWhile_cons_of_pos (by simpa using Ne.symm hzero.1)]
    exact congrArg (byte :: ·) (ih hzero.2)

/-- Splits at every occurrence of a separator; there is always at least one part. -/
def splitAt (separator : UInt8) (bytes : Bytes) : List Bytes :=
  bytes.foldr step [[]]
where
  /-- Puts one byte in front of the parts found behind it. -/
  step (byte : UInt8) : List Bytes → List Bytes
    | [] => [[byte]]
    | part :: rest => if byte == separator then [] :: part :: rest else (byte :: part) :: rest

end Bytes

end Patchwork
