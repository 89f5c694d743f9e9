import Patchwork.Json.Basic

/-!
# Libraries for JSON

Reading and writing texts, and taking typed values out of objects, is left to a library.  What reads
configurations and shows answers is the same program for every library, and the laws of
`LawfulLibrary` are what it relies on.
-/

namespace Patchwork

namespace Json

/-- What a library reports when it cannot do what it is asked to. -/
inductive Problem
  /-- A text does not follow the grammar. -/
  | malformed (message : Bytes)
  /-- Anything else: a value of another type, or a number that does not fit. -/
  | other (message : Bytes)
  deriving DecidableEq, Repr

def Problem.message : Problem → Bytes
  | malformed message | other message => message

/-- The operations of a library for JSON.  Those that end in `Or` give what an object has under a
key, as a value of their type, and the given default where the object has nothing there. -/
class Library where
  /-- Reads a whole text as one value. -/
  parse : Bytes → Except Problem Json
  boolOr : Json → Bytes → Bool → Except Problem Bool
  /-- Integers are the signed ones of 32 bits. -/
  intOr : Json → Bytes → Int → Except Problem Int
  stringOr : Json → Bytes → Bytes → Except Problem Bytes
  valueOr : Json → Bytes → Json → Except Problem Json
  /-- Writes a value over several lines.  Ill-formed parts of strings are replaced, so that every
  value can be written. -/
  write : Json → Bytes

/-- A library gives a member that has the type it is asked for as it is. -/
class LawfulLibrary [Library] : Prop where
  boolOr_of_member? {json : Json} {key : Bytes} {value : Bool} (default : Bool) :
    json.member? key = some (.bool value) → Library.boolOr json key default = .ok value
  stringOr_of_member? {json : Json} {key value : Bytes} (default : Bytes) :
    json.member? key = some (.string value) → Library.stringOr json key default = .ok value
  valueOr_of_member? {json value : Json} {key : Bytes} (default : Json) :
    json.member? key = some value → Library.valueOr json key default = .ok value

end Json

end Patchwork
