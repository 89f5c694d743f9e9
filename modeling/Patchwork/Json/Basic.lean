import Patchwork.Table
import Patchwork.Utf8

/-!
# JSON values

Arguments and results of tools, and configurations.  Strings are byte strings, and the members
of an object are kept in the order of their keys.
-/

namespace Patchwork

/-- The number `mantissa * 10 ^ exponent`. -/
structure Json.Number where
  mantissa : Int
  exponent : Int
  deriving DecidableEq, Repr

inductive Json
  | null
  | bool (value : Bool)
  | number (value : Json.Number)
  | string (value : Bytes)
  | array (items : List Json)
  | object (members : List (Bytes × Json))
  deriving Inhabited

namespace Json

namespace Number

/-- The integer part of a number. -/
def truncate (number : Number) : Int :=
  if 0 ≤ number.exponent then number.mantissa * Int.pow 10 number.exponent.toNat
  else if (Nat.toDigits 10 number.mantissa.natAbs).length < number.exponent.natAbs then 0
  else number.mantissa.tdiv (Int.pow 10 number.exponent.natAbs)

end Number

/-- The object with the given members. -/
def ofMembers (members : List (Bytes × Json)) : Json :=
  object (Table.ofEntries members)

def isObject : Json → Bool
  | object _ => true
  | _ => false

/-- The member of an object under a key. -/
def member? (json : Json) (key : Bytes) : Option Json :=
  match json with
  | object members => Table.find? key members
  | _ => none

/-- What a loop over a value goes through: the items of an array, the values of an object, nothing
of `null`, and any other value itself. -/
def elements : Json → List Json
  | array items => items
  | object members => members.map Prod.snd
  | null => []
  | value => [value]

/-- An object with one more member; `null` counts as an empty object, and no other value takes
a member. -/
def setMember? (json : Json) (key : Bytes) (value : Json) : Option Json :=
  match json with
  | object members => some (object (Table.insert key value members))
  | null => some (object [(key, value)])
  | _ => none

/-- The array of some strings. -/
def strings (values : List Bytes) : Json :=
  array (values.map string)

end Json

end Patchwork
