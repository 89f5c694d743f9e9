import Patchwork.Failure
import Patchwork.Json.Library
import Patchwork.Json.Printer
import Patchwork.Json.Reader

/-!
# The library of the program

The library that the program runs with.  All its problems have the same message.
-/

namespace Patchwork

namespace Json

def bool? : Json → Option Bool
  | bool value => some value
  | _ => none

/-- A number as a signed integer of 32 bits.  Of an integer of 64 bits its lower half is kept;
another number loses its fraction, and the least integer stands for what is then still too large. -/
def Number.toInt32 (number : Number) : Int :=
  let whole := number.truncate
  if number.exponent = 0 ∧ -Int.pow 2 63 ≤ whole ∧ whole < Int.pow 2 64 then
    whole.bmod (Nat.pow 2 32)
  else if -Int.pow 2 31 ≤ whole ∧ whole < Int.pow 2 31 then whole
  else -Int.pow 2 31

/-- The truth values count as numbers too. -/
def int? : Json → Option Int
  | number value => some value.toInt32
  | bool value => some (if value then 1 else 0)
  | _ => none

def string? : Json → Option Bytes
  | string value => some value
  | _ => none

/-- The converted member under a key of an object. -/
def memberOr {α : Type} (convert : Json → Option α) (json : Json) (key : Bytes) (default : α) :
    Except Problem α :=
  let problem := Problem.other Failure.jsonProblem
  if json.isObject then
    match json.member? key with
    | none => .ok default
    | some value =>
      match convert value with
      | some result => .ok result
      | none => .error problem
  else .error problem

instance : Library where
  parse bytes := (read bytes).mapError fun
    | .malformed => .malformed Failure.jsonProblem
    | .outOfRange => .other Failure.jsonProblem
  boolOr := memberOr bool?
  intOr := memberOr int?
  stringOr := memberOr string?
  valueOr := memberOr some
  write := render

theorem memberOr_of_member? {α : Type} {convert : Json → Option α} {json value : Json} {key : Bytes}
    {result : α} (default : α) (hmember : json.member? key = some value)
    (hconvert : convert value = some result) :
    memberOr convert json key default = .ok result := by
  cases json with
  | object members =>
    simp only [memberOr, isObject, if_true, hmember, hconvert]
  | null | bool | number | string | array => cases hmember

instance : LawfulLibrary where
  boolOr_of_member? default hmember := memberOr_of_member? default hmember rfl
  stringOr_of_member? default hmember := memberOr_of_member? default hmember rfl
  valueOr_of_member? default hmember := memberOr_of_member? default hmember rfl

end Json

end Patchwork
