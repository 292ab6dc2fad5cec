import Uniprocessor.Json.Basic

/-!
# Reading records

How a value is read as a record with named fields.  An object is read by name: fields of other
names are passed over, a name must not occur twice, and every name must spell a text.  An array is
read by position and must have as many items as the record has fields; a record may allow its last
few fields to be left out.

A field reader gets the value, or `none` where the object does not have the field, so that each
field decides whether it may be missing.
-/

namespace Uniprocessor

namespace Json

/-- The value of the only field with a name; fails on a second one. -/
def field? (fields : List (List Nat × Json)) (name : String) : Option (Option Json) :=
  match fields.filter (fun field => field.1 == points name) with
  | [] => some none
  | [field] => some (some field.2)
  | _ => none

/-- The values of the fields of a record, in the order of `names`.  Of the fields of an array the
last `optional` may be left out. -/
def fields? (names : List String) (optional : Nat) : Json → Option (List (Option Json))
  | .object fields =>
    if fields.all fun field => (text? field.1).isSome then names.mapM (field? fields) else none
  | .array items =>
    if items.length ≤ names.length && names.length ≤ items.length + optional then
      some (items.map some ++ List.replicate (names.length - items.length) none)
    else none
  | _ => none

/-- Reads a field that must be there. -/
def required {α : Type} (decode : Json → Option α) (v : Option Json) : Option α :=
  v.bind decode

/-- Reads a field that may be missing or `null`. -/
def optional {α : Type} (decode : Json → Option α) : Option Json → Option (Option α)
  | none => some none
  | some .null => some none
  | some v => (decode v).map some

/-- Reads a natural number below a bound. -/
def nat? (bound : Nat) : Json → Option Nat
  | .number l => l.nat? bound
  | _ => none

/-- Reads a float. -/
def float? : Json → Option Float
  | .number l => l.float?
  | _ => none

/-- Reads an array. -/
def list? {α : Type} (decode : Json → Option α) : Json → Option (List α)
  | .array items => items.mapM decode
  | _ => none

/-- Reads the case of an enumeration: its name, or an object with the name alone. -/
def variant? : Json → Option (String × Option Json)
  | .string s => (text? s).map fun name => (name, none)
  | .object [(name, v)] => (text? name).map fun name => (name, some v)
  | _ => none

/-- Reads a case without contents; in an object its contents must be `null`. -/
def unitVariant? (v : Json) : Option String :=
  match variant? v with
  | some (name, none) => some name
  | some (name, some .null) => some name
  | _ => none

end Json

end Uniprocessor
