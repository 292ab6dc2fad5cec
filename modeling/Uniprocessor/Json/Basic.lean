import Uniprocessor.Decimal.Literal

/-!
# JSON values

Values as they stand in a text: numbers are kept as literals, the fields of an object as the list
of pairs that was written, repetitions included, and the characters of a string as code points.
An escape may spell half of a surrogate pair alone; such a string is a value, but it spells no
text, and `Json.text?` refuses it.
-/

namespace Uniprocessor

/-- A JSON value. -/
inductive Json where
  | null
  | bool (value : Bool)
  | number (literal : Literal)
  | string (points : List Nat)
  | array (items : List Json)
  | object (fields : List (List Nat × Json))
  deriving Repr

namespace Json

/-- The code points of a text. -/
def points (s : String) : List Nat :=
  s.toList.map Char.toNat

/-- The character with a code point, unless it is half of a surrogate pair. -/
def char? (point : Nat) : Option Char :=
  if h : point.isValidChar then some (Char.ofNatAux point h) else none

/-- The text that code points spell. -/
def text? (ps : List Nat) : Option String :=
  (ps.mapM char?).map String.ofList

/-- The string of a text. -/
def ofString (s : String) : Json :=
  .string (points s)

/-- The number of a natural number. -/
def ofNat (n : Nat) : Json :=
  .number (.ofNat n)

/-- The number of a float; what is not finite has no number and becomes `null`. -/
def ofFloat (x : Float) : Json :=
  match Literal.ofFloat? x with
  | some l => .number l
  | none => .null

/-- A value that may be missing; `null` marks that it is. -/
def ofOption {α : Type} (encode : α → Json) : Option α → Json
  | some a => encode a
  | none => .null

/-- An object with the given field names. -/
def record (fields : List (String × Json)) : Json :=
  .object (fields.map fun field => (points field.1, field.2))

end Json

end Uniprocessor
