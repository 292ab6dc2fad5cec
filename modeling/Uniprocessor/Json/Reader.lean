import Uniprocessor.Json.Token

/-!
# Reading JSON

The containers that are still open are kept on a stack, the innermost first, each with what it
holds so far; one token after the other is then either put on top or closes it.  A text is a value
if, after its last token, one value is complete and nothing is open.  The stack grows with the
nesting, so containers may be nested as deep as the text is long.

* `Json.Reading` --- the stack and what may come next;
* `Json.Reading.step?` --- one token;
* `Json.parse?` --- a whole text.
-/

namespace Uniprocessor

namespace Json

/-- A container that is still open, with its contents reversed. -/
inductive Frame where
  | array (items : List Json)
  | object (fields : List (List Nat × Json))
  /-- An object in which a field name waits for its value. -/
  | field (fields : List (List Nat × Json)) (name : List Nat)

/-- What may come next. -/
inductive Expected where
  /-- A value. -/
  | value
  /-- A value, or the end of the array just opened. -/
  | firstItem
  /-- A field name, or the end of the object just opened. -/
  | firstName
  /-- A field name. -/
  | name
  /-- The colon after a field name. -/
  | colon
  /-- A comma, or the end of the innermost container. -/
  | separator
  /-- Nothing: a value is complete. -/
  | nothing (value : Json)

/-- How far a text has been read. -/
structure Reading where
  stack : List Frame
  expected : Expected

namespace Reading

/-- Before the first token. -/
def start : Reading :=
  ⟨[], .value⟩

/-- Delivers a complete value to the innermost open container. -/
def deliver (stack : List Frame) (v : Json) : Option Reading :=
  match stack with
  | [] => some ⟨[], .nothing v⟩
  | .array items :: rest => some ⟨.array (v :: items) :: rest, .separator⟩
  | .field fields name :: rest => some ⟨.object ((name, v) :: fields) :: rest, .separator⟩
  | .object _ :: _ => none

/-- Takes a token where a value may start. -/
def value? (stack : List Frame) : Token → Option Reading
  | .openArray => some ⟨.array [] :: stack, .firstItem⟩
  | .openObject => some ⟨.object [] :: stack, .firstName⟩
  | .null => deliver stack .null
  | .bool b => deliver stack (.bool b)
  | .number l => deliver stack (.number l)
  | .string s => deliver stack (.string s)
  | _ => none

/-- Takes a token where a field name must stand. -/
def name? : List Frame → Token → Option Reading
  | .object fields :: rest, .string s => some ⟨.field fields s :: rest, .colon⟩
  | _, _ => none

/-- Closes the innermost container, or goes on in it after a comma. -/
def close? : List Frame → Token → Option Reading
  | .array items :: rest, .closeArray => deliver rest (.array items.reverse)
  | .object fields :: rest, .closeObject => deliver rest (.object fields.reverse)
  | .array items :: rest, .comma => some ⟨.array items :: rest, .value⟩
  | .object fields :: rest, .comma => some ⟨.object fields :: rest, .name⟩
  | _, _ => none

/-- Takes one token. -/
def step? (r : Reading) (t : Token) : Option Reading :=
  match r.expected, t with
  | .value, t => value? r.stack t
  | .firstItem, .closeArray => close? r.stack .closeArray
  | .firstItem, t => value? r.stack t
  | .firstName, .closeObject => close? r.stack .closeObject
  | .firstName, t => name? r.stack t
  | .name, t => name? r.stack t
  | .colon, .colon => some ⟨r.stack, .value⟩
  | .separator, t => close? r.stack t
  | _, _ => none

/-- Takes tokens until one does not fit. -/
def run? (r : Reading) : List Token → Option Reading
  | [] => some r
  | t :: ts =>
    match r.step? t with
    | none => none
    | some next => run? next ts

/-- The value read, if it is complete. -/
def result? (r : Reading) : Option Json :=
  match r.expected with
  | .nothing v => some v
  | _ => none

end Reading

/-- The value that tokens spell. -/
def ofTokens? (ts : List Token) : Option Json :=
  (Reading.start.run? ts).bind Reading.result?

/-- The value that a text spells. -/
def parse? (text : String) : Option Json :=
  (Token.scan text.toList).bind ofTokens?

end Json

end Uniprocessor
