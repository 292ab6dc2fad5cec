import Uniprocessor.Json.Token

/-!
# Writing JSON

The layout of written files: two more spaces for every level, one line for each item and field, a
space after the colon, and nothing between the brackets of an empty container.  There is no line
feed at the end.
-/

namespace Uniprocessor

namespace Json

/-- The hexadecimal digit of a number below sixteen. -/
def hexDigit (n : Nat) : Char :=
  if n < 10 then Char.ofNat ('0'.toNat + n) else Char.ofNat ('a'.toNat + (n - 10))

/-- A code unit as a four-digit escape. -/
def unitEscape (n : Nat) : List Char :=
  ['\\', 'u', hexDigit (n / 4096 % 16), hexDigit (n / 256 % 16), hexDigit (n / 16 % 16),
    hexDigit (n % 16)]

/-- A character of a string: quotes, backslashes and control characters are escaped. -/
def pointChars (point : Nat) : List Char :=
  match point with
  | 0x22 => ['\\', '"']
  | 0x5C => ['\\', '\\']
  | 0x08 => ['\\', 'b']
  | 0x0C => ['\\', 'f']
  | 0x0A => ['\\', 'n']
  | 0x0D => ['\\', 'r']
  | 0x09 => ['\\', 't']
  | _ =>
    if point < 0x20 then unitEscape point
    else
      match char? point with
      | some c => [c]
      | none => unitEscape point

/-- A string in quotes. -/
def stringChars (points : List Nat) : List Char :=
  '"' :: points.flatMap pointChars ++ ['"']

/-- A line feed and the indentation of a level. -/
def newline (level : Nat) : List Char :=
  '\n' :: List.replicate (2 * level) ' '

mutual

/-- A value, as it stands at a level. -/
def chars (level : Nat) : Json → List Char
  | .null => "null".toList
  | .bool true => "true".toList
  | .bool false => "false".toList
  | .number l => l.chars
  | .string s => stringChars s
  | .array [] => ['[', ']']
  | .array (v :: vs) =>
    '[' :: newline (level + 1) ++ chars (level + 1) v ++ itemChars (level + 1) vs ++
      newline level ++ [']']
  | .object [] => ['\x7b', '\x7d']
  | .object (f :: fs) =>
    '\x7b' :: newline (level + 1) ++ fieldChars (level + 1) f ++ laterFieldChars (level + 1) fs ++
      newline level ++ ['\x7d']

/-- The items after the first, each after a comma and on a line of its own. -/
def itemChars (level : Nat) : List Json → List Char
  | [] => []
  | v :: vs => ',' :: newline level ++ chars level v ++ itemChars level vs

/-- A field. -/
def fieldChars (level : Nat) : List Nat × Json → List Char
  | (name, v) => stringChars name ++ [':', ' '] ++ chars level v

/-- The fields after the first. -/
def laterFieldChars (level : Nat) : List (List Nat × Json) → List Char
  | [] => []
  | f :: fs => ',' :: newline level ++ fieldChars level f ++ laterFieldChars level fs

end

/-- The text of a value. -/
def pretty (v : Json) : String :=
  String.ofList (chars 0 v)

end Json

end Uniprocessor
