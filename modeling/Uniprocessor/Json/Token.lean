import Uniprocessor.Json.Basic

/-!
# JSON tokens

A text is cut into tokens by a machine that looks at one character at a time.  Words and numbers
are collected while their characters last and judged when they end; a string is collected escape
by escape.  Blanks between tokens are the four that JSON allows.

* `Token.scan` --- the tokens of a text, or `none` if it is not made of tokens;
* `Literal.ofChars?` --- the number grammar.
-/

namespace Uniprocessor

/-- Splits a row of digits off the front. -/
def Literal.spanDigits (cs : List Char) : List Char × List Char :=
  (cs.takeWhile Char.isDigit, cs.dropWhile Char.isDigit)

/-- Reads the exponent of a number, which ends it. -/
def Literal.exponent? : List Char → Option (Option (Bool × List Char))
  | [] => some none
  | e :: cs =>
    if e == 'e' || e == 'E' then
      let (minus, ds) :=
        match cs with
        | '+' :: rest => (false, rest)
        | '-' :: rest => (true, rest)
        | rest => (false, rest)
      if ds.isEmpty || !ds.all Char.isDigit then none else some (some (minus, ds))
    else none

/-- Reads a number after its sign: no leading zeros, and at least one digit next to the point. -/
def Literal.unsigned? (negative : Bool) (cs : List Char) : Option Literal :=
  let (whole, rest) := spanDigits cs
  if whole.isEmpty || (whole.head? == some '0' && 1 < whole.length) then none
  else
    match rest with
    | '.' :: rest =>
      let (fraction, rest) := spanDigits rest
      if fraction.isEmpty then none
      else (exponent? rest).map fun e => ⟨negative, whole, fraction, e⟩
    | rest => (exponent? rest).map fun e => ⟨negative, whole, [], e⟩

/-- Reads a whole text as a number. -/
def Literal.ofChars? : List Char → Option Literal
  | '-' :: cs => unsigned? true cs
  | cs => unsigned? false cs

namespace Json

/-- The smallest parts of a text that mean something. -/
inductive Token where
  | openArray
  | closeArray
  | openObject
  | closeObject
  | comma
  | colon
  | null
  | bool (value : Bool)
  | number (literal : Literal)
  | string (points : List Nat)
  deriving Repr, DecidableEq

namespace Token

/-- Where the machine stands.  What has been collected is reversed. -/
inductive Mode where
  /-- Between tokens. -/
  | between
  /-- In a word or number. -/
  | plain (seen : List Char)
  /-- In a string. -/
  | inString (points : List Nat)
  /-- In a string, after a backslash. -/
  | escape (points : List Nat)
  /-- In a string, in a four-digit escape: value so far and digits to come. -/
  | hex (points : List Nat) (value digits : Nat)

/-- Whether a character belongs to words and numbers. -/
def isPlain (c : Char) : Bool :=
  c.isAlphanum || c == '-' || c == '+' || c == '.'

/-- The blanks of JSON. -/
def isSpace (c : Char) : Bool :=
  c == ' ' || c == '\n' || c == '\t' || c == '\r'

/-- The token a character is on its own. -/
def mark? : Char → Option Token
  | '[' => some .openArray
  | ']' => some .closeArray
  | '\x7b' => some .openObject
  | '\x7d' => some .closeObject
  | ',' => some .comma
  | ':' => some .colon
  | _ => none

/-- The token a word or number is. -/
def plain? (cs : List Char) : Option Token :=
  if cs == "null".toList then some .null
  else if cs == "true".toList then some (.bool true)
  else if cs == "false".toList then some (.bool false)
  else (Literal.ofChars? cs).map .number

/-- The value of a hexadecimal digit. -/
def hexValue? (c : Char) : Option Nat :=
  if c.isDigit then some (c.toNat - '0'.toNat)
  else if 'a' ≤ c && c ≤ 'f' then some (c.toNat - 'a'.toNat + 10)
  else if 'A' ≤ c && c ≤ 'F' then some (c.toNat - 'A'.toNat + 10)
  else none

/-- The character a one-letter escape stands for. -/
def escaped? : Char → Option Nat
  | '"' => some 0x22
  | '\\' => some 0x5C
  | '/' => some 0x2F
  | 'b' => some 0x08
  | 'f' => some 0x0C
  | 'n' => some 0x0A
  | 'r' => some 0x0D
  | 't' => some 0x09
  | _ => none

/-- Appends a code unit to reversed code points, joining the halves of a surrogate pair. -/
def pushUnit : List Nat → Nat → List Nat
  | [], unit => [unit]
  | last :: points, unit =>
    if 0xD800 ≤ last && last < 0xDC00 && 0xDC00 ≤ unit && unit < 0xE000 then
      (0x10000 + (last - 0xD800) * 0x400 + (unit - 0xDC00)) :: points
    else unit :: last :: points

/-- A step from between two tokens: the tokens completed, and where the machine goes. -/
def start? (c : Char) : Option (List Token × Mode) :=
  if isSpace c then some ([], .between)
  else if c == '"' then some ([], .inString [])
  else if isPlain c then some ([], .plain [c])
  else (mark? c).map fun t => ([t], .between)

/-- A step of the machine. -/
def step? : Mode → Char → Option (List Token × Mode)
  | .between, c => start? c
  | .plain seen, c =>
    if isPlain c then some ([], .plain (c :: seen))
    else do
      let token ← plain? seen.reverse
      let (tokens, mode) ← start? c
      return (token :: tokens, mode)
  | .inString points, c =>
    if c == '"' then some ([.string points.reverse], .between)
    else if c == '\\' then some ([], .escape points)
    else if c.toNat < 0x20 then none
    else some ([], .inString (c.toNat :: points))
  | .escape points, c =>
    if c == 'u' then some ([], .hex points 0 4)
    else (escaped? c).map fun point => ([], .inString (point :: points))
  | .hex points value digits, c =>
    (hexValue? c).map fun d =>
      if digits ≤ 1 then ([], .inString (pushUnit points (16 * value + d)))
      else ([], .hex points (16 * value + d) (digits - 1))

/-- What is left to deliver at the end of the text. -/
def finish? : Mode → Option (List Token)
  | .between => some []
  | .plain seen => (plain? seen.reverse).map fun t => [t]
  | _ => none

/-- The tokens of a text read from a given mode, after the reversed tokens `done`. -/
def scanFrom (done : List Token) (mode : Mode) : List Char → Option (List Token)
  | [] => (finish? mode).map fun tokens => done.reverse ++ tokens
  | c :: cs =>
    match step? mode c with
    | none => none
    | some (tokens, next) => scanFrom (tokens.reverse ++ done) next cs

/-- The tokens of a text. -/
def scan (cs : List Char) : Option (List Token) :=
  scanFrom [] .between cs

end Token

end Json

end Uniprocessor
