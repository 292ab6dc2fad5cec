/-!
# Blanks

The characters that separate words: those with the `White_Space` property of the Unicode
Character Database.  The zero-width characters (`U+200B`, `U+180E`, `U+FEFF`) and the information
separators (`U+001C` to `U+001F`) do not have it.

* `isBlank` --- the property, from the table `blankRanges`;
* `trim` --- a text without its leading and trailing blanks;
* `words` --- the maximal blank-free stretches of a text, in order.
-/

namespace Uniprocessor.Text

/-- First and last code point of each stretch of blanks. -/
def blankRanges : List (Nat × Nat) :=
  [(0x0009, 0x000D), (0x0020, 0x0020), (0x0085, 0x0085), (0x00A0, 0x00A0), (0x1680, 0x1680),
   (0x2000, 0x200A), (0x2028, 0x2029), (0x202F, 0x202F), (0x205F, 0x205F), (0x3000, 0x3000)]

/-- Whether a character is a blank. -/
def isBlank (c : Char) : Bool :=
  blankRanges.any fun range => range.1 ≤ c.toNat && c.toNat ≤ range.2

/-- The text without the blanks at its two ends. -/
def trim (cs : List Char) : List Char :=
  ((cs.dropWhile isBlank).reverse.dropWhile isBlank).reverse

/-- Puts a character in front of the first word. -/
def extendFirst (c : Char) : List (List Char) → List (List Char)
  | [] => [[c]]
  | w :: ws => (c :: w) :: ws

/-- The words of a text.  A character opens a new word when a blank, or nothing, follows it. -/
def words : List Char → List (List Char)
  | [] => []
  | c :: cs =>
    if isBlank c then words cs
    else
      match cs with
      | [] => [[c]]
      | d :: _ => if isBlank d then [c] :: words cs else extendFirst c (words cs)

end Uniprocessor.Text
