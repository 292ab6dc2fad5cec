/-!
# Lines

A line ends at a line feed, which does not belong to it; a carriage return directly before the
line feed is part of the line end too.  What follows the last line feed is a line only if it is
not empty, and keeps a carriage return it may end in.
-/

namespace Uniprocessor.Text

/-- A reversed line without the carriage return it ended in, put the right way round. -/
def closeLine : List Char → List Char
  | '\r' :: rest => rest.reverse
  | line => line.reverse

/-- The lines of a text, where `line` holds, reversed, what has been read of the current one. -/
def linesFrom (line : List Char) : List Char → List (List Char)
  | [] => if line.isEmpty then [] else [line.reverse]
  | '\n' :: cs => closeLine line :: linesFrom [] cs
  | c :: cs => linesFrom (c :: line) cs

/-- The lines of a text, in order. -/
def lines (cs : List Char) : List (List Char) :=
  linesFrom [] cs

end Uniprocessor.Text
