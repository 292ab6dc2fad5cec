import Uniprocessor.Failure

/-!
# Paths

A path is a text of names with slashes between them.  It leads from the working directory, or from
the root if it starts with a slash, through the directories it names to what its last name stands
for.

* `.` stays in a directory, and `..` goes back to the one around it;
* slashes in a row count as one, and a path that ends in a slash can only mean a directory;
* a text of `Path.lengthLimit` bytes or more is no path.

`Path.read` takes a text apart, `Path.join` puts a name after the text of a directory, and
`Path.above` lists the directories on the way, of which some may have to be made.
-/

namespace Uniprocessor

/-- A path that has been taken apart. -/
structure Path where
  /-- Whether it leads from the root. -/
  rooted : Bool
  names : List String
  /-- Whether it can only mean a directory. -/
  closed : Bool
  deriving Repr, DecidableEq

namespace Path

/-- How many bytes are too many for the text of a path. -/
def lengthLimit : Nat := 4096

/-- The names in a text. -/
def namesOf (text : String) : List String :=
  (text.splitOn "/").filter fun name => !name.isEmpty

/-- Takes a text apart; the empty one leads nowhere. -/
def read (text : String) : Except FileError Path :=
  if text.isEmpty then .error .notFound
  else if lengthLimit ≤ text.utf8ByteSize then .error .nameTooLong
  else .ok ⟨text.startsWith "/", namesOf text, text.endsWith "/"⟩

/-- The text for a name in a directory. -/
def join (directory name : String) : String :=
  if directory.endsWith "/" then directory ++ name else directory ++ "/" ++ name

/-- The beginnings of a list that end in an element with a property, the longest first. -/
def beginnings {α : Type} (p : α → Bool) (xs : List α) : List (List α) :=
  (((List.range xs.length).map fun n => xs.take (n + 1)).filter fun ys => ys.getLast?.any p).reverse

/-- The texts of the directories on the way to what a text means, the innermost first.  A `.` names
no directory of its own, so what stands before the last other name is on the way. -/
def above (text : String) : List String :=
  ((beginnings (· != ".") (namesOf text)).drop 1).map fun names =>
    (if text.startsWith "/" then "/" else "") ++ "/".intercalate names

end Path

end Uniprocessor
