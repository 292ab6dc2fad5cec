import Uniprocessor.Files.Path

/-!
# Folders

Files and directories as a value.  A directory holds files and directories by name, and a `Folder`
is a working directory in such a tree.  Following a path keeps the directories it went through, so
that `..` can go back to them and a change can be carried out to the root: a `Place` is a directory
together with those around it.

Every name that another one follows must stand for a directory, and no name may be too long; the
first name that is at fault decides the refusal.

* `Folder.read`, `Folder.write`, `Folder.makeDirectory` --- the operations on files;
* `Folder.files` --- what is below the working directory.
-/

namespace Uniprocessor

/-- What a name in a directory stands for. -/
inductive Node where
  | file (contents : ByteArray)
  /-- A file that is always empty: what is written to it is lost. -/
  | sink
  | directory (entries : List (String × Node))

/-- The contents of a file. -/
def Node.contents? : Node → Option ByteArray
  | .file contents => some contents
  | .sink => some .empty
  | .directory _ => none

/-- What is in a directory, by name. -/
abbrev Entries := List (String × Node)

/-- Puts something under a name, in place of what was there. -/
def Entries.put (entries : Entries) (name : String) (node : Node) : Entries :=
  entries.filter (fun e => e.1 != name) ++ [(name, node)]

mutual

/-- The files in what stands at a path, without those that keep nothing. -/
def Node.filesAt (path : String) : Node → List (String × ByteArray)
  | .file contents => [(path, contents)]
  | .sink => []
  | .directory entries => filesIn (path ++ "/") entries

/-- The files in a directory, with a text before their paths. -/
def filesIn (before : String) : List (String × Node) → List (String × ByteArray)
  | [] => []
  | (name, node) :: rest => node.filesAt (before ++ name) ++ filesIn before rest

end

/-- A directory that a path leads to. -/
structure Place where
  /-- What is in it. -/
  entries : Entries
  /-- The names that lead to it, the last first, each with what is in the directory that the name
  stands in. -/
  around : List (String × Entries)

namespace Place

/-- How many bytes a name can have. -/
def nameLimit : Nat := 255

/-- What a name in a place stands for. -/
def look (p : Place) (name : String) : Except FileError (Option Node) :=
  if nameLimit < name.utf8ByteSize then .error .nameTooLong else .ok (p.entries.lookup name)

/-- The directory around a place; around the root there is none. -/
def out (p : Place) : Place :=
  match p.around with
  | [] => p
  | (_, entries) :: around => ⟨entries, around⟩

/-- Follows names that all lead to directories. -/
def follow (p : Place) : List String → Except FileError Place
  | [] => .ok p
  | "." :: rest => p.follow rest
  | ".." :: rest => p.out.follow rest
  | name :: rest => do
    match ← p.look name with
    | some (.directory entries) => follow ⟨entries, (name, p.entries) :: p.around⟩ rest
    | some _ => .error .notDirectory
    | none => .error .notFound

/-- What is in the root, with something put under a name in a place. -/
def put (p : Place) (name : String) (node : Node) : Entries :=
  p.around.foldl (fun inner (name, entries) => Entries.put entries name (.directory inner))
    (Entries.put p.entries name node)

end Place

/-- What the last name of a path is: the name of something in a place, or a way to say a directory
that is there already. -/
inductive Spot where
  | directory
  | entry (place : Place) (name : String)

/-- A working directory in a tree of directories. -/
structure Folder where
  /-- What is in the root. -/
  entries : Entries
  /-- The names that lead from the root to the working directory. -/
  here : List String

namespace Folder

/-- A working directory with nothing in it.  Besides the directories around it there is only the
sink `/dev/null`. -/
def fresh (here : List String) : Folder :=
  ⟨here.foldr (fun name inner => [(name, .directory inner)]) [] ++
    [("dev", .directory [("null", .sink)])], here⟩

/-- The names that lead from the root to where a path leads. -/
def namesTo (f : Folder) (path : Path) : List String :=
  if path.rooted then path.names else f.here ++ path.names

/-- Follows a path up to its last name. -/
def spot (f : Folder) (path : Path) : Except FileError Spot := do
  let names := f.namesTo path
  let place ← Place.follow ⟨f.entries, []⟩ names.dropLast
  match names.getLast? with
  | none | some "." | some ".." => return .directory
  | some name => return .entry place name

/-- The contents of the file that a path leads to, or none if that is a directory.  A path that can
only mean a directory leads to no file. -/
def find (f : Folder) (path : Path) : Except FileError (Option ByteArray) := do
  match ← f.spot path with
  | .directory => return none
  | .entry place name =>
    match ← place.look name with
    | none => .error .notFound
    | some node =>
      if path.closed && node.contents?.isSome then .error .notDirectory else return node.contents?

/-- Whether a path leads to a directory. -/
def isDirectory (f : Folder) (path : Path) : Bool :=
  match f.find path with
  | .ok none => true
  | _ => false

/-- The contents of the file that a path leads to. -/
def read (f : Folder) (path : Path) : Except FileError ByteArray := do
  match ← f.find path with
  | some contents => return contents
  | none => .error .isDirectory

/-- The folder with a directory made where a path leads, and where there was nothing. -/
def makeDirectory (f : Folder) (path : Path) : Except FileError Folder := do
  match ← f.spot path with
  | .directory => .error .alreadyExists
  | .entry place name =>
    match ← place.look name with
    | some _ => .error .alreadyExists
    | none => return { f with entries := place.put name (.directory []) }

/-- The folder with a file written where a path leads, over what was in it. -/
def write (f : Folder) (path : Path) (contents : ByteArray) : Except FileError Folder := do
  match ← f.spot path with
  | .directory => .error .isDirectory
  | .entry place name =>
    if path.closed then .error .isDirectory
    else
      match ← place.look name with
      | some (.directory _) => .error .isDirectory
      | some .sink => return f
      | _ => return { f with entries := place.put name (.file contents) }

/-- The files below the working directory, by their paths from there. -/
def files (f : Folder) : List (String × ByteArray) :=
  match Place.follow ⟨f.entries, []⟩ f.here with
  | .ok place => filesIn "" place.entries
  | .error _ => []

end Folder

end Uniprocessor
