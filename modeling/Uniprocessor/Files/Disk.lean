import Uniprocessor.Files.Folder

/-!
# Disks

The things a command does with files, for whatever it runs on: `Disk m` gives them in a monad `m`.
A `Folder` that changes is one such disk.

A directory can only be made in one that is there.  `Disk.makeDirectories` tries the innermost one
first, and goes a step out as long as something is missing; from there it makes one directory in the
other.  So what stands in the way is met by the whole path if nothing before it is missing, and
otherwise by the path of the directory that was to be made there.
-/

namespace Uniprocessor

/-- What a command can do with files; files and directories are named by the texts of paths. -/
structure Disk (m : Type → Type) where
  /-- Reads the bytes of a file. -/
  read : String → m (Except FileError ByteArray)
  /-- Writes a text to a file, over what was there. -/
  write : String → String → m (Except FileError Unit)
  /-- Makes a directory in one that is there. -/
  makeDirectory : String → m (Except FileError Unit)
  /-- Whether there is a directory. -/
  isDirectory : String → m Bool

namespace Disk

variable {m : Type → Type} [Monad m]

/-- Makes a directory in one that is there, unless it is there already. -/
def ensureDirectory (disk : Disk m) (path : String) : m (Except FileError Unit) := do
  match ← disk.makeDirectory path with
  | .ok () => return .ok ()
  | .error e => if ← disk.isDirectory path then return .ok () else return .error e

/-- Makes a directory, and those around it, the innermost first, where they are missing. -/
def makeWithin (disk : Disk m) (path : String) : List String → m (Except FileError Unit)
  | [] => disk.ensureDirectory path
  | parent :: rest => do
    match ← disk.ensureDirectory path with
    | .error .notFound =>
      match ← disk.makeWithin parent rest with
      | .ok () => disk.ensureDirectory path
      | .error e => return .error e
    | result => return result

/-- Makes a directory, and those on the way to it, where they are missing. -/
def makeDirectories (disk : Disk m) (path : String) : m (Except FileError Unit) :=
  disk.makeWithin path (Path.above path)

end Disk

namespace Folder

/-- A change of a folder that may be refused, and then leaves it as it is. -/
def change (act : Folder → Except FileError Folder) : StateM Folder (Except FileError Unit) :=
  fun f =>
    match act f with
    | .ok g => (.ok (), g)
    | .error e => (.error e, f)

/-- A folder as a disk. -/
def disk : Disk (StateM Folder) where
  read path f := (Path.read path >>= f.read, f)
  write path text := change fun f => do f.write (← Path.read path) text.toUTF8
  makeDirectory path := change fun f => do f.makeDirectory (← Path.read path)
  isDirectory path f := ((Path.read path).toOption.any f.isDirectory, f)

end Folder

end Uniprocessor
