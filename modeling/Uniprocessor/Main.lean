import Uniprocessor.Command.Session

/-!
# The program

The files and streams of the surroundings, and nothing else: a session on the real disk, whose
outcome is written out.
-/

namespace Uniprocessor

/-- The number of a system error, which some operations report negated. -/
def errorNumber (code : UInt32) : UInt32 :=
  min code (0 - code)

/-- The cause of a failed file operation. -/
def FileError.ofSystem : IO.Error → FileError
  | .noFileOrDirectory .. => .notFound
  | .alreadyExists .. => .alreadyExists
  | .inappropriateType _ code details =>
    if errorNumber code = 20 then .notDirectory
    else if errorNumber code = 21 then .isDirectory
    else .other details
  | .invalidArgument _ code details =>
    if errorNumber code = 36 then .nameTooLong else .other details
  | e => .other (toString e)

/-- An operation on files, with its failure as a value. -/
def guarded {α : Type} (act : IO α) : IO (Except FileError α) := do
  match ← act.toBaseIO with
  | .ok a => return .ok a
  | .error e => return .error (.ofSystem e)

/-- The disk of the surroundings. -/
def Disk.real : Disk IO where
  read path := guarded (IO.FS.readBinFile path)
  write path text := guarded (IO.FS.writeFile path text)
  makeDirectory path := guarded (IO.FS.createDir path)
  isDirectory path := do
    match ← (IO.FS.realPath path).toBaseIO with
    | .ok found => found.isDir
    | .error _ => return false

/-- A random seed, for the case that none is given. -/
def randomSeed : IO Nat := do
  return (← IO.getRandomBytes 8).toList.foldl (fun n byte => 256 * n + byte.toNat) 0

end Uniprocessor

open Uniprocessor in
/-- Runs a session for the arguments of the program. -/
def main (args : List String) : IO UInt32 := do
  let outcome ← Session.main .real (← randomSeed) args
  IO.print outcome.stdout
  IO.eprint outcome.stderr
  return outcome.code.toUInt32
