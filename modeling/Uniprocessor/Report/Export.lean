import Uniprocessor.Files.Disk
import Uniprocessor.Report.Basic

/-!
# Writing reports to files

A report is written as three texts in a directory of their own, or as one JSON file.  Files are
written one after the other, and the first that cannot be written ends it.
-/

namespace Uniprocessor

namespace Report

variable {m : Type → Type} [Monad m]

/-- The texts of a report: the two logs and the figures, by file name. -/
def texts (r : Report) : List (String × String) :=
  [("scheduler.log", r.events.processText), ("memory.log", r.events.memoryText),
    ("scheduler.perf", r.summary.text)]

/-- Writes texts into a directory. -/
def writeAll (disk : Disk m) (directory : String) :
    List (String × String) → m (Except FileError Unit)
  | [] => return .ok ()
  | (name, text) :: rest => do
    match ← disk.write (Path.join directory name) text with
    | .error e => return .error e
    | .ok () => writeAll disk directory rest

/-- Writes the texts of a report into a directory, which is made if it is missing. -/
def exportTexts (disk : Disk m) (directory : String) (r : Report) : m (Except FileError Unit) := do
  match ← disk.makeDirectories directory with
  | .error e => return .error e
  | .ok () => writeAll disk directory r.texts

/-- Writes a report to a JSON file. -/
def exportJson (disk : Disk m) (path : String) (r : Report) : m (Except FileError Unit) :=
  disk.write path r.save

end Report

end Uniprocessor
