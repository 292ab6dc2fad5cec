import Uniprocessor.Text.Blank
import Uniprocessor.Text.Line
import Uniprocessor.Workload.Basic

/-!
# Workload texts

A workload text has one process to a line, as five numbers between blanks: identifier, arrival,
run time, priority and memory.  Empty lines, and lines whose first character after the blanks is
`#`, say nothing.  The first malformed line ends the reading; only then is the list as a whole
judged by `Workload.ofList`.

* `Workload.parse` --- reads a text;
* `Workload.toText` --- writes one: a heading, then the processes with tabs between the numbers.
-/

namespace Uniprocessor

namespace Workload

/-- Reads the number in a column of line `line`, which must lie below `bound`. -/
def readField (line : Nat) (column : Column) (bound : Nat) (word : List Char) :
    Except WorkloadError Nat :=
  match Text.readNat? word64 word with
  | none => .error (.badField line column (String.ofList word))
  | some n => if n < bound then .ok n else .error (.outOfRange line column)

/-- Reads the words of line `line` as a process.  The columns are judged in the order identifier,
priority, memory, arrival, run time. -/
def readProcess (line : Nat) : List (List Char) → Except WorkloadError Process
  | [idWord, arrivalWord, runTimeWord, priorityWord, memoryWord] => do
    let id ← readField line .id word32 idWord
    let priority ← readField line .priority word32 priorityWord
    let memory ← readField line .memory word64 memoryWord
    let arrival ← readField line .arrival word64 arrivalWord
    let runTime ← readField line .runTime word64 runTimeWord
    return ⟨id, arrival, runTime, priority, memory⟩
  | words => .error (.fieldCount line words.length)

/-- Whether a line says nothing, once the blanks around it are gone. -/
def isComment (line : List Char) : Bool :=
  line.isEmpty || line.head? == some '#'

/-- Reads lines, the first of which has number `line`, as processes. -/
def readLines (line : Nat) : List (List Char) → Except WorkloadError (List Process)
  | [] => .ok []
  | cs :: rest =>
    let content := Text.trim cs
    if isComment content then readLines (line + 1) rest
    else
      match readProcess line (Text.words content) with
      | .error fault => .error fault
      | .ok p => (readLines (line + 1) rest).map (p :: ·)

/-- Reads a workload text. -/
def parse (text : String) : Except WorkloadError Workload :=
  match readLines 1 (Text.lines text.toList) with
  | .error fault => .error fault
  | .ok ps => ofList ps

/-- The heading of a written workload. -/
def heading : List Char :=
  "#id\tarrival\truntime\tpriority\tmemsize\n".toList

/-- The line of a process. -/
def processLine (p : Process) : List Char :=
  Text.digits p.id ++ '\t' :: (Text.digits p.arrival ++ '\t' :: (Text.digits p.runTime ++
    '\t' :: (Text.digits p.priority ++ '\t' :: (Text.digits p.memory ++ ['\n']))))

/-- The text of a workload. -/
def toText (w : Workload) : String :=
  String.ofList (heading ++ w.processes.flatMap processLine)

end Workload

end Uniprocessor
