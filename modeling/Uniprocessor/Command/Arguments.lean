import Uniprocessor.Policy

/-!
# Command lines

The arguments of the program: what may stand before the command, the two commands, and the options
of each.

* an option that takes a value has it in the next argument, after an equals sign, or, for the short
  form, directly after the letter;
* letters of short options can be put together after one dash, up to one that takes a value;
* an argument that starts with a dash is never the value of an option, unless it is a lone dash;
* after `--` every argument is a plain one;
* a plain argument is not empty, and the command has a place for it;
* `-v` may stand before the command and after it, and the count after it wins; every other option
  may be given once.

A command line is read from left to right, and what it gives is `Taken` piece by piece.  A piece
that may not stand where it does ends the reading, and so does a request for the version or for
help, whichever comes first; what is missing shows only at the end.
-/

namespace Uniprocessor

/-- What the value of an option is. -/
inductive OptionValue where
  | policy (policy : Policy)
  | number (n : Nat)
  | path (path : String)
  /-- The option takes no value. -/
  | flag
  deriving Repr, DecidableEq

/-- The options of the program. -/
inductive OptionName where
  | verbose
  | help
  | version
  | policy
  | quantum
  | arena
  | capacity
  | tickLength
  | out
  | json
  | deterministic
  | count
  | seed
  | output
  deriving Repr, DecidableEq

/-- How the value of an option is read. -/
inductive ValueKind where
  | none
  | policy
  | number
  | path
  deriving Repr, DecidableEq

/-- An option: its name, its forms, and how its value is read. -/
structure OptionForm where
  name : OptionName
  short : Option Char
  long : String
  value : ValueKind

/-- The options that may stand anywhere. -/
def commonOptions : List OptionForm :=
  [⟨.verbose, some 'v', "verbose", .none⟩, ⟨.help, some 'h', "help", .none⟩]

/-- The options before the command. -/
def leadingOptions : List OptionForm :=
  ⟨.version, some 'V', "version", .none⟩ :: commonOptions

/-- The options of the command that runs a workload. -/
def runOptions : List OptionForm :=
  [⟨.policy, some 'p', "policy", .policy⟩, ⟨.quantum, some 'q', "quantum", .number⟩,
    ⟨.arena, none, "arena", .number⟩, ⟨.capacity, none, "capacity", .number⟩,
    ⟨.tickLength, none, "tick-ms", .number⟩, ⟨.out, some 'o', "out", .path⟩,
    ⟨.json, none, "json", .path⟩, ⟨.deterministic, none, "deterministic", .none⟩] ++ commonOptions

/-- The options of the command that makes a workload. -/
def generateOptions : List OptionForm :=
  [⟨.count, some 'n', "count", .number⟩, ⟨.seed, none, "seed", .number⟩,
    ⟨.arena, none, "arena", .number⟩, ⟨.output, some 'o', "output", .path⟩] ++ commonOptions

/-- Something given on a command line. -/
inductive Given where
  | option (name : OptionName) (value : OptionValue)
  | plain (text : String)
  deriving Repr, DecidableEq

/-- The values given to an option, the newest first. -/
def valuesOf (given : List Given) (name : OptionName) : List OptionValue :=
  given.filterMap fun g =>
    match g with
    | .option n v => if n = name then some v else none
    | .plain _ => none

/-- The plain arguments, the newest first. -/
def plainOf (given : List Given) : List String :=
  given.filterMap fun g =>
    match g with
    | .plain text => some text
    | .option _ _ => none

/-- Why the reading of a command line ends. -/
inductive Stop where
  | invalid
  | help
  | version
  deriving Repr, DecidableEq

/-- Reads the value of an option. -/
def ValueKind.read? (kind : ValueKind) (text : String) : Option OptionValue :=
  match kind with
  | none => Option.none
  | policy => (Policy.read text).toOption.map .policy
  | number => (Text.readNat? word64 text.toList).map .number
  | path => if text.isEmpty then Option.none else some (.path text)

/-- Whether an argument can be the value of the option before it, or a plain one. -/
def isPlainArgument (text : String) : Bool :=
  text == "-" || !text.startsWith "-"

/-- What may be given in a part of a command line: options, and a number of plain arguments. -/
structure ArgumentForm where
  options : List OptionForm
  places : Nat

/-- How far a part of a command line has been read. -/
structure Taken where
  /-- What has been given, the newest first. -/
  given : List Given
  /-- The option that still waits for its value. -/
  waiting : Option OptionForm
  /-- Whether every argument from here on is a plain one. -/
  plainOnly : Bool

namespace ArgumentForm

/-- Whether something may be given after what was given before: a plain argument has a place and
holds something, and an option is new unless it is the one for diagnostics. -/
def admits (form : ArgumentForm) (before : List Given) : Given → Bool
  | .plain text => !text.isEmpty && (plainOf before).length < form.places
  | .option name _ => name = .verbose || (valuesOf before name).isEmpty

/-- Takes something that is given. -/
def take (form : ArgumentForm) (t : Taken) (g : Given) : Except Stop Taken :=
  if form.admits t.given g then .ok { t with given := g :: t.given, waiting := none }
  else .error .invalid

/-- Takes an option that has no value: some end the reading. -/
def takeFlag (form : ArgumentForm) (t : Taken) : OptionName → Except Stop Taken
  | .help => .error .help
  | .version => .error .version
  | name => form.take t (.option name .flag)

/-- Takes an option with its value. -/
def takeValue (form : ArgumentForm) (t : Taken) (option : OptionForm) (text : String) :
    Except Stop Taken :=
  match option.value.read? text with
  | some value => form.take t (.option option.name value)
  | none => .error .invalid

/-- Takes the letters after one dash. -/
def takeLetters (form : ArgumentForm) (t : Taken) : List Char → Except Stop Taken
  | [] => .ok t
  | c :: rest =>
    match form.options.find? fun option => option.short == some c with
    | none => .error .invalid
    | some option =>
      if option.value = .none then do
        takeLetters form (← form.takeFlag t option.name) rest
      else
        match rest with
        | [] => .ok { t with waiting := some option }
        | '=' :: value => form.takeValue t option (String.ofList value)
        | value => form.takeValue t option (String.ofList value)

/-- Takes what stands after two dashes: a name, and a value after the first equals sign. -/
def takeLong (form : ArgumentForm) (t : Taken) (text : List Char) : Except Stop Taken :=
  let name := text.takeWhile (· != '=')
  match form.options.find? fun option => option.long.toList == name with
  | none => .error .invalid
  | some option =>
    match text.dropWhile (· != '=') with
    | [] =>
      if option.value = .none then form.takeFlag t option.name
      else .ok { t with waiting := some option }
    | _ :: value =>
      if option.value = .none then .error .invalid
      else form.takeValue t option (String.ofList value)

/-- Takes an argument that starts with a dash. -/
def takeDashed (form : ArgumentForm) (t : Taken) (text : String) : Except Stop Taken :=
  match text.toList with
  | '-' :: '-' :: long => form.takeLong t long
  | '-' :: letters => form.takeLetters t letters
  | _ => .error .invalid

/-- Takes one argument. -/
def takeArgument (form : ArgumentForm) (t : Taken) (text : String) : Except Stop Taken :=
  if t.plainOnly then form.take t (.plain text)
  else
    match t.waiting with
    | some option =>
      if isPlainArgument text then form.takeValue t option text else .error .invalid
    | none =>
      if text == "--" then .ok { t with plainOnly := true }
      else if isPlainArgument text then form.take t (.plain text)
      else form.takeDashed t text

/-- Reads arguments to the end, where no option may still wait for its value. -/
def read (form : ArgumentForm) (args : List String) : Except Stop (List Given) := do
  let t ← args.foldlM form.takeArgument ⟨[], none, false⟩
  if t.waiting.isSome then .error .invalid else .ok t.given

end ArgumentForm

/-- What may be given before the command. -/
def leadingForm : ArgumentForm :=
  ⟨leadingOptions, 0⟩

/-- What may be given to the command that runs a workload: the workload is a plain argument. -/
def runForm : ArgumentForm :=
  ⟨runOptions, 1⟩

/-- What may be given to the command that makes a workload. -/
def generateForm : ArgumentForm :=
  ⟨generateOptions, 0⟩

/-- Reads arguments up to the first plain one, and gives what is left from there.  The options
before the command take no values. -/
def readLeading (t : Taken) : List String → Except Stop (List Given × List String)
  | [] => .ok (t.given, [])
  | text :: rest =>
    if isPlainArgument text then .ok (t.given, text :: rest)
    else if text == "--" then .error .invalid
    else do readLeading (← leadingForm.takeDashed t text) rest

/-! ## Commands -/

/-- The settings of the command that runs a workload. -/
structure RunSettings where
  workload : String
  policy : Policy
  arena : Nat
  capacity : Nat
  tickLength : Nat
  out : String
  json : Option String
  deterministic : Bool
  deriving Repr, DecidableEq

/-- The settings of the command that makes a workload; without a seed one is made up. -/
structure GenerateSettings where
  count : Nat
  seed : Option Nat
  arena : Nat
  output : String
  deriving Repr, DecidableEq

/-- What the program is to do. -/
inductive Command where
  | run (settings : RunSettings)
  | generate (settings : GenerateSettings)
  deriving Repr, DecidableEq

/-- A command, and how many times more diagnostics were asked for. -/
structure Invocation where
  command : Command
  verbosity : Nat
  deriving Repr, DecidableEq

/-- How often more diagnostics were asked for. -/
def verbosityOf (given : List Given) : Nat :=
  (valuesOf given .verbose).length

/-- The number given to an option. -/
def numberOf? (given : List Given) (name : OptionName) : Option Nat :=
  match valuesOf given name with
  | .number n :: _ => some n
  | _ => none

/-- The path given to an option. -/
def pathOf? (given : List Given) (name : OptionName) : Option String :=
  match valuesOf given name with
  | .path p :: _ => some p
  | _ => none

/-- The policy given; a quantum of its own makes it round robin. -/
def policyOf (given : List Given) : Policy :=
  match numberOf? given .quantum, valuesOf given .policy with
  | some quantum, _ => .roundRobin quantum
  | none, .policy policy :: _ => policy
  | none, _ => .highestPriorityFirst

/-- The command that runs a workload, which has to be given. -/
def runCommand (given : List Given) : Except Stop Command :=
  match plainOf given with
  | workload :: _ =>
    .ok (.run
      { workload := workload
        policy := policyOf given
        arena := (numberOf? given .arena).getD 1024
        capacity := (numberOf? given .capacity).getD 1000
        tickLength := (numberOf? given .tickLength).getD 0
        out := (pathOf? given .out).getD "."
        json := pathOf? given .json
        deterministic := !(valuesOf given .deterministic).isEmpty })
  | [] => .error .invalid

/-- The command that makes a workload. -/
def generateCommand (given : List Given) : Command :=
  .generate
    { count := (numberOf? given .count).getD 10
      seed := numberOf? given .seed
      arena := (numberOf? given .arena).getD 1024
      output := (pathOf? given .output).getD "processes.txt" }

/-- The count for diagnostics: the one after the command, unless it is zero. -/
def combinedVerbosity (leading given : List Given) : Nat :=
  if verbosityOf given = 0 then verbosityOf leading else verbosityOf given

/-- What help can be asked for by name: the program, or one of its commands. -/
def helpTopics : List (List String) :=
  [[], ["run"], ["generate"], ["help"]]

/-- Reads the arguments of the program. -/
def Invocation.read (args : List String) : Except Stop Invocation := do
  let (leading, rest) ← readLeading ⟨[], none, false⟩ args
  match rest with
  | "run" :: rest =>
    let given ← runForm.read rest
    return ⟨← runCommand given, combinedVerbosity leading given⟩
  | "generate" :: rest =>
    let given ← generateForm.read rest
    return ⟨generateCommand given, combinedVerbosity leading given⟩
  | "help" :: topic => .error (if topic ∈ helpTopics then .help else .invalid)
  | _ => .error .invalid

end Uniprocessor
