import Uniprocessor.Failure
import Uniprocessor.Json.Record
import Uniprocessor.Text.Blank

/-!
# Scheduling policies

Which of the ready processes gets the processor, and when it loses it.

* highest priority first: the least priority value runs, until it finishes;
* shortest remaining time next: the least remaining time runs, and is displaced by an arrival that
  needs strictly less;
* round robin: the processes take turns of `quantum` contended ticks.

A policy is read from a short text, is shown with its quantum, and has a case name in saved
reports.
-/

namespace Uniprocessor

/-- A scheduling policy. -/
inductive Policy where
  | highestPriorityFirst
  | shortestRemainingTimeNext
  | roundRobin (quantum : Nat)
  deriving Repr, DecidableEq

namespace Policy

/-- Whether the ready processes are kept by key, and not in the order they come. -/
def usesHeap : Policy → Bool
  | roundRobin _ => false
  | _ => true

/-- The abbreviation of a policy. -/
def shortName : Policy → String
  | highestPriorityFirst => "hpf"
  | shortestRemainingTimeNext => "srtn"
  | roundRobin _ => "rr"

/-- A policy as it is shown. -/
def text : Policy → String
  | roundRobin quantum => "rr(quantum=" ++ toString quantum ++ ")"
  | policy => policy.shortName

/-- Reads a policy: `hpf`, `srtn`, `rr` (quantum one) or `rr:` and a quantum, with blanks around it
and ASCII letters of either case.  A text that is no policy is quoted as it was given, a bad
quantum in small letters. -/
def read (s : String) : Except ConfigError Policy :=
  let name := (Text.trim s.toList).map Char.toLower
  if name == "hpf".toList then .ok highestPriorityFirst
  else if name == "srtn".toList then .ok shortestRemainingTimeNext
  else if name == "rr".toList then .ok (roundRobin 1)
  else
    match name with
    | 'r' :: 'r' :: ':' :: quantum =>
      match Text.readNat? word64 quantum with
      | some n => .ok (roundRobin n)
      | none => .error (.badQuantum (String.ofList quantum))
    | _ => .error (.unknownPolicy s)

/-- A policy in a saved report. -/
def toJson : Policy → Json
  | highestPriorityFirst => .ofString "HighestPriorityFirst"
  | shortestRemainingTimeNext => .ofString "ShortestRemainingTimeNext"
  | roundRobin quantum => .record [("RoundRobin", .record [("quantum", .ofNat quantum)])]

/-- Reads a policy from a saved report. -/
def ofJson? (v : Json) : Option Policy :=
  match v.variant? with
  | some ("HighestPriorityFirst", _) => v.unitVariant?.map fun _ => highestPriorityFirst
  | some ("ShortestRemainingTimeNext", _) => v.unitVariant?.map fun _ => shortestRemainingTimeNext
  | some ("RoundRobin", some contents) =>
    match contents.fields? ["quantum"] 0 with
    | some [quantum] => (Json.required (Json.nat? word64) quantum).map roundRobin
    | _ => none
  | _ => none

end Policy

end Uniprocessor
