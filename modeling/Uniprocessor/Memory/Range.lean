import Uniprocessor.Json.Record

/-!
# Address ranges

The addresses a block occupies, as logs and reports quote them: size, first and last address.  A
range read from a saved log is taken as it stands.
-/

namespace Uniprocessor

/-- A stretch of addresses; `last` is inclusive. -/
structure Range where
  size : Nat
  start : Nat
  last : Nat
  deriving Repr, DecidableEq

namespace Range

/-- A range in a saved log. -/
def toJson (r : Range) : Json :=
  .record [("size", .ofNat r.size), ("start", .ofNat r.start), ("end", .ofNat r.last)]

/-- Reads a range from a saved log. -/
def ofJson? (v : Json) : Option Range :=
  match v.fields? ["size", "start", "end"] 0 with
  | some [size, start, last] => do
    return {
      size := ← Json.required (Json.nat? word64) size
      start := ← Json.required (Json.nat? word64) start
      last := ← Json.required (Json.nat? word64) last }
  | _ => none

end Range

end Uniprocessor
