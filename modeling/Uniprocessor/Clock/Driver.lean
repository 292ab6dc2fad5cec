import Uniprocessor.Clock.Basic

/-!
# The party that moves the clock

It waits until the current tick is settled, then moves the clock, and so on until the clock is
stopped.  Between the two the clock may be stopped by somebody else, so they are steps of their
own.
-/

namespace Uniprocessor

/-- Where the party that moves the clock stands. -/
inductive ClockDriver where
  | waiting
  | advancing
  | ended
  deriving Repr, DecidableEq

namespace ClockDriver

/-- The next step, unless the party has to wait or has ended. -/
def step? (d : ClockDriver) (c : Clock) : Option (ClockDriver × Clock) :=
  match d with
  | waiting => c.waitSettled?.map fun runs => (if runs then advancing else ended, c)
  | advancing =>
    match c.advance? with
    | some next => some (waiting, next)
    | none => some (ended, c)
  | ended => none

end ClockDriver

end Uniprocessor
