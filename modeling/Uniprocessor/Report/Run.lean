import Uniprocessor.Report.Basic
import Uniprocessor.Scheduler.Basic

/-!
# The report of a scheduler

A scheduler can be asked for a report at any time: the figures of what it has counted, and the
events of its journal.
-/

namespace Uniprocessor

/-- What a scheduler has to report. -/
def Scheduler.report (s : Scheduler) : Report :=
  ⟨s.policy, s.metrics.summary, s.journal.log⟩

end Uniprocessor
