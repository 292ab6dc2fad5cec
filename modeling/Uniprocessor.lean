import Uniprocessor.Arrivals.Generator
import Uniprocessor.Arrivals.Replay
import Uniprocessor.Attempt
import Uniprocessor.Basic
import Uniprocessor.Clock.Basic
import Uniprocessor.Clock.Driver
import Uniprocessor.Clock.Parties
import Uniprocessor.Command.Arguments
import Uniprocessor.Command.Session
import Uniprocessor.Config
import Uniprocessor.Decimal.Binary64
import Uniprocessor.Decimal.Fixed
import Uniprocessor.Decimal.Literal
import Uniprocessor.Decimal.Shortest
import Uniprocessor.Failure
import Uniprocessor.Files.Disk
import Uniprocessor.Files.Folder
import Uniprocessor.Files.Path
import Uniprocessor.Journal.Basic
import Uniprocessor.Journal.Event
import Uniprocessor.Journal.Log
import Uniprocessor.Json.Basic
import Uniprocessor.Json.Printer
import Uniprocessor.Json.Reader
import Uniprocessor.Json.Record
import Uniprocessor.Json.Token
import Uniprocessor.Main
import Uniprocessor.Memory.Buddy
import Uniprocessor.Memory.Range
import Uniprocessor.Metrics.Basic
import Uniprocessor.Metrics.Percentile
import Uniprocessor.Policy
import Uniprocessor.Process.ControlBlock
import Uniprocessor.Process.Table
import Uniprocessor.Random.Pcg
import Uniprocessor.Ready.Heap
import Uniprocessor.Ready.Queue
import Uniprocessor.Ready.Ring
import Uniprocessor.Report.Basic
import Uniprocessor.Report.Export
import Uniprocessor.Report.Run
import Uniprocessor.Scheduler.Basic
import Uniprocessor.Scheduler.Machine
import Uniprocessor.Simulation
import Uniprocessor.Span
import Uniprocessor.Text.Blank
import Uniprocessor.Text.Line
import Uniprocessor.Text.Numeral
import Uniprocessor.Threads.Run
import Uniprocessor.Threads.System
import Uniprocessor.Units.Countdown
import Uniprocessor.Units.Dealings
import Uniprocessor.Units.Pool
import Uniprocessor.Units.Report
import Uniprocessor.Units.Thread
import Uniprocessor.Workload.Basic
import Uniprocessor.Workload.Random
import Uniprocessor.Workload.Text
import Uniprocessor.Proofs.Memory.Sound
import Uniprocessor.Proofs.Memory.NodeTable
import Uniprocessor.Proofs.Memory.Ascent
import Uniprocessor.Proofs.Memory.Ledger
import Uniprocessor.Proofs.Memory.Vacancy
import Uniprocessor.Proofs.Ready.Heap
import Uniprocessor.Proofs.Ready.Queue
import Uniprocessor.Proofs.Process.Table
import Uniprocessor.Proofs.Units.Pool
import Uniprocessor.Proofs.Scheduler.Sound
import Uniprocessor.Proofs.Machine.Moves
import Uniprocessor.Proofs.Machine.Operations
import Uniprocessor.Proofs.Machine.Histories
import Uniprocessor.Proofs.Machine.Timing
import Uniprocessor.Proofs.Simulation.Horizon
import Uniprocessor.Proofs.Journal.Course
import Uniprocessor.Proofs.Journal.Rota
import Uniprocessor.Proofs.Journal.Chronicle
import Uniprocessor.Proofs.Machine.Accounts
import Uniprocessor.Proofs.Simulation.Accounts
import Uniprocessor.Proofs.Clock.Basic
import Uniprocessor.Proofs.Units.Countdown
import Uniprocessor.Proofs.Units.Crew
import Uniprocessor.Proofs.Units.Caller
import Uniprocessor.Proofs.Arrivals.Generator
import Uniprocessor.Proofs.Threads.Outlook
import Uniprocessor.Proofs.Threads.Midway
import Uniprocessor.Proofs.Threads.Tick
import Uniprocessor.Proofs.Threads.Passage
import Uniprocessor.Proofs.Threads.Refinement
import Uniprocessor.Proofs.Attempt
import Uniprocessor.Proofs.Machine.Settings
import Uniprocessor.Proofs.Simulation.Outcome
import Uniprocessor.Proofs.Journal.Tenures
import Uniprocessor.Proofs.Simulation.Figures
import Uniprocessor.Proofs.Ready.Order
import Uniprocessor.Proofs.Ready.Keyed
import Uniprocessor.Proofs.Backlog
import Uniprocessor.Proofs.Machine.Backlog
import Uniprocessor.Proofs.Machine.Shortest
import Uniprocessor.Proofs.Journal.Figures
import Uniprocessor.Proofs.Journal.Finishes
import Uniprocessor.Proofs.Simulation.Proper
import Uniprocessor.Proofs.Simulation.Optimality
import Uniprocessor.Proofs.Simulation.Conservation
import Uniprocessor.Proofs.Journal.Holdings
import Uniprocessor.Proofs.Machine.Custody
import Uniprocessor.Proofs.Simulation.Custody
import Uniprocessor.Proofs.Machine.Twins
import Uniprocessor.Proofs.Ready.Line
import Uniprocessor.Proofs.Journal.Timetable
import Uniprocessor.Proofs.Machine.Service
import Uniprocessor.Proofs.Simulation.FirstCome
import Uniprocessor.Proofs.Journal.Rejections
import Uniprocessor.Proofs.Machine.Spared
import Uniprocessor.Proofs.Simulation.Rejections
import Uniprocessor.Proofs.Clock.Parties
import Uniprocessor.Proofs.Units.Dealings
import Uniprocessor.Proofs.Text.Numeral
import Uniprocessor.Proofs.Decimal.Spelling
import Uniprocessor.Proofs.Json.Text
import Uniprocessor.Proofs.Decimal.Operations
import Uniprocessor.Proofs.Decimal.Parts
import Uniprocessor.Proofs.Decimal.Reading
import Uniprocessor.Proofs.Json.Record
import Uniprocessor.Proofs.Journal.Saved
import Uniprocessor.Proofs.Metrics.Summary
import Uniprocessor.Proofs.Report.Saved
import Uniprocessor.Proofs.Machine.Ranges
import Uniprocessor.Proofs.Simulation.Saved
import Uniprocessor.Proofs.Text.Words
import Uniprocessor.Proofs.Workload.Text
import Uniprocessor.Proofs.Workload.Random
import Uniprocessor.Proofs.Journal.Slices
import Uniprocessor.Proofs.Machine.Slices
import Uniprocessor.Proofs.Simulation.Slices
import Uniprocessor.Proofs.Ready.Latecomers
import Uniprocessor.Proofs.Journal.Displacements
import Uniprocessor.Proofs.Machine.Entrants
import Uniprocessor.Proofs.Simulation.Entrants
import Uniprocessor.Proofs.Machine.Displacements
import Uniprocessor.Proofs.Simulation.Displacements
import Uniprocessor.Proofs.Journal.Rotation
import Uniprocessor.Proofs.Machine.Rotation
import Uniprocessor.Proofs.Simulation.Rotation
import Uniprocessor.Proofs.Ready.Stable
import Uniprocessor.Proofs.Journal.Services
import Uniprocessor.Proofs.Machine.Priority
import Uniprocessor.Proofs.Simulation.Priority
import Uniprocessor.Proofs.Machine.Refusals
import Uniprocessor.Proofs.Units.Later
import Uniprocessor.Proofs.Journal.Later
import Uniprocessor.Proofs.Memory.Guise
import Uniprocessor.Proofs.Memory.Undone
import Uniprocessor.Proofs.Process.Guise
import Uniprocessor.Proofs.Scheduler.Guise
import Uniprocessor.Proofs.Machine.Guise
import Uniprocessor.Proofs.Machine.Unnoticed
import Uniprocessor.Proofs.Simulation.Later
import Uniprocessor.Proofs.Memory.Canonical
import Uniprocessor.Proofs.Memory.Release
import Uniprocessor.Proofs.Ready.Waitlist
import Uniprocessor.Proofs.Arrivals.Transcript
import Uniprocessor.Proofs.Arrivals.Steps
import Uniprocessor.Proofs.Arrivals.Replay
import Uniprocessor.Proofs.Text.Grammar
import Uniprocessor.Proofs.Workload.Grammar
import Uniprocessor.Proofs.Workload.Origins
import Uniprocessor.Proofs.Random.Pcg
import Uniprocessor.Proofs.Workload.Drawn
import Uniprocessor.Proofs.Units.Reckoning
import Uniprocessor.Proofs.Process.Register
import Uniprocessor.Proofs.Ready.Bounded
