import DjangoOx.Machine.Run
import DjangoOx.Machine.Fencing
import DjangoOx.Task.Row
import DjangoOx.Task.Claim
import DjangoOx.Task.Outcome
import DjangoOx.Task.Reaper
import DjangoOx.Task.Actions
import DjangoOx.Task.Lease
import DjangoOx.Task.History
import DjangoOx.Task.Fencing
import DjangoOx.Task.Reconnect
import DjangoOx.Machine.Table
import DjangoOx.Task.Reap
import DjangoOx.Task.Recovery
import DjangoOx.Task.LiveClaims
import DjangoOx.Schedule.Trigger
import DjangoOx.Schedule.Stored
import DjangoOx.Schedule.Dispatch
import DjangoOx.Schedule.Boundary
import DjangoOx.Schedule.TickLog
import DjangoOx.Schedule.TickOnce
import DjangoOx.Machine.Store
import DjangoOx.Task.Pending
import DjangoOx.Unique.Enqueue
import DjangoOx.Unique.Footing
import DjangoOx.Unique.Statements
import DjangoOx.Unique.OnePending
import DjangoOx.Workflow.Rows
import DjangoOx.Workflow.Steps
import DjangoOx.Task.Final
import DjangoOx.Workflow.Ordering
import DjangoOx.Workflow.Evidence
import DjangoOx.Workflow.Records
import DjangoOx.Workflow.Retire
import DjangoOx.Workflow.LastWord
import DjangoOx.Workflow.Cancel
import DjangoOx.Schedule.Unread
import DjangoOx.Schedule.Heal
import DjangoOx.Schedule.Sighted
import DjangoOx.Schedule.Anchor
import DjangoOx.Workflow.Level
import DjangoOx.Workflow.Settling
import DjangoOx.Workflow.Closure
import DjangoOx.Limits.Running
import DjangoOx.Limits.Ceiling
import DjangoOx.Limits.Windows
import DjangoOx.Limits.Admissions
import DjangoOx.Limits.Bound
import DjangoOx.Task.Shape
import DjangoOx.Task.Budget
import DjangoOx.Schedule.BeforeAnchor
import DjangoOx.Prune.Exact
import DjangoOx.Prune.Newest
import DjangoOx.Cron.Exact
import DjangoOx.Cron.Crontab
import DjangoOx.Cron.Spelling
import DjangoOx.Cron.Covering
import DjangoOx.Cron.Meaning
import DjangoOx.Machine.Offsets
import DjangoOx.Schedule.Passes
import DjangoOx.Supervisor.LeftBehind
import DjangoOx.Stored.Narrowing
import DjangoOx.Schedule.BoundedRead
import DjangoOx.Machine.Ternary
import DjangoOx.Machine.Replay
import DjangoOx.Workflow.Takes
import DjangoOx.Machine.Custody
import DjangoOx.Workflow.SkipQueue
import DjangoOx.Workflow.SkipConserved
import DjangoOx.Unique.Nested
import DjangoOx.Unique.Reentry
import DjangoOx.Machine.Act
import DjangoOx.Limits.Accounting
import DjangoOx.Limits.FailOpen
import DjangoOx.Limits.ClaimFilter
import DjangoOx.Limits.ClaimPaths
import DjangoOx.Task.Undo
import DjangoOx.Machine.Bounded
import DjangoOx.Schedule.Interval
import DjangoOx.Machine.Moves
import DjangoOx.Bulk.Contention
import DjangoOx.Bulk.Selection
import DjangoOx.Bulk.Moves
import DjangoOx.Workflow.Answerable
import DjangoOx.Machine.Utf8
import DjangoOx.Task.Traceback
import DjangoOx.Machine.Readings
import DjangoOx.Machine.Stretches
import DjangoOx.Beat.Zones
import DjangoOx.Beat.Late
import DjangoOx.Beat.Partings
import DjangoOx.Beat.EveryMinute
import DjangoOx.Beat.Agree
import DjangoOx.Workflow.NodeOutcome
import DjangoOx.Machine.Ledger
import DjangoOx.Workflow.Totals
import DjangoOx.Machine.Standing
import DjangoOx.Batch.Lifecycle
import DjangoOx.Batch.Completion
import DjangoOx.Batch.Progress
import DjangoOx.Workflow.Turn
import DjangoOx.Workflow.Classes
import DjangoOx.Workflow.Completing
import DjangoOx.Workflow.DeadRows
import DjangoOx.Workflow.Completed
import DjangoOx.Workflow.Releasing
import DjangoOx.Workflow.EdgeTurn
import DjangoOx.Workflow.ReleaseStep
import DjangoOx.Workflow.Handshake
import DjangoOx.Workflow.Released
import DjangoOx.Worker.Watchdog
import DjangoOx.Worker.Timeouts
import DjangoOx.Worker.Loop
import DjangoOx.Worker.Passes
import DjangoOx.Worker.Drained
