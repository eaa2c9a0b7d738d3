import Mathlib.Data.Fintype.Card
import DjangoOx.Machine.Members
import DjangoOx.Machine.Run
import DjangoOx.Task.Row

/-! Concurrency limits: workers that count the RUNNING rows before they claim. -/
namespace DjangoOx

open Machine Machine.Members

/-- What the limits read of a task row. -/
structure LimitedCall where
  taskPath : String
  queueName : String
  deriving DecidableEq, Repr

structure ConcurrencyLimit where
  name : String
  max : ℕ
  taskPaths : List String
  queues : List String
  deriving DecidableEq, Repr

/-- `ConcurrencyLimit.covers`, and `covered_q` of a row. -/
def ConcurrencyLimit.Covers (l : ConcurrencyLimit) (c : LimitedCall) : Prop :=
  c.taskPath ∈ l.taskPaths ∨ c.queueName ∈ l.queues

instance (l : ConcurrencyLimit) (c : LimitedCall) : Decidable (l.Covers c) :=
  inferInstanceAs (Decidable (_ ∨ _))

/-- Where the claiming thread of a worker stands. -/
inductive ClaimPhase
  | idle
  /-- `_read_running`, past the reset of the mark. -/
  | counting
  | ready
  /-- The compare-and-set took the row, at the epoch it granted. -/
  | reloading (task : TaskId) (epoch : ℕ)
  /-- `super().claim_one()` returned the row. -/
  | claimed (task : TaskId)
  deriving DecidableEq, Repr

structure Claimer where
  /-- `_concurrency_stale` -/
  stale : Bool
  /-- `_concurrency_blocked` -/
  blocked : List ConcurrencyLimit
  phase : ClaimPhase
  /-- The tasks of the claims that committed and raised since the last count. -/
  owed : List TaskId
  deriving DecidableEq, Repr

/-- A worker as it starts. -/
def Claimer.fresh : Claimer := ⟨true, [], .idle, []⟩

structure RunningState (W : ℕ) where
  running : Finset TaskId
  epoch : TaskId → ℕ
  workers : Fin W → Claimer

inductive RunningAction (W : ℕ)
  /-- `_refresh_view`; `due` says that the refresh interval has passed. -/
  | refresh (w : Fin W) (due : Bool)
  | count (w : Fin W)
  | countRaises (w : Fin W)
  /-- The claim of one statement, or of one transaction. -/
  | claim (w : Fin W) (t : TaskId)
  /-- The same, whose commit is followed by an error. -/
  | claimRaises (w : Fin W) (t : TaskId)
  | claimOptimistic (w : Fin W) (t : TaskId)
  | reload (w : Fin W)
  /-- The row moved, or is gone, before it was read back. -/
  | reloadLost (w : Fin W)
  | reloadRaises (w : Fin W)
  /-- No row, or an error before anything was committed. -/
  | claimNone (w : Fin W)
  | record (w : Fin W)
  /-- A pool thread or the reaper marks the view. -/
  | mark (w : Fin W)
  | restart (w : Fin W)
  /-- The row leaves RUNNING: an outcome, or a reap, which moves the epoch where it requeues. -/
  | leave (t : TaskId) (requeued : Bool)
  /-- The epoch of a row that is not RUNNING moves. -/
  | requeue (t : TaskId)
  /-- A claim by anyone else. -/
  | other (t : TaskId)

namespace RunningState

variable {W : ℕ} (limits : Fin W → List ConcurrencyLimit) (call : TaskId → LimitedCall)

/-- The RUNNING rows a limit covers. -/
def covered (s : RunningState W) (l : ConcurrencyLimit) : ℕ :=
  (s.running.filter fun t => l.Covers (call t)).card

def setWorker (s : RunningState W) (w : Fin W) (c : Claimer) : RunningState W :=
  { s with workers := Function.update s.workers w c }

/-- The row a claim takes, at its next epoch. -/
def run (s : RunningState W) (t : TaskId) : RunningState W :=
  { s with
    running := insert t s.running
    epoch := Function.update s.epoch t (s.epoch t + 1) }

def setEpoch (s : RunningState W) (t : TaskId) (e : ℕ) : RunningState W :=
  { s with epoch := Function.update s.epoch t e }

/-- The claim's filter lets the row through. -/
def Claimable (s : RunningState W) (w : Fin W) (t : TaskId) : Prop :=
  t ∉ s.running ∧ ∀ l ∈ (s.workers w).blocked, ¬ l.Covers (call t)

instance (s : RunningState W) (w : Fin W) (t : TaskId) : Decidable (s.Claimable call w t) :=
  inferInstanceAs (Decidable (_ ∧ _))

def step (s : RunningState W) : RunningAction W → Option (RunningState W)
  | .refresh w due =>
    let c := s.workers w
    match c.phase with
    | .idle =>
      if c.stale = true ∨ due = true then
        some (s.setWorker w { c with stale := false, phase := .counting })
      else some (s.setWorker w { c with phase := .ready })
    | _ => none
  | .count w =>
    let c := s.workers w
    match c.phase with
    | .counting =>
      some (s.setWorker w { c with
        blocked := (limits w).filter fun l => l.max ≤ s.covered call l
        phase := .ready
        owed := [] })
    | _ => none
  | .countRaises w =>
    let c := s.workers w
    match c.phase with
    | .counting => some (s.setWorker w { c with stale := true, phase := .idle })
    | _ => none
  | .claim w t =>
    let c := s.workers w
    match c.phase with
    | .ready =>
      if s.Claimable call w t then some ((s.run t).setWorker w { c with phase := .claimed t })
      else none
    | _ => none
  | .claimRaises w t =>
    let c := s.workers w
    match c.phase with
    | .ready =>
      if s.Claimable call w t then
        some ((s.run t).setWorker w { c with phase := .idle, owed := t :: c.owed })
      else none
    | _ => none
  | .claimOptimistic w t =>
    let c := s.workers w
    match c.phase with
    | .ready =>
      if s.Claimable call w t then
        some ((s.run t).setWorker w { c with phase := .reloading t (s.epoch t + 1) })
      else none
    | _ => none
  | .reload w =>
    let c := s.workers w
    match c.phase with
    | .reloading t e =>
      if s.epoch t = e then some (s.setWorker w { c with phase := .claimed t }) else none
    | _ => none
  | .reloadLost w =>
    let c := s.workers w
    match c.phase with
    | .reloading t e =>
      if t ∈ s.running ∧ s.epoch t = e then none
      else some (s.setWorker w { c with phase := .ready })
    | _ => none
  | .reloadRaises w =>
    let c := s.workers w
    match c.phase with
    | .reloading t _ => some (s.setWorker w { c with phase := .idle, owed := t :: c.owed })
    | _ => none
  | .claimNone w =>
    let c := s.workers w
    match c.phase with
    | .ready => some (s.setWorker w { c with phase := .idle })
    | _ => none
  | .record w =>
    let c := s.workers w
    match c.phase with
    | .claimed t =>
      let covers := (limits w).any fun l => l.Covers (call t)
      some (s.setWorker w { c with stale := c.stale || covers, phase := .idle })
    | _ => none
  | .mark w => some (s.setWorker w { s.workers w with stale := true })
  | .restart w => some (s.setWorker w .fresh)
  | .leave t requeued =>
    if t ∈ s.running then
      let s := { s with running := s.running.erase t }
      some (if requeued = true then s.setEpoch t (s.epoch t + 1) else s)
    else none
  | .requeue t => if t ∉ s.running then some (s.setEpoch t (s.epoch t + 1)) else none
  | .other t => if t ∉ s.running then some (s.run t) else none

/-- Nothing runs, and no worker has looked. -/
def Start (s : RunningState W) : Prop :=
  s.running = ∅ ∧ ∀ w, s.workers w = .fresh

end RunningState

def runningSystem {W : ℕ} (limits : Fin W → List ConcurrencyLimit) (call : TaskId → LimitedCall) :
    System (RunningState W) (RunningAction W) where
  init := RunningState.Start
  step := RunningState.step limits call

end DjangoOx
