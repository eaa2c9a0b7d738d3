import Mathlib.Data.Option.Basic
import Mathlib.Data.Nat.Notation
import Mathlib.Data.Int.Notation

/-! The `OxTask` row: the queue entry, the lease and the result record in one. Instants and
durations are integers, in microseconds. -/
namespace DjangoOx

/-- Primary keys, in key order. -/
abbrev TaskId := ℕ

inductive Status
  | ready
  | running
  | failed
  | successful
  | lost
  | discarded
  | waiting
  deriving DecidableEq, Repr

namespace Status

/-- `WRITABLE_STATUSES`: what an outcome write may land on. -/
def Writable (s : Status) : Prop := s = running ∨ s = lost

/-- `RETRYABLE_STATUSES`. -/
def Retryable (s : Status) : Prop := s = failed ∨ s = lost

/-- `DISCARDABLE_STATUSES`. -/
def Discardable (s : Status) : Prop := s = ready ∨ s = failed ∨ s = lost ∨ s = waiting

/-- `_CANCELLABLE`. -/
def Cancellable (s : Status) : Prop := s = ready ∨ s = waiting

instance : DecidablePred Writable := fun s => inferInstanceAs (Decidable (s = _ ∨ s = _))
instance : DecidablePred Retryable := fun s => inferInstanceAs (Decidable (s = _ ∨ s = _))
instance : DecidablePred Discardable := fun s =>
  inferInstanceAs (Decidable (s = _ ∨ s = _ ∨ s = _ ∨ s = _))
instance : DecidablePred Cancellable := fun s => inferInstanceAs (Decidable (s = _ ∨ s = _))

end Status

/-- One entry of `errors`. -/
structure TaskError where
  exceptionClassPath : String
  traceback : String
  deriving DecidableEq, Repr

structure OxTask where
  taskPath : String
  queueName : String
  priority : Int
  status : Status
  runAfter : Option ℤ
  attempts : ℕ
  maxAttempts : ℕ
  /-- The stored JSON text. -/
  returnValue : Option String
  errors : List TaskError
  workerIds : List String
  enqueuedAt : ℤ
  startedAt : Option ℤ
  lastAttemptedAt : Option ℤ
  finishedAt : Option ℤ
  lockedBy : Option String
  lockedAt : Option ℤ
  leaseExpiresAt : Option ℤ
  leaseEpoch : ℕ
  deriving DecidableEq, Repr

namespace OxTask

/-- The three lease columns set to NULL, as every write that gives the lease up does. -/
def unlocked (t : OxTask) : OxTask :=
  { t with lockedBy := none, lockedAt := none, leaseExpiresAt := none }

@[simp] theorem unlocked_status (t : OxTask) : t.unlocked.status = t.status := rfl
@[simp] theorem unlocked_leaseEpoch (t : OxTask) : t.unlocked.leaseEpoch = t.leaseEpoch := rfl
@[simp] theorem unlocked_attempts (t : OxTask) : t.unlocked.attempts = t.attempts := rfl
@[simp] theorem unlocked_maxAttempts (t : OxTask) : t.unlocked.maxAttempts = t.maxAttempts := rfl
@[simp] theorem unlocked_lockedBy (t : OxTask) : t.unlocked.lockedBy = none := rfl
@[simp] theorem unlocked_errors (t : OxTask) : t.unlocked.errors = t.errors := rfl

end OxTask

/-- What `OxBackend._row` reads of a task and its call. -/
structure Call where
  taskPath : String
  queueName : String
  priority : Int
  runAfter : Option ℤ
  /-- The task's own `max_attempts`, when it declares one. -/
  maxAttempts : Option ℕ
  deriving DecidableEq, Repr

/-- `OxBackend._row`: the unsaved row of one call. `inherited` is the backend's `max_attempts`. -/
def row (call : Call) (inherited : ℕ) (enqueuedAt : ℤ) : OxTask where
  taskPath := call.taskPath
  queueName := call.queueName
  priority := call.priority
  status := .ready
  runAfter := call.runAfter
  attempts := 0
  maxAttempts := call.maxAttempts.getD inherited
  returnValue := none
  errors := []
  workerIds := []
  enqueuedAt := enqueuedAt
  startedAt := none
  lastAttemptedAt := none
  finishedAt := none
  lockedBy := none
  lockedAt := none
  leaseExpiresAt := none
  leaseEpoch := 0

/-- `_waiting.enqueue`: the same row, as WAITING. -/
def waitingRow (call : Call) (inherited : ℕ) (enqueuedAt : ℤ) : OxTask :=
  { row call inherited enqueuedAt with status := .waiting }

end DjangoOx
