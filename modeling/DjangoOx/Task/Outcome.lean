import DjangoOx.Task.Row
import Mathlib.Algebra.Group.Int.Defs

/-! How an attempt ended, the outcome it writes and the fenced write itself. -/
namespace DjangoOx

/-- The status and the columns an outcome write sets; `none` is a column left out. The three
lease columns are set to NULL by every outcome. -/
structure Outcome where
  status : Status
  returnValue : Option (Option String)
  errors : List TaskError
  finishedAt : Option ℤ
  runAfter : Option ℤ
  leaseEpoch : Option ℕ
  deriving DecidableEq, Repr

/-- `_backoff_decision`'s answer; `unusable` is a callback that raised or answered nonsense. -/
inductive BackoffAnswer
  | seconds (delay : ℤ)
  | declined
  | unusable
  deriving DecidableEq, Repr

structure Backoff where
  initial : ℤ
  max : ℤ

/-- The worker's own backoff, its exponent capped at 64 doublings. -/
def Backoff.exponential (b : Backoff) (attempts : ℕ) : ℤ :=
  min (b.initial * 2 ^ min (attempts - 1) 64) b.max

/-- The delay before the next attempt; `none` records FAILED. `answer` is `none` when the attempt
has no backoff callback to ask. -/
def Backoff.delay (b : Backoff) (held : OxTask) (answer : Option BackoffAnswer) : Option ℤ :=
  if held.attempts < held.maxAttempts then
    match answer with
    | some (.seconds d) => some d
    | some .declined => none
    | some .unusable | none => some (b.exponential held.attempts)
  else none

/-- `_handle_failure`. `release` is the stuck-thread form: it moves the epoch on and asks no
callback. -/
def handleFailure (b : Backoff) (held : OxTask) (exc : TaskError) (answer : Option BackoffAnswer)
    (release : Bool) (now : ℤ) : Outcome :=
  let handover := if release then some (held.leaseEpoch + 1) else none
  let errors := held.errors ++ [exc]
  match b.delay held (if release then none else answer) with
  | none => ⟨.failed, none, errors, some now, none, handover⟩
  | some d => ⟨.ready, none, errors, none, some (now + d), handover⟩

/-- The success branch of `_run_attempt`: the errors this execution started with. -/
def recordSuccess (held : OxTask) (returnValue : Option String) (now : ℤ) : Outcome :=
  ⟨.successful, some returnValue, held.errors, some now, none, none⟩

/-- The ways an attempt ends with a record. -/
inductive AttemptEnd
  | returned (value : Option String)
  | raised (exc : TaskError) (answer : Option BackoffAnswer)
  | stuck (exc : TaskError)
  deriving DecidableEq, Repr

/-- What the end adds to the errors. -/
def AttemptEnd.failures : AttemptEnd → List TaskError
  | .returned _ => []
  | .raised exc _ => [exc]
  | .stuck exc => [exc]

/-- The outcome the execution holding `held` computes for its end. -/
def outcomeOf (b : Backoff) (held : OxTask) (now : ℤ) : AttemptEnd → Outcome
  | .returned value => recordSuccess held value now
  | .raised exc answer => handleFailure b held exc answer false now
  | .stuck exc => handleFailure b held exc none true now

namespace OxTask

/-- The columns of an outcome written onto a row. -/
def setOutcome (t : OxTask) (o : Outcome) : OxTask :=
  { t.unlocked with
    status := o.status
    returnValue := o.returnValue.getD t.returnValue
    errors := o.errors
    finishedAt := o.finishedAt.or t.finishedAt
    runAfter := o.runAfter.or t.runAfter
    leaseEpoch := o.leaseEpoch.getD t.leaseEpoch }

/-- `_write_outcome`, fenced by the epoch of the instance and by the status. -/
def writeOutcome (t held : OxTask) (o : Outcome) : Option OxTask :=
  if t.leaseEpoch = held.leaseEpoch ∧ t.status.Writable then some (t.setOutcome o) else none

/-- `_outcome_already_written`: the row has every column of the outcome that is not JSON. -/
def OutcomeAlreadyWritten (t held : OxTask) (o : Outcome) : Prop :=
  t.status = o.status ∧ t.leaseEpoch = o.leaseEpoch.getD held.leaseEpoch ∧
    (∀ f ∈ o.finishedAt, t.finishedAt = some f) ∧ (∀ r ∈ o.runAfter, t.runAfter = some r) ∧
    t.lockedBy = none ∧ t.lockedAt = none ∧ t.leaseExpiresAt = none

instance (t held : OxTask) (o : Outcome) : Decidable (t.OutcomeAlreadyWritten held o) :=
  inferInstanceAs (Decidable (_ ∧ _ ∧ _ ∧ _ ∧ _ ∧ _ ∧ _))

/-- A row an outcome was written onto has it. -/
theorem outcomeAlreadyWritten_setOutcome {o : Outcome} (t : OxTask) {held : OxTask}
    (he : t.leaseEpoch = held.leaseEpoch) : (t.setOutcome o).OutcomeAlreadyWritten held o := by
  refine ⟨rfl, by simp [setOutcome, he], ?_, ?_, rfl, rfl, rfl⟩
  · intro f hf
    rw [Option.mem_def] at hf
    simp [setOutcome, hf]
  · intro r hr
    rw [Option.mem_def] at hr
    simp [setOutcome, hr]

theorem writeOutcome_eq_some {t held t' : OxTask} {o : Outcome} :
    t.writeOutcome held o = some t' ↔
      (t.leaseEpoch = held.leaseEpoch ∧ t.status.Writable) ∧ t.setOutcome o = t' := by
  simp [writeOutcome]

end OxTask

theorem outcomeOf_status (b : Backoff) (held : OxTask) (now : ℤ) (a : AttemptEnd) :
    (outcomeOf b held now a).status = .successful ∨ (outcomeOf b held now a).status = .failed ∨
      (outcomeOf b held now a).status = .ready := by
  cases a with
  | returned value => exact .inl rfl
  | raised exc answer =>
    simp only [outcomeOf, handleFailure]
    split <;> simp
  | stuck exc =>
    simp only [outcomeOf, handleFailure]
    split <;> simp

/-- An outcome is never RUNNING or LOST, so it takes the row out of what a write may land on. -/
theorem outcomeOf_not_writable (b : Backoff) (held : OxTask) (now : ℤ) (a : AttemptEnd) :
    ¬ (outcomeOf b held now a).status.Writable := by
  rcases outcomeOf_status b held now a with h | h | h <;> simp [h, Status.Writable]

/-- The errors an execution records are those it started with and its own failure. -/
theorem outcomeOf_errors (b : Backoff) (held : OxTask) (now : ℤ) (a : AttemptEnd) :
    (outcomeOf b held now a).errors = held.errors ++ a.failures := by
  cases a with
  | returned value => simp [outcomeOf, recordSuccess, AttemptEnd.failures]
  | raised exc answer =>
    simp only [outcomeOf, handleFailure, AttemptEnd.failures]
    split <;> rfl
  | stuck exc =>
    simp only [outcomeOf, handleFailure, AttemptEnd.failures]
    split <;> rfl

theorem outcomeOf_not_discarded (b : Backoff) (held : OxTask) (now : ℤ) (a : AttemptEnd) :
    (outcomeOf b held now a).status ≠ .discarded := by
  rcases outcomeOf_status b held now a with h | h | h <;> simp [h]

theorem outcomeOf_not_waiting (b : Backoff) (held : OxTask) (now : ℤ) (a : AttemptEnd) :
    (outcomeOf b held now a).status ≠ .waiting := by
  rcases outcomeOf_status b held now a with h | h | h <;> simp [h]

/-- An outcome keeps the epoch the execution was granted, or moves it on by one. -/
theorem outcomeOf_leaseEpoch (b : Backoff) (held : OxTask) (now : ℤ) (a : AttemptEnd) :
    (outcomeOf b held now a).leaseEpoch = none ∨
      (outcomeOf b held now a).leaseEpoch = some (held.leaseEpoch + 1) := by
  cases a with
  | returned value => exact .inl rfl
  | raised exc answer =>
    simp only [outcomeOf, handleFailure]
    split <;> simp
  | stuck exc =>
    simp only [outcomeOf, handleFailure]
    split <;> simp

end DjangoOx
