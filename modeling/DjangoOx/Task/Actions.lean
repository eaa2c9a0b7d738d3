import DjangoOx.Task.Row

/-! Operator actions and the moves of waiting rows, on one row. -/
namespace DjangoOx

/-- `MAX_ATTEMPTS_LIMIT`, the most `attempts` and `max_attempts` hold. -/
def maxAttemptsLimit : ℕ := 32767

/-- A day, in microseconds. -/
def day : ℤ := 86400000000

namespace OxTask

/-- One more attempt, counted from the row read as `seen`. -/
def retried (t seen : OxTask) : OxTask :=
  { t.unlocked with
    status := .ready
    leaseEpoch := seen.leaseEpoch + 1
    maxAttempts := seen.attempts + 1
    runAfter := none
    finishedAt := none }

/-- `retry`, for a row read earlier as `seen`. -/
def retry (t seen : OxTask) : Option OxTask :=
  if t.attempts < maxAttemptsLimit ∧ t.status.Retryable ∧ t.leaseEpoch = seen.leaseEpoch then
    some (t.retried seen)
  else none

/-- `retry_many`, on one of its rows: the UPDATE computes from the row itself. -/
def retryMany (t : OxTask) : Option OxTask :=
  if t.attempts < maxAttemptsLimit ∧ t.status.Retryable then some (t.retried t) else none

/-- A lease dated a day back. -/
def expired (t : OxTask) (now : ℤ) : OxTask :=
  { t with leaseExpiresAt := some (now - day), lockedAt := some (now - day) }

/-- `expire_lease`. -/
def expireLease (t : OxTask) (now : ℤ) : Option OxTask :=
  if t.status = .running ∧ t.lockedAt ≠ none then some (t.expired now) else none

/-- DISCARDED, as `discard`, `discard_many` and `cancel_many` write it. -/
def discarded (t : OxTask) (now : ℤ) : OxTask :=
  { t.unlocked with status := .discarded, finishedAt := some now }

/-- `discard`, pinned to the epoch read. -/
def discard (t : OxTask) (epoch : ℕ) (now : ℤ) : Option OxTask :=
  if t.status.Discardable ∧ t.leaseEpoch = epoch then some (t.discarded now) else none

/-- `discard_many`, on one of its rows. -/
def discardMany (t : OxTask) (now : ℤ) : Option OxTask :=
  if t.status.Discardable then some (t.discarded now) else none

/-- `_released`: READY, to run no earlier than now. -/
def released (t : OxTask) (now : ℤ) : OxTask :=
  { t with
    status := .ready
    runAfter := some (match t.runAfter with
      | some r => if now < r then r else now
      | none => now) }

/-- `release`, and one row of `release_many`. -/
def release (t : OxTask) (epoch : ℕ) (now : ℤ) : Option OxTask :=
  if t.status = .waiting ∧ t.leaseEpoch = epoch then some (t.released now) else none

/-- `cancel_many`, on one of its rows. -/
def cancelMany (t : OxTask) (epoch : ℕ) (now : ℤ) : Option OxTask :=
  if t.status.Cancellable ∧ t.leaseEpoch = epoch then some (t.discarded now) else none

/-- WAITING again, at a new epoch. -/
def revived (t : OxTask) : OxTask :=
  { t with status := .waiting, leaseEpoch := t.leaseEpoch + 1, finishedAt := none }

/-- `revive_many`, on one of its rows. -/
def reviveMany (t : OxTask) (epoch : ℕ) : Option OxTask :=
  if t.status = .discarded ∧ t.leaseEpoch = epoch then some t.revived else none

theorem retry_eq_some {t seen t' : OxTask} :
    t.retry seen = some t' ↔
      (t.attempts < maxAttemptsLimit ∧ t.status.Retryable ∧ t.leaseEpoch = seen.leaseEpoch) ∧
        t.retried seen = t' := by
  simp [retry]

theorem retryMany_eq_some {t t' : OxTask} :
    t.retryMany = some t' ↔
      (t.attempts < maxAttemptsLimit ∧ t.status.Retryable) ∧ t.retried t = t' := by
  simp [retryMany]

theorem expireLease_eq_some {t t' : OxTask} {now : ℤ} :
    t.expireLease now = some t' ↔
      (t.status = .running ∧ t.lockedAt ≠ none) ∧ t.expired now = t' := by
  simp [expireLease]

theorem discard_eq_some {t t' : OxTask} {epoch : ℕ} {now : ℤ} :
    t.discard epoch now = some t' ↔
      (t.status.Discardable ∧ t.leaseEpoch = epoch) ∧ t.discarded now = t' := by
  simp [discard]

theorem discardMany_eq_some {t t' : OxTask} {now : ℤ} :
    t.discardMany now = some t' ↔ t.status.Discardable ∧ t.discarded now = t' := by
  simp [discardMany]

theorem release_eq_some {t t' : OxTask} {epoch : ℕ} {now : ℤ} :
    t.release epoch now = some t' ↔
      (t.status = .waiting ∧ t.leaseEpoch = epoch) ∧ t.released now = t' := by
  simp [release]

theorem cancelMany_eq_some {t t' : OxTask} {epoch : ℕ} {now : ℤ} :
    t.cancelMany epoch now = some t' ↔
      (t.status.Cancellable ∧ t.leaseEpoch = epoch) ∧ t.discarded now = t' := by
  simp [cancelMany]

theorem reviveMany_eq_some {t t' : OxTask} {epoch : ℕ} :
    t.reviveMany epoch = some t' ↔
      (t.status = .discarded ∧ t.leaseEpoch = epoch) ∧ t.revived = t' := by
  simp [reviveMany]

end OxTask

end DjangoOx
