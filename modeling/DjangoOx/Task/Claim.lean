import DjangoOx.Task.Row

/-! The claim's three paths, the lease renewal and the release of a claim that raised.
A write is one conditional UPDATE on the row: `none` is a row its WHERE clause does not match. -/
namespace DjangoOx

/-- What a worker's statements on a row depend on. -/
structure Worker where
  workerId : String
  /-- Empty when the worker takes every queue. -/
  queues : List String
  lockTimeout : ℤ
  /-- `claim_filter_q`, on one row; a worker that does not override it accepts every row. -/
  claimFilter : OxTask → Bool

namespace OxTask

/-- `_ready_queryset`, at the worker's own clock `now`. -/
def Ready (t : OxTask) (w : Worker) (now : ℤ) : Prop :=
  t.status = .ready ∧ (∀ r ∈ t.runAfter, r ≤ now) ∧ (w.queues = [] ∨ t.queueName ∈ w.queues) ∧
    w.claimFilter t = true

instance (w : Worker) (now : ℤ) (t : OxTask) : Decidable (t.Ready w now) :=
  inferInstanceAs (Decidable (_ ∧ _ ∧ _ ∧ _))

/-- `_claim_fields(candidate)` written onto the row: the epoch, the attempts and the history are
literals computed from the candidate, not from the row. -/
def claimFields (t : OxTask) (w : Worker) (leaseNow : ℤ) (candidate : OxTask) : OxTask :=
  { t with
    status := .running
    lockedBy := some w.workerId
    lockedAt := some leaseNow
    leaseExpiresAt := some (leaseNow + w.lockTimeout)
    leaseEpoch := candidate.leaseEpoch + 1
    attempts := candidate.attempts + 1
    startedAt := candidate.startedAt.or (some leaseNow)
    lastAttemptedAt := some leaseNow
    workerIds := candidate.workerIds ++ [w.workerId] }

/-- `_claim_one_postgresql`: selection and bookkeeping in one UPDATE .. RETURNING. -/
def claimOnePostgresql (t : OxTask) (w : Worker) (now leaseNow : ℤ) : Option OxTask :=
  if t.Ready w now then
    some { t with
      status := .running
      lockedBy := some w.workerId
      lockedAt := some leaseNow
      leaseExpiresAt := some (leaseNow + w.lockTimeout)
      leaseEpoch := t.leaseEpoch + 1
      attempts := t.attempts + 1
      startedAt := t.startedAt.or (some leaseNow)
      lastAttemptedAt := some leaseNow
      workerIds := t.workerIds ++ [w.workerId] }
  else none

/-- `_claim_one` with SKIP LOCKED: the candidate is the row itself, locked until the commit. -/
def claimOneSkipLocked (t : OxTask) (w : Worker) (now leaseNow : ℤ) : Option OxTask :=
  if t.Ready w now then some (t.claimFields w leaseNow t) else none

/-- `_claim_one` without SKIP LOCKED: a compare-and-set against a candidate read earlier. -/
def claimOneOptimistic (t : OxTask) (w : Worker) (leaseNow : ℤ) (candidate : OxTask) :
    Option OxTask :=
  if t.status = .ready ∧ t.attempts = candidate.attempts ∧
      t.leaseEpoch = candidate.leaseEpoch then
    some (t.claimFields w leaseNow candidate)
  else none

/-- `_reload_claimed`: the read is pinned to the granted epoch. -/
def reloadClaimed (t : OxTask) (grantedEpoch : ℕ) : Option OxTask :=
  if t.leaseEpoch = grantedEpoch then some t else none

/-- The lease dated from `leaseNow`, by its holder. -/
def renewed (t : OxTask) (w : Worker) (leaseNow : ℤ) : OxTask :=
  { t with lockedAt := some leaseNow, leaseExpiresAt := some (leaseNow + w.lockTimeout) }

/-- `renew_leases`, on one of the rows it names. -/
def renewLease (t : OxTask) (w : Worker) (leaseNow : ℤ) : Option OxTask :=
  if t.status = .running ∧ t.lockedBy = some w.workerId then some (t.renewed w leaseNow) else none

/-- The row as it was before the claim read as `held`, at a new epoch. -/
def refunded (t held : OxTask) : OxTask :=
  { t.unlocked with
    status := .ready
    leaseEpoch := held.leaseEpoch + 1
    attempts := held.attempts - 1
    workerIds := held.workerIds.dropLast
    startedAt := if held.attempts - 1 = 0 then none else t.startedAt }

/-- `_release_claim`, for a row the look read as `held`. -/
def releaseClaim (t : OxTask) (w : Worker) (held : OxTask) : Option OxTask :=
  if t.status = .running ∧ t.lockedBy = some w.workerId ∧ t.leaseEpoch = held.leaseEpoch then
    some (t.refunded held)
  else none

/-! What each statement asks of the row and writes onto it. -/

theorem claimOnePostgresql_eq_some {t t' : OxTask} {w : Worker} {now leaseNow : ℤ} :
    t.claimOnePostgresql w now leaseNow = some t' ↔
      t.Ready w now ∧ t.claimFields w leaseNow t = t' := by
  simp [claimOnePostgresql, claimFields]

theorem claimOneSkipLocked_eq_some {t t' : OxTask} {w : Worker} {now leaseNow : ℤ} :
    t.claimOneSkipLocked w now leaseNow = some t' ↔
      t.Ready w now ∧ t.claimFields w leaseNow t = t' := by
  simp [claimOneSkipLocked]

theorem claimOneOptimistic_eq_some {t c t' : OxTask} {w : Worker} {leaseNow : ℤ} :
    t.claimOneOptimistic w leaseNow c = some t' ↔
      (t.status = .ready ∧ t.attempts = c.attempts ∧ t.leaseEpoch = c.leaseEpoch) ∧
        t.claimFields w leaseNow c = t' := by
  simp [claimOneOptimistic]

theorem renewLease_eq_some {t t' : OxTask} {w : Worker} {leaseNow : ℤ} :
    t.renewLease w leaseNow = some t' ↔
      (t.status = .running ∧ t.lockedBy = some w.workerId) ∧ t.renewed w leaseNow = t' := by
  simp [renewLease]

theorem releaseClaim_eq_some {t held t' : OxTask} {w : Worker} :
    t.releaseClaim w held = some t' ↔
      (t.status = .running ∧ t.lockedBy = some w.workerId ∧ t.leaseEpoch = held.leaseEpoch) ∧
        t.refunded held = t' := by
  simp [releaseClaim]

/-- The two paths that hold the row from its selection to its bookkeeping write the same. -/
theorem claimOneSkipLocked_eq_postgresql (t : OxTask) (w : Worker) (now leaseNow : ℤ) :
    t.claimOneSkipLocked w now leaseNow = t.claimOnePostgresql w now leaseNow :=
  rfl

end OxTask

end DjangoOx
