import DjangoOx.Task.Row

/-! The reaper's predicates and its two writes, on one row. -/
namespace DjangoOx

namespace OxTask

/-- `_abandoned_lease_q(cutoff)`, judged at the lease clock `leaseNow`. -/
def Abandoned (t : OxTask) (cutoff leaseNow : ℤ) : Prop :=
  (∃ e ∈ t.leaseExpiresAt, e < leaseNow ∧
      ((∃ l ∈ t.lockedAt, l ≤ e) ∨ ∃ l ∈ t.lockedAt, l < cutoff)) ∨
    t.leaseExpiresAt = none ∧ ∃ l ∈ t.lockedAt, l < cutoff

/-- `stuck`: a RUNNING row whose lease looks abandoned. -/
def Stuck (t : OxTask) (cutoff leaseNow : ℤ) : Prop :=
  t.status = .running ∧ t.Abandoned cutoff leaseNow

instance (cutoff leaseNow : ℤ) (t : OxTask) : Decidable (t.Abandoned cutoff leaseNow) :=
  inferInstanceAs (Decidable (_ ∨ _))

instance (cutoff leaseNow : ℤ) (t : OxTask) : Decidable (t.Stuck cutoff leaseNow) :=
  inferInstanceAs (Decidable (_ ∧ _))

/-- Back on the queue, at a new epoch. -/
def requeued (t : OxTask) : OxTask :=
  { t.unlocked with status := .ready, leaseEpoch := t.leaseEpoch + 1 }

/-- The UPDATE of `_requeue_abandoned`, on one of the rows of its manifest. -/
def requeueAbandoned (t : OxTask) (cutoff leaseNow : ℤ) : Option OxTask :=
  if t.Stuck cutoff leaseNow ∧ t.attempts < t.maxAttempts then some t.requeued else none

/-- The note `_abandon_exhausted` adds to the errors it read. -/
def taskAbandoned (heldBy : Option String) : TaskError where
  exceptionClassPath := "django_ox.exceptions.TaskAbandoned"
  traceback :=
    "Worker " ++ (heldBy.elim "None" fun w => "'" ++ w ++ "'") ++
      " stopped renewing its lease on this task; the lease expired with no attempts remaining. " ++
      "What the attempt did was never observed: it may have succeeded, it may have failed, it " ++
      "may not have got that far. This record is the lost lease, not a cause."

/-- LOST, with the note appended to the errors of the candidate. -/
def markLost (t : OxTask) (now : ℤ) (candidate : OxTask) : OxTask :=
  { t.unlocked with
    status := .lost
    finishedAt := some now
    errors := candidate.errors ++ [taskAbandoned candidate.lockedBy] }

/-- One UPDATE of `_abandon_exhausted`, for a candidate read earlier: it does not ask again
whether the attempts are spent. -/
def abandonExhausted (t : OxTask) (cutoff leaseNow now : ℤ) (candidate : OxTask) :
    Option OxTask :=
  if t.Abandoned cutoff leaseNow ∧ t.status = .running ∧
      t.leaseEpoch = candidate.leaseEpoch then
    some (t.markLost now candidate)
  else none

theorem requeueAbandoned_eq_some {t t' : OxTask} {cutoff leaseNow : ℤ} :
    t.requeueAbandoned cutoff leaseNow = some t' ↔
      (t.Stuck cutoff leaseNow ∧ t.attempts < t.maxAttempts) ∧ t.requeued = t' := by
  simp [requeueAbandoned]

theorem abandonExhausted_eq_some {t c t' : OxTask} {cutoff leaseNow now : ℤ} :
    t.abandonExhausted cutoff leaseNow now c = some t' ↔
      (t.Abandoned cutoff leaseNow ∧ t.status = .running ∧ t.leaseEpoch = c.leaseEpoch) ∧
        t.markLost now c = t' := by
  simp [abandonExhausted]

/-- A lease that looks abandoned goes on looking so as the clock and the cutoff go on. -/
theorem Abandoned.mono {t : OxTask} {cutoff cutoff' now now' : ℤ} (h : t.Abandoned cutoff now)
    (hc : cutoff ≤ cutoff') (hn : now ≤ now') : t.Abandoned cutoff' now' := by
  rcases h with ⟨e, he, hlt, hl⟩ | ⟨he, l, hl, hlt⟩
  · refine .inl ⟨e, he, by omega, ?_⟩
    rcases hl with hl | ⟨l, hl, hlt⟩
    · exact .inl hl
    · exact .inr ⟨l, hl, by omega⟩
  · exact .inr ⟨he, l, hl, by omega⟩

/-- The stored expiry has passed and is not older than the lock, or the lock is older than the
cutoff and the expiry is missing or older than the lock. -/
def LeaseGone (t : OxTask) (cutoff now : ℤ) : Prop :=
  ∃ l, t.lockedAt = some l ∧
    ((∃ e, t.leaseExpiresAt = some e ∧ e < now ∧ l ≤ e) ∨
      l < cutoff ∧ ∀ e, t.leaseExpiresAt = some e → e < l)

theorem Abandoned.leaseGone {t : OxTask} {cutoff now : ℤ} (h : t.Abandoned cutoff now) :
    t.LeaseGone cutoff now := by
  rcases h with ⟨e, he, hlt, ⟨l, hl, hle⟩ | ⟨l, hl, hlc⟩⟩ | ⟨he, l, hl, hlt⟩
  · exact ⟨l, hl, .inl ⟨e, he, hlt, hle⟩⟩
  · refine ⟨l, hl, ?_⟩
    by_cases hle : l ≤ e
    · exact .inl ⟨e, he, hlt, hle⟩
    · refine .inr ⟨hlc, fun e' he' => ?_⟩
      have : e = e' := Option.some.inj (he.symm.trans he')
      omega
  · exact ⟨l, hl, .inr ⟨hlt, fun e he' => by simp [he] at he'⟩⟩

end OxTask

end DjangoOx
