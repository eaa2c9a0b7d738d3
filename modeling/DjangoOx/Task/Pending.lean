import DjangoOx.Task.History

/-! A task that is no longer pending: only an operator's retry makes it pending again. -/
namespace DjangoOx

namespace OxTask

/-- READY or RUNNING. -/
def Pending (t : OxTask) : Prop := t.status = .ready ∨ t.status = .running

instance (t : OxTask) : Decidable t.Pending :=
  inferInstanceAs (Decidable (_ ∨ _))

end OxTask

/-- The reaper reads its candidates with no attempts left. -/
def RowAction.TakesSpent : RowAction → Prop
  | .abandon candidate _ _ _ => candidate.maxAttempts ≤ candidate.attempts
  | _ => True

instance (a : RowAction) : Decidable a.TakesSpent := by
  cases a <;> unfold RowAction.TakesSpent <;> infer_instance

/-- The steps on a row that was never WAITING. The reaper takes candidates with no attempts left. -/
def RowAction.Ordinary : RowAction → Prop
  | .release _ _ | .cancelMany _ _ | .reviveMany _ => False
  | .abandon candidate _ _ _ => candidate.maxAttempts ≤ candidate.attempts
  | _ => True

instance (a : RowAction) : Decidable a.Ordinary := by
  cases a <;> unfold RowAction.Ordinary <;> infer_instance

theorem RowAction.Ordinary.takesSpent {a : RowAction} (h : a.Ordinary) : a.TakesSpent := by
  cases a with
  | abandon candidate cutoff leaseNow now => exact h
  | _ => trivial

/-- The operator's retries. -/
def RowAction.IsRetry : RowAction → Bool
  | .retry _ | .retryMany => true
  | _ => false

namespace RowState

/-- Every version and every instance handed out is the row's own or an earlier one, and a row is
LOST only with its attempts spent. -/
structure Aged (s : RowState) : Prop where
  versions : ∀ t, s.Seen t ∨ t ∈ s.held → t.Before s.row
  lost : s.row.status = .lost → s.row.maxAttempts ≤ s.row.attempts

theorem aged_of_new {s : RowState} (hr : s.row.status ≠ .lost) (hp : s.past = [])
    (hh : s.held = []) : s.Aged := by
  refine ⟨fun t ht => ?_, fun h => absurd h hr⟩
  have : t = s.row := by simpa [Seen, hp, hh] using ht
  exact this ▸ .refl _

theorem aged_of_ready {s : RowState} (hr : s.row.status = .ready) (hp : s.past = [])
    (hh : s.held = []) : s.Aged :=
  aged_of_new (by simp [hr]) hp hh

/-- The versions after a step are those before it and the row it writes. -/
theorem step_versions {s s' : RowState} {a : RowAction} (h : s.step a = some s') {t : OxTask}
    (ht : s'.Seen t ∨ t ∈ s'.held) : (s.Seen t ∨ t ∈ s.held) ∨ t = s'.row := by
  cases a <;>
    simp only [step, Option.ite_none_right_eq_some, Option.map_eq_some_iff] at h <;>
    grind [commit, handOut, Seen, OxTask.reloadClaimed]

theorem step_lost {s s' : RowState} {a : RowAction} (hi : s.Aged) (ha : a.TakesSpent)
    (h : s.step a = some s') (hl : s'.row.status = .lost) :
    s'.row.maxAttempts ≤ s'.row.attempts := by
  cases a with
  | abandon candidate cutoff leaseNow now =>
    obtain ⟨hseen, h⟩ := Option.ite_none_right_eq_some.mp h
    obtain ⟨t, ht, rfl⟩ := Option.map_eq_some_iff.mp h
    obtain ⟨⟨-, -, he⟩, rfl⟩ := OxTask.abandonExhausted_eq_some.mp ht
    obtain ⟨hat, hmax⟩ := (hi.versions candidate (.inl hseen)).2 he.symm
    change s.row.maxAttempts ≤ s.row.attempts
    rw [hat, hmax]
    exact ha
  | writeOutcome b held now ending =>
    obtain ⟨-, h⟩ := Option.ite_none_right_eq_some.mp h
    obtain ⟨t, ht, rfl⟩ := Option.map_eq_some_iff.mp h
    obtain ⟨-, rfl⟩ := OxTask.writeOutcome_eq_some.mp ht
    exact absurd (Or.inr hl) (outcomeOf_not_writable b held now ending)
  | _ =>
    have hold := hi.lost
    simp only [step, Option.ite_none_right_eq_some, Option.map_eq_some_iff,
      OxTask.claimOnePostgresql_eq_some, OxTask.claimOneSkipLocked_eq_some,
      OxTask.claimOneOptimistic_eq_some, OxTask.renewLease_eq_some, OxTask.releaseClaim_eq_some,
      OxTask.requeueAbandoned_eq_some, OxTask.retry_eq_some, OxTask.retryMany_eq_some,
      OxTask.expireLease_eq_some, OxTask.discard_eq_some, OxTask.discardMany_eq_some,
      OxTask.release_eq_some, OxTask.cancelMany_eq_some, OxTask.reviveMany_eq_some] at h
    grind [commit, handOut, OxTask.claimFields, OxTask.renewed, OxTask.refunded, OxTask.requeued,
      OxTask.retried, OxTask.expired, OxTask.discarded, OxTask.released, OxTask.revived]

/-- A step keeps every version and every instance handed out the row's own or an earlier one. -/
theorem step_before_row {s s' : RowState} {a : RowAction}
    (hi : ∀ t, s.Seen t ∨ t ∈ s.held → t.Before s.row) (h : s.step a = some s') {t : OxTask}
    (ht : s'.Seen t ∨ t ∈ s'.held) : t.Before s'.row := by
  rcases step_versions h ht with hold | rfl
  · exact (hi t hold).trans (step_before h)
  · exact .refl _

theorem step_aged {s s' : RowState} {a : RowAction} (hi : s.Aged) (ha : a.TakesSpent)
    (h : s.step a = some s') : s'.Aged :=
  ⟨fun _ ht => step_before_row hi.versions h ht, step_lost hi ha h⟩

/-- A step leaves a settled row settled, unless an operator retries it. A straggler's outcome over
LOST finds no attempt left. -/
theorem step_pending {s s' : RowState} {a : RowAction} (hi : s.Aged) (ha : a.Ordinary)
    (h : s.step a = some s') (hp : s'.row.Pending) : s.row.Pending ∨ a.IsRetry = true := by
  cases a with
  | writeOutcome b held now ending =>
    obtain ⟨hm, h⟩ := Option.ite_none_right_eq_some.mp h
    obtain ⟨t, ht, rfl⟩ := Option.map_eq_some_iff.mp h
    obtain ⟨⟨he, hw⟩, rfl⟩ := OxTask.writeOutcome_eq_some.mp ht
    rcases hw with hr | hl
    · exact .inl (.inr hr)
    · exfalso
      obtain ⟨hat, hmax⟩ := (hi.versions held (.inr hm)).2 he.symm
      have hspent := hi.lost hl
      have hno : ¬ held.attempts < held.maxAttempts := by omega
      cases ending with
      | returned value => simp [commit, OxTask.Pending, OxTask.setOutcome, outcomeOf,
          recordSuccess] at hp
      | raised exc answer => simp [commit, OxTask.Pending, OxTask.setOutcome, outcomeOf,
          handleFailure, Backoff.delay, hno] at hp
      | stuck exc => simp [commit, OxTask.Pending, OxTask.setOutcome, outcomeOf,
          handleFailure, Backoff.delay, hno] at hp
  | retry seen => exact .inr rfl
  | retryMany => exact .inr rfl
  | release epoch now => exact ha.elim
  | cancelMany epoch now => exact ha.elim
  | reviveMany epoch => exact ha.elim
  | _ =>
    simp only [step, Option.ite_none_right_eq_some, Option.map_eq_some_iff,
      OxTask.claimOnePostgresql_eq_some, OxTask.claimOneSkipLocked_eq_some,
      OxTask.claimOneOptimistic_eq_some, OxTask.renewLease_eq_some, OxTask.releaseClaim_eq_some,
      OxTask.requeueAbandoned_eq_some, OxTask.abandonExhausted_eq_some,
      OxTask.expireLease_eq_some, OxTask.discard_eq_some, OxTask.discardMany_eq_some] at h
    grind [commit, handOut, OxTask.Pending, OxTask.claimFields, OxTask.renewed, OxTask.refunded,
      OxTask.requeued, OxTask.markLost, OxTask.expired, OxTask.discarded, OxTask.Ready,
      OxTask.Stuck]

end RowState

end DjangoOx
