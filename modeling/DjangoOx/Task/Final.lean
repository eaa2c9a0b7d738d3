import DjangoOx.Task.History

/-! How each step moves the status of a row, and the statuses a row does not leave. -/
namespace DjangoOx

namespace RowAction

/-- The status before and after a step. -/
def Moves : RowAction → Status → Status → Prop
  | .claimPostgresql _ _ _, b, e | .claimSkipLocked _ _ _, b, e | .claimOptimistic _ _ _ _, b, e =>
    b = .ready ∧ e = .running
  | .writeOutcome _ _ _ _, b, e => b.Writable ∧ (e = .successful ∨ e = .failed ∨ e = .ready)
  | .requeue _ _, b, e | .releaseClaim _ _, b, e => b = .running ∧ e = .ready
  | .abandon _ _ _ _, b, e => b = .running ∧ e = .lost
  | .retry _, b, e | .retryMany, b, e => b.Retryable ∧ e = .ready
  | .discard _ _, b, e | .discardMany _, b, e => b.Discardable ∧ e = .discarded
  | .cancelMany _ _, b, e => b.Cancellable ∧ e = .discarded
  | .release _ _, b, e => b = .waiting ∧ e = .ready
  | .reviveMany _, b, e => b = .discarded ∧ e = .waiting
  | .renewLease _ _, b, e | .expireLease _, b, e | .reloadClaimed _, b, e => e = b

/-- `revive_many`, which nothing in the repository calls. -/
def IsRevive : RowAction → Bool
  | .reviveMany _ => true
  | _ => false

/-- `release` and `release_many`. -/
def IsRelease : RowAction → Bool
  | .release _ _ => true
  | _ => false

end RowAction

namespace RowState

variable {s s' : RowState} {a : RowAction}

theorem step_moves (h : s.step a = some s') : a.Moves s.row.status s'.row.status := by
  cases a <;>
    simp only [step, Option.ite_none_right_eq_some, Option.map_eq_some_iff,
      OxTask.claimOnePostgresql_eq_some, OxTask.claimOneSkipLocked_eq_some,
      OxTask.claimOneOptimistic_eq_some, OxTask.renewLease_eq_some, OxTask.releaseClaim_eq_some,
      OxTask.requeueAbandoned_eq_some, OxTask.abandonExhausted_eq_some, OxTask.retry_eq_some,
      OxTask.retryMany_eq_some, OxTask.expireLease_eq_some, OxTask.discard_eq_some,
      OxTask.discardMany_eq_some, OxTask.release_eq_some, OxTask.cancelMany_eq_some,
      OxTask.reviveMany_eq_some, OxTask.writeOutcome_eq_some] at h
  case writeOutcome b held now ending =>
    obtain ⟨-, t, ⟨⟨-, hw⟩, rfl⟩, rfl⟩ := h
    exact ⟨hw, outcomeOf_status b held now ending⟩
  all_goals
    grind [commit, handOut, RowAction.Moves, OxTask.Ready, OxTask.Stuck, OxTask.claimFields,
      OxTask.renewed, OxTask.refunded, OxTask.requeued, OxTask.markLost, OxTask.retried,
      OxTask.expired, OxTask.discarded, OxTask.released, OxTask.revived]

/-- No step but a revival leaves SUCCESSFUL or DISCARDED. -/
theorem step_final (hr : a.IsRevive = false) (h : s.step a = some s')
    (hs : s.row.status = .successful ∨ s.row.status = .discarded) :
    s'.row.status = s.row.status := by
  have hm := step_moves h
  cases a <;> rcases hs with hs | hs <;>
    simp_all [RowAction.Moves, RowAction.IsRevive, Status.Writable, Status.Retryable,
      Status.Discardable, Status.Cancellable]

/-- Nothing but a revival writes a SUCCESSFUL row. -/
theorem step_successful (hr : a.IsRevive = false) (h : s.step a = some s')
    (hs : s.row.status = .successful) : s'.row = s.row := by
  have hm := step_moves h
  cases a with
  | reloadClaimed epoch =>
    obtain ⟨-, h⟩ := Option.ite_none_right_eq_some.mp h
    obtain rfl := Option.some.inj h
    rfl
  | renewLease w leaseNow =>
    obtain ⟨t, ht, -⟩ := Option.map_eq_some_iff.mp h
    have hrun := (OxTask.renewLease_eq_some.mp ht).1.1
    simp [hs] at hrun
  | expireLease now =>
    obtain ⟨t, ht, -⟩ := Option.map_eq_some_iff.mp h
    have hrun := (OxTask.expireLease_eq_some.mp ht).1.1
    simp [hs] at hrun
  | _ =>
    simp_all [RowAction.Moves, RowAction.IsRevive, Status.Writable, Status.Retryable,
      Status.Discardable, Status.Cancellable]

/-- A row that may be answered was before, at the same epoch, or has just been claimed. -/
theorem step_writable (h : s.step a = some s') (hw : s'.row.status.Writable) :
    s.row.status.Writable ∧ s'.row.leaseEpoch = s.row.leaseEpoch ∨
      s.row.leaseEpoch < s'.row.leaseEpoch := by
  rcases step_cases h with ⟨e, hc⟩ | ⟨e, hr⟩
  · have hallow := hc.allows
    have hlive : s'.row.fence.live = true := OxTask.fence_live.mpr hw
    have hepoch : s.row.fence.token = s.row.leaseEpoch := rfl
    have hepoch' : s'.row.fence.token = s'.row.leaseEpoch := rfl
    have hback : s.row.fence.live = true → s.row.status.Writable := OxTask.fence_live.mp
    rw [← hepoch, ← hepoch']
    generalize e.kind = m at hallow
    generalize s.row.fence = f at *
    generalize s'.row.fence = g at *
    cases hallow with
    | grant n => exact .inr (Nat.lt_succ_self n)
    | keep => exact .inl ⟨hback hlive, rfl⟩
    | shut _ hl => simp [hl] at hlive
  · rw [hr.row] at hw ⊢
    exact .inl ⟨hw, rfl⟩

/-- A success is written onto a row that may be answered, at its epoch. -/
theorem writeOutcome_successful {b : Backoff} {held : OxTask} {now : ℤ} {ending : AttemptEnd}
    (h : s.step (.writeOutcome b held now ending) = some s')
    (hs : s'.row.status = .successful) :
    s.row.status.Writable ∧ s'.row.leaseEpoch = s.row.leaseEpoch := by
  obtain ⟨-, h⟩ := Option.ite_none_right_eq_some.mp h
  obtain ⟨t, ht, rfl⟩ := Option.map_eq_some_iff.mp h
  obtain ⟨⟨-, hw⟩, rfl⟩ := OxTask.writeOutcome_eq_some.mp ht
  refine ⟨hw, ?_⟩
  cases ending with
  | returned value => rfl
  | raised exc answer =>
    simp only [commit, OxTask.setOutcome, outcomeOf, handleFailure] at hs
    split at hs <;> cases hs
  | stuck exc =>
    simp only [commit, OxTask.setOutcome, outcomeOf, handleFailure] at hs
    split at hs <;> cases hs

/-- A row that waits, or was closed waiting, is started by a release only. -/
theorem step_unstarted (hr : a.IsRevive = false) (hl : a.IsRelease = false)
    (h : s.step a = some s') (hs : s.row.status = .waiting ∨ s.row.status = .discarded) :
    s'.row.status = .waiting ∨ s'.row.status = .discarded := by
  have hm := step_moves h
  cases a <;> rcases hs with hs | hs <;>
    simp_all [RowAction.Moves, RowAction.IsRevive, RowAction.IsRelease, Status.Writable,
      Status.Retryable, Status.Discardable, Status.Cancellable]

end RowState

end DjangoOx
