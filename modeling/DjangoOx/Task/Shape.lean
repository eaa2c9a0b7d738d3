import DjangoOx.Task.Fencing
import DjangoOx.Task.Pending

/-! The shape of a task row: which columns are set in which status, and how the attempts are
counted. -/
namespace DjangoOx

open Machine

/-- The statuses with a finish time. -/
def Status.Finished (s : Status) : Prop :=
  s = .successful ∨ s = .failed ∨ s = .lost ∨ s = .discarded

instance : DecidablePred Status.Finished := fun s =>
  inferInstanceAs (Decidable (s = _ ∨ s = _ ∨ s = _ ∨ s = _))

namespace OxTask

/-- All three lease columns are set. -/
def Locked (t : OxTask) : Prop :=
  t.lockedBy ≠ none ∧ t.lockedAt ≠ none ∧ t.leaseExpiresAt ≠ none

/-- All three are NULL. -/
def Unlocked (t : OxTask) : Prop :=
  t.lockedBy = none ∧ t.lockedAt = none ∧ t.leaseExpiresAt = none

structure Shape (t : OxTask) : Prop where
  locked : t.status = .running → t.Locked
  unlocked : t.status ≠ .running → t.Unlocked
  finished : t.finishedAt ≠ none ↔ t.status.Finished
  workers : t.workerIds.length = t.attempts
  started : t.startedAt = none ↔ t.attempts = 0
  claimed : t.status = .running → t.attempts ≠ 0

variable {t c held : OxTask} {w : Worker}

/-- A row that is not RUNNING, with the columns of an unlocked one. -/
theorem Shape.of_unlocked (hs : t.status ≠ .running) (hu : t.Unlocked)
    (hf : t.finishedAt ≠ none ↔ t.status.Finished) (hw : t.workerIds.length = t.attempts)
    (hst : t.startedAt = none ↔ t.attempts = 0) : t.Shape :=
  ⟨fun h => absurd h hs, fun _ => hu, hf, hw, hst, fun h => absurd h hs⟩

theorem Shape.finishedAt_eq_none (h : t.Shape) (hs : ¬ t.status.Finished) : t.finishedAt = none := by
  by_contra hf
  exact hs (h.finished.mp hf)

theorem shape_row (call : Call) (inherited : ℕ) (now : ℤ) : (row call inherited now).Shape := by
  apply Shape.of_unlocked
  · simp [row]
  · exact ⟨rfl, rfl, rfl⟩
  · simp [row, Status.Finished]
  · rfl
  · simp [row]

theorem shape_waitingRow (call : Call) (inherited : ℕ) (now : ℤ) :
    (waitingRow call inherited now).Shape := by
  apply Shape.of_unlocked
  · simp [waitingRow]
  · exact ⟨rfl, rfl, rfl⟩
  · simp [waitingRow, row, Status.Finished]
  · rfl
  · simp [waitingRow, row]

/-- The history of a claim is the candidate's with one more worker. -/
theorem Shape.claimFields (h : t.Shape) (hr : t.status = .ready) (hc : c.Shape) (leaseNow : ℤ) :
    (t.claimFields w leaseNow c).Shape where
  locked _ := by simp [OxTask.claimFields, Locked]
  unlocked hs := absurd rfl hs
  finished := by
    have hf : t.finishedAt = none := h.finishedAt_eq_none (by simp [hr, Status.Finished])
    simp [OxTask.claimFields, hf, Status.Finished]
  workers := by
    have hw := hc.workers
    simp [OxTask.claimFields, hw]
  started := by simp [OxTask.claimFields]
  claimed _ := by simp [OxTask.claimFields]

theorem Shape.renewed (h : t.Shape) (hr : t.status = .running) (leaseNow : ℤ) :
    (t.renewed w leaseNow).Shape where
  locked _ := ⟨(h.locked hr).1, by simp [OxTask.renewed], by simp [OxTask.renewed]⟩
  unlocked hs := absurd hr hs
  finished := h.finished
  workers := h.workers
  started := h.started
  claimed := h.claimed

theorem Shape.expired (h : t.Shape) (hr : t.status = .running) (now : ℤ) :
    (t.expired now).Shape where
  locked _ := ⟨(h.locked hr).1, by simp [OxTask.expired], by simp [OxTask.expired]⟩
  unlocked hs := absurd hr hs
  finished := h.finished
  workers := h.workers
  started := h.started
  claimed := h.claimed

/-- The refund takes back the one attempt and the one worker that the claim added. -/
theorem Shape.refunded (h : t.Shape) (hr : t.status = .running) (hh : held.Shape) :
    (t.refunded held).Shape := by
  have hstarted : t.startedAt ≠ none := fun h' => h.claimed hr (h.started.mp h')
  have hf : t.finishedAt = none := h.finishedAt_eq_none (by simp [hr, Status.Finished])
  apply Shape.of_unlocked
  · simp [OxTask.refunded]
  · exact ⟨rfl, rfl, rfl⟩
  · simp [OxTask.refunded, OxTask.unlocked, hf, Status.Finished]
  · have hw := hh.workers
    simp [OxTask.refunded, hw]
  · simp only [OxTask.refunded]
    split_ifs with h0
    · simp [h0]
    · exact iff_of_false hstarted h0

theorem Shape.requeued (h : t.Shape) (hr : t.status = .running) : t.requeued.Shape := by
  have hf : t.finishedAt = none := h.finishedAt_eq_none (by simp [hr, Status.Finished])
  apply Shape.of_unlocked
  · simp [OxTask.requeued]
  · exact ⟨rfl, rfl, rfl⟩
  · simp [OxTask.requeued, OxTask.unlocked, hf, Status.Finished]
  · exact h.workers
  · exact h.started

theorem Shape.markLost (h : t.Shape) (now : ℤ) (candidate : OxTask) :
    (t.markLost now candidate).Shape := by
  apply Shape.of_unlocked
  · simp [OxTask.markLost]
  · exact ⟨rfl, rfl, rfl⟩
  · simp [OxTask.markLost, Status.Finished]
  · exact h.workers
  · exact h.started

theorem Shape.retried (h : t.Shape) (seen : OxTask) : (t.retried seen).Shape := by
  apply Shape.of_unlocked
  · simp [OxTask.retried]
  · exact ⟨rfl, rfl, rfl⟩
  · simp [OxTask.retried, Status.Finished]
  · exact h.workers
  · exact h.started

theorem Shape.discarded (h : t.Shape) (now : ℤ) : (t.discarded now).Shape := by
  apply Shape.of_unlocked
  · simp [OxTask.discarded]
  · exact ⟨rfl, rfl, rfl⟩
  · simp [OxTask.discarded, Status.Finished]
  · exact h.workers
  · exact h.started

theorem Shape.released (h : t.Shape) (hw : t.status = .waiting) (now : ℤ) :
    (t.released now).Shape := by
  have hf : t.finishedAt = none := h.finishedAt_eq_none (by simp [hw, Status.Finished])
  apply Shape.of_unlocked
  · simp [OxTask.released]
  · exact h.unlocked (by simp [hw])
  · simp [OxTask.released, hf, Status.Finished]
  · exact h.workers
  · exact h.started

theorem Shape.revived (h : t.Shape) (hd : t.status = .discarded) : t.revived.Shape := by
  apply Shape.of_unlocked
  · simp [OxTask.revived]
  · exact h.unlocked (by simp [hd])
  · simp [OxTask.revived, Status.Finished]
  · exact h.workers
  · exact h.started

/-- An outcome sets the finish time exactly when it finishes the row; it leaves the column of a
row that it puts back, which was RUNNING. -/
theorem Shape.setOutcome {b : Backoff} {now : ℤ} {ending : AttemptEnd} (h : t.Shape)
    (hput : (outcomeOf b held now ending).status = .ready → t.status = .running) :
    (t.setOutcome (outcomeOf b held now ending)).Shape := by
  have hfinished : (outcomeOf b held now ending).status = .ready ∧
        (outcomeOf b held now ending).finishedAt = none ∨
      (outcomeOf b held now ending).status.Finished ∧
        (outcomeOf b held now ending).finishedAt = some now := by
    cases ending with
    | returned value => exact .inr ⟨.inl rfl, rfl⟩
    | raised exc answer =>
      simp only [outcomeOf, handleFailure]
      split
      · exact .inr ⟨.inr (.inl rfl), rfl⟩
      · exact .inl ⟨rfl, rfl⟩
    | stuck exc =>
      simp only [outcomeOf, handleFailure]
      split
      · exact .inr ⟨.inr (.inl rfl), rfl⟩
      · exact .inl ⟨rfl, rfl⟩
  apply Shape.of_unlocked
  · intro hs
    exact outcomeOf_not_writable b held now ending (.inl hs)
  · exact ⟨rfl, rfl, rfl⟩
  · rcases hfinished with ⟨hs, hnone⟩ | ⟨hs, hsome⟩
    · have hf : t.finishedAt = none :=
        h.finishedAt_eq_none (by simp [hput hs, Status.Finished])
      simp [OxTask.setOutcome, OxTask.unlocked, hs, hnone, hf, Status.Finished]
    · simpa [OxTask.setOutcome, hsome] using hs
  · exact h.workers
  · exact h.started

end OxTask

/-- An outcome puts the row back only while attempts are left. -/
theorem outcomeOf_ready {b : Backoff} {held : OxTask} {now : ℤ} {ending : AttemptEnd}
    (h : (outcomeOf b held now ending).status = .ready) : held.attempts < held.maxAttempts := by
  by_contra hspent
  cases ending with
  | returned value => simp [outcomeOf, recordSuccess] at h
  | raised exc answer => simp [outcomeOf, handleFailure, Backoff.delay, hspent] at h
  | stuck exc => simp [outcomeOf, handleFailure, Backoff.delay, hspent] at h

namespace RowState

variable {s s' : RowState} {a : RowAction}

theorem Fresh.not_lost (h : s.Fresh) : s.row.status ≠ .lost := by
  obtain ⟨call, inherited, now, hrow, -⟩ := h
  rcases hrow with hrow | hrow <;> simp [hrow, DjangoOx.row, waitingRow]

theorem Fresh.aged (h : s.Fresh) : s.Aged := by
  have hne := h.not_lost
  obtain ⟨-, -, -, -, hpast, -, hheld, -⟩ := h
  exact aged_of_new hne hpast hheld

/-- The row that a step writes has the shape, if every version of it had. -/
theorem step_shape (hi : s.Aged) (hs : ∀ t, s.Seen t → t.Shape) (h : s.step a = some s') :
    s'.row.Shape := by
  have hrow : s.row.Shape := hs s.row List.mem_cons_self
  cases a with
  | claimPostgresql w now leaseNow =>
    obtain ⟨t, ht, rfl⟩ := Option.map_eq_some_iff.mp h
    obtain ⟨hr, rfl⟩ := OxTask.claimOnePostgresql_eq_some.mp ht
    exact hrow.claimFields hr.1 hrow leaseNow
  | claimSkipLocked w now leaseNow =>
    obtain ⟨t, ht, rfl⟩ := Option.map_eq_some_iff.mp h
    obtain ⟨hr, rfl⟩ := OxTask.claimOneSkipLocked_eq_some.mp ht
    exact hrow.claimFields hr.1 hrow leaseNow
  | claimOptimistic w candidate now leaseNow =>
    obtain ⟨⟨hseen, -⟩, h⟩ := Option.ite_none_right_eq_some.mp h
    obtain ⟨t, ht, rfl⟩ := Option.map_eq_some_iff.mp h
    obtain ⟨hr, rfl⟩ := OxTask.claimOneOptimistic_eq_some.mp ht
    exact hrow.claimFields hr.1 (hs candidate hseen) leaseNow
  | reloadClaimed epoch =>
    obtain ⟨-, h⟩ := Option.ite_none_right_eq_some.mp h
    obtain rfl := Option.some.inj h
    exact hrow
  | writeOutcome b held now ending =>
    obtain ⟨hheld, h⟩ := Option.ite_none_right_eq_some.mp h
    obtain ⟨t, ht, rfl⟩ := Option.map_eq_some_iff.mp h
    obtain ⟨⟨he, hw⟩, rfl⟩ := OxTask.writeOutcome_eq_some.mp ht
    refine hrow.setOutcome fun hready => hw.resolve_right fun hlost => ?_
    -- a LOST row has no attempt left for its holder to put it back with
    obtain ⟨hat, hmax⟩ := (hi.versions held (.inr hheld)).2 he.symm
    have hspent := hi.lost hlost
    have hleft := outcomeOf_ready hready
    omega
  | renewLease w leaseNow =>
    obtain ⟨t, ht, rfl⟩ := Option.map_eq_some_iff.mp h
    obtain ⟨hr, rfl⟩ := OxTask.renewLease_eq_some.mp ht
    exact hrow.renewed hr.1 leaseNow
  | requeue cutoff leaseNow =>
    obtain ⟨t, ht, rfl⟩ := Option.map_eq_some_iff.mp h
    obtain ⟨hr, rfl⟩ := OxTask.requeueAbandoned_eq_some.mp ht
    exact hrow.requeued hr.1.1
  | abandon candidate cutoff leaseNow now =>
    obtain ⟨-, h⟩ := Option.ite_none_right_eq_some.mp h
    obtain ⟨t, ht, rfl⟩ := Option.map_eq_some_iff.mp h
    obtain ⟨-, rfl⟩ := OxTask.abandonExhausted_eq_some.mp ht
    exact hrow.markLost now candidate
  | retry seen =>
    obtain ⟨-, h⟩ := Option.ite_none_right_eq_some.mp h
    obtain ⟨t, ht, rfl⟩ := Option.map_eq_some_iff.mp h
    obtain ⟨-, rfl⟩ := OxTask.retry_eq_some.mp ht
    exact hrow.retried seen
  | retryMany =>
    obtain ⟨t, ht, rfl⟩ := Option.map_eq_some_iff.mp h
    obtain ⟨-, rfl⟩ := OxTask.retryMany_eq_some.mp ht
    exact hrow.retried s.row
  | discard seen now =>
    obtain ⟨-, h⟩ := Option.ite_none_right_eq_some.mp h
    obtain ⟨t, ht, rfl⟩ := Option.map_eq_some_iff.mp h
    obtain ⟨-, rfl⟩ := OxTask.discard_eq_some.mp ht
    exact hrow.discarded now
  | discardMany now =>
    obtain ⟨t, ht, rfl⟩ := Option.map_eq_some_iff.mp h
    obtain ⟨-, rfl⟩ := OxTask.discardMany_eq_some.mp ht
    exact hrow.discarded now
  | expireLease now =>
    obtain ⟨t, ht, rfl⟩ := Option.map_eq_some_iff.mp h
    obtain ⟨hr, rfl⟩ := OxTask.expireLease_eq_some.mp ht
    exact hrow.expired hr.1 now
  | release epoch now =>
    obtain ⟨t, ht, rfl⟩ := Option.map_eq_some_iff.mp h
    obtain ⟨hw, rfl⟩ := OxTask.release_eq_some.mp ht
    exact hrow.released hw.1 now
  | cancelMany epoch now =>
    obtain ⟨t, ht, rfl⟩ := Option.map_eq_some_iff.mp h
    obtain ⟨-, rfl⟩ := OxTask.cancelMany_eq_some.mp ht
    exact hrow.discarded now
  | reviveMany epoch =>
    obtain ⟨t, ht, rfl⟩ := Option.map_eq_some_iff.mp h
    obtain ⟨hd, rfl⟩ := OxTask.reviveMany_eq_some.mp ht
    exact hrow.revived hd.1
  | releaseClaim w seen =>
    obtain ⟨⟨hseen, -⟩, h⟩ := Option.ite_none_right_eq_some.mp h
    obtain ⟨t, ht, rfl⟩ := Option.map_eq_some_iff.mp h
    obtain ⟨hr, rfl⟩ := OxTask.releaseClaim_eq_some.mp ht
    exact hrow.refunded hr.1 (hs seen hseen)

/-- Every version of the row has the shape. -/
structure Shaped (s : RowState) : Prop where
  aged : s.Aged
  versions : ∀ t, s.Seen t ∨ t ∈ s.held → t.Shape

theorem shaped_of_fresh (h : s.Fresh) : s.Shaped := by
  refine ⟨h.aged, fun t ht => ?_⟩
  obtain ⟨call, inherited, now, hrow, hpast, -, hheld, -⟩ := h
  have heq : t = s.row := by simpa [Seen, hpast, hheld] using ht
  rcases hrow with hrow | hrow
  · rw [heq, hrow]
    exact OxTask.shape_row call inherited now
  · rw [heq, hrow]
    exact OxTask.shape_waitingRow call inherited now

theorem step_shaped (hi : s.Shaped) (ha : a.TakesSpent) (h : s.step a = some s') : s'.Shaped := by
  refine ⟨step_aged hi.aged ha h, fun t ht => ?_⟩
  have hnew : s'.row.Shape := step_shape hi.aged (fun t ht => hi.versions t (.inl ht)) h
  rcases step_versions h ht with hold | rfl
  · exact hi.versions t hold
  · exact hnew

end RowState

/-- Every row that is reached from an enqueue has the lease columns of its status, a finish time
exactly when it is finished, one worker for each attempt, and a start exactly with its first. -/
theorem row_shape {s : RowState} (h : rowSystem.ReachesBy (fun _ a => a.TakesSpent) s) :
    (if s.row.status = .running then s.row.Locked else s.row.Unlocked) ∧
      (s.row.finishedAt ≠ none ↔ s.row.status.Finished) ∧
      s.row.workerIds.length = s.row.attempts ∧
      (s.row.startedAt = none ↔ s.row.attempts = 0) := by
  have hshaped : s.Shaped := h.invariant RowState.Shaped
    (fun _ hs => RowState.shaped_of_fresh hs) fun _ _ _ hi ha hs => RowState.step_shaped hi ha hs
  have hrow : s.row.Shape := hshaped.versions s.row (.inl List.mem_cons_self)
  refine ⟨?_, hrow.finished, hrow.workers, hrow.started⟩
  split_ifs with hr
  · exact hrow.locked hr
  · exact hrow.unlocked hr

/-- LOST under a holder that then answers. -/
theorem row_shape_straggler :
    ∃ s, rowSystem.run (enqueuedState 1)
        [.claimPostgresql (soloWorker "w1") 5 5, .abandon (firstHeld 1) 90 100 100,
          .writeOutcome ⟨1, 8⟩ (firstHeld 1) 101 (.returned none)] = some s ∧
      s.row.status = .successful ∧ s.row.Unlocked ∧ s.row.finishedAt ≠ none ∧
      s.row.workerIds.length = 1 := by
  have shape : ∀ s, (rowSystem.only fun _ a => a.TakesSpent).run (enqueuedState 1)
        [.claimPostgresql (soloWorker "w1") 5 5, .abandon (firstHeld 1) 90 100 100,
          .writeOutcome ⟨1, 8⟩ (firstHeld 1) 101 (.returned none)] = some s →
      s.row.status = .successful → s.row.attempts = 1 →
      s.row.Unlocked ∧ s.row.finishedAt ≠ none ∧ s.row.workerIds.length = 1 := by
    intro s hs hsucc hone
    obtain ⟨hlock, hfin, hwork, -⟩ := row_shape (.of_run (enqueuedState_fresh 1) hs)
    rw [if_neg (by simp [hsucc])] at hlock
    exact ⟨hlock, hfin.mpr (.inl hsucc), hwork.trans hone⟩
  exact ⟨_, rfl, rfl, shape _ rfl rfl rfl⟩

end DjangoOx
