import DjangoOx.Task.Shape
import DjangoOx.Task.Recovery

/-! The release of a claim that raised takes the claim back. -/
namespace DjangoOx

open Machine

namespace OxTask

/-- `t` is the version `c` or a later one: within one epoch the history of the attempts stays. -/
def Begun (c t : OxTask) : Prop :=
  c.leaseEpoch ≤ t.leaseEpoch ∧
    (c.leaseEpoch = t.leaseEpoch →
      t.attempts = c.attempts ∧ t.workerIds = c.workerIds ∧ t.startedAt = c.startedAt)

theorem Begun.refl (t : OxTask) : t.Begun t :=
  ⟨le_rfl, fun _ => ⟨rfl, rfl, rfl⟩⟩

theorem Begun.trans {c t u : OxTask} (h : c.Begun t) (h' : t.Begun u) : c.Begun u := by
  refine ⟨h.1.trans h'.1, fun he => ?_⟩
  have h₁ : c.leaseEpoch = t.leaseEpoch := le_antisymm h.1 (he ▸ h'.1)
  obtain ⟨ha, hw, hs⟩ := h'.2 (h₁.symm.trans he)
  obtain ⟨ha', hw', hs'⟩ := h.2 h₁
  exact ⟨ha.trans ha', hw.trans hw', hs.trans hs'⟩

theorem Unlocked.unlocked_eq {t : OxTask} (h : t.Unlocked) : t.unlocked = t := by
  obtain ⟨hby, hat, hexpires⟩ := h
  cases t
  cases hby
  cases hat
  cases hexpires
  rfl

/-- The same claim, with its lease renewed or dated back any number of times. -/
def LeaseOf (t c : OxTask) : Prop :=
  ∃ lockedAt expiresAt, t = { c with lockedAt := lockedAt, leaseExpiresAt := expiresAt }

theorem LeaseOf.refl (t : OxTask) : t.LeaseOf t :=
  ⟨t.lockedAt, t.leaseExpiresAt, rfl⟩

theorem LeaseOf.trans {t u c : OxTask} (h : t.LeaseOf u) (h' : u.LeaseOf c) : t.LeaseOf c := by
  obtain ⟨l, x, rfl⟩ := h
  obtain ⟨l', x', rfl⟩ := h'
  exact ⟨l, x, rfl⟩

/-- The row as it was, but for the epoch, two higher, and the instant of the last attempt. -/
def UndoneAt (t : OxTask) (last : Option ℤ) : OxTask :=
  { t with leaseEpoch := t.leaseEpoch + 2, lastAttemptedAt := last }

end OxTask

namespace RowState

variable {s s' : RowState} {a : RowAction}

/-- No write changes the history of the attempts without moving the epoch on. -/
theorem step_begun (h : s.step a = some s') : s.row.Begun s'.row := by
  cases a <;>
    simp only [step, Option.ite_none_right_eq_some, Option.map_eq_some_iff,
      OxTask.claimOnePostgresql_eq_some, OxTask.claimOneSkipLocked_eq_some,
      OxTask.claimOneOptimistic_eq_some, OxTask.renewLease_eq_some, OxTask.releaseClaim_eq_some,
      OxTask.writeOutcome_eq_some, OxTask.requeueAbandoned_eq_some,
      OxTask.abandonExhausted_eq_some, OxTask.retry_eq_some, OxTask.retryMany_eq_some,
      OxTask.expireLease_eq_some, OxTask.discard_eq_some, OxTask.discardMany_eq_some,
      OxTask.release_eq_some, OxTask.cancelMany_eq_some, OxTask.reviveMany_eq_some] at h <;>
    grind [commit, handOut, OxTask.Begun, OxTask.claimFields, OxTask.renewed, OxTask.refunded,
      OxTask.setOutcome, OxTask.requeued, OxTask.markLost, OxTask.retried, OxTask.expired,
      OxTask.discarded, OxTask.released, OxTask.revived, OxTask.unlocked, outcomeOf_leaseEpoch]

theorem reachable_begun (h : rowSystem.Reachable s) {t : OxTask} (ht : s.Seen t) :
    t.Begun s.row := by
  have hall : ∀ t, s.Seen t ∨ t ∈ s.held → t.Begun s.row := by
    apply h.invariant fun s => ∀ t, s.Seen t ∨ t ∈ s.held → t.Begun s.row
    · intro s hs t ht
      obtain ⟨-, -, -, -, hpast, -, hheld, -⟩ := hs
      have heq : t = s.row := by simpa [Seen, hpast, hheld] using ht
      exact heq ▸ .refl _
    · intro s a s' hi hs t ht
      rcases step_versions hs ht with hold | rfl
      · exact (hi t hold).trans (step_begun hs)
      · exact .refl _
  exact hall t (.inl ht)

/-- A step that leaves the row RUNNING at its epoch changes the dates of the lease at most. -/
theorem step_leaseOf (h : s.step a = some s') (hr : s'.row.status = .running)
    (he : s'.row.leaseEpoch = s.row.leaseEpoch) : s'.row.LeaseOf s.row := by
  have hno : a.claimant = none := by
    by_contra hc
    have := (step_claimed h hc).2.2.1
    omega
  cases a with
  | claimPostgresql w now leaseNow => cases hno
  | claimSkipLocked w now leaseNow => cases hno
  | claimOptimistic w candidate now leaseNow => cases hno
  | reloadClaimed epoch =>
    obtain ⟨-, h⟩ := Option.ite_none_right_eq_some.mp h
    obtain rfl := Option.some.inj h
    exact .refl _
  | renewLease w leaseNow =>
    obtain ⟨t, ht, rfl⟩ := Option.map_eq_some_iff.mp h
    obtain ⟨-, rfl⟩ := OxTask.renewLease_eq_some.mp ht
    exact ⟨_, _, rfl⟩
  | expireLease now =>
    obtain ⟨t, ht, rfl⟩ := Option.map_eq_some_iff.mp h
    obtain ⟨-, rfl⟩ := OxTask.expireLease_eq_some.mp ht
    exact ⟨_, _, rfl⟩
  | writeOutcome b held now ending =>
    obtain ⟨-, h⟩ := Option.ite_none_right_eq_some.mp h
    obtain ⟨t, ht, rfl⟩ := Option.map_eq_some_iff.mp h
    obtain ⟨-, rfl⟩ := OxTask.writeOutcome_eq_some.mp ht
    exact absurd (Or.inl hr) (outcomeOf_not_writable b held now ending)
  | _ =>
    simp only [step, Option.ite_none_right_eq_some, Option.map_eq_some_iff,
      OxTask.releaseClaim_eq_some, OxTask.requeueAbandoned_eq_some,
      OxTask.abandonExhausted_eq_some, OxTask.retry_eq_some, OxTask.retryMany_eq_some,
      OxTask.discard_eq_some, OxTask.discardMany_eq_some, OxTask.release_eq_some,
      OxTask.cancelMany_eq_some, OxTask.reviveMany_eq_some] at h
    grind [commit, OxTask.refunded, OxTask.requeued, OxTask.markLost, OxTask.retried,
      OxTask.discarded, OxTask.released, OxTask.revived]

theorem run_leaseEpoch_le {as : List RowAction} (h : rowSystem.run s as = some s') :
    s.row.leaseEpoch ≤ s'.row.leaseEpoch := by
  induction as generalizing s with
  | nil =>
    obtain rfl := Option.some.inj h
    exact le_rfl
  | cons a as ih =>
    obtain ⟨t, ht, h⟩ := Option.bind_eq_some_iff.mp h
    exact (step_leaseEpoch_le ht).trans (ih h)

/-- Over a run: a row that ends RUNNING at the epoch it began with is the same claim. -/
theorem run_leaseOf {as : List RowAction} (h : rowSystem.run s as = some s')
    (hr : s'.row.status = .running) (he : s'.row.leaseEpoch = s.row.leaseEpoch) :
    s'.row.LeaseOf s.row := by
  induction as generalizing s with
  | nil =>
    obtain rfl := Option.some.inj h
    exact .refl _
  | cons a as ih =>
    obtain ⟨t, ht, h⟩ := Option.bind_eq_some_iff.mp h
    have hle := step_leaseEpoch_le ht
    have hle' := run_leaseEpoch_le h
    have hrest : s'.row.LeaseOf t.row := ih h (by omega)
    have hrunning : t.row.status = .running := by
      obtain ⟨l, x, heq⟩ := hrest
      rw [heq] at hr
      exact hr
    exact hrest.trans (step_leaseOf ht hrunning (by omega))

/-- On every path a claim writes the same columns, computed from the row itself. -/
theorem step_claim (hreach : rowSystem.Reachable s) (h : s.step a = some s') {id : String}
    (ha : a.claimant = some id) :
    ∃ w leaseNow, w.workerId = id ∧ s.row.status = .ready ∧
      s'.row = s.row.claimFields w leaseNow s.row := by
  cases a with
  | claimPostgresql w now leaseNow =>
    obtain ⟨t, ht, rfl⟩ := Option.map_eq_some_iff.mp h
    obtain ⟨hr, rfl⟩ := OxTask.claimOnePostgresql_eq_some.mp ht
    exact ⟨w, leaseNow, Option.some.inj ha, hr.1, rfl⟩
  | claimSkipLocked w now leaseNow =>
    obtain ⟨t, ht, rfl⟩ := Option.map_eq_some_iff.mp h
    obtain ⟨hr, rfl⟩ := OxTask.claimOneSkipLocked_eq_some.mp ht
    exact ⟨w, leaseNow, Option.some.inj ha, hr.1, rfl⟩
  | claimOptimistic w candidate now leaseNow =>
    obtain ⟨⟨hseen, -⟩, h⟩ := Option.ite_none_right_eq_some.mp h
    obtain ⟨t, ht, rfl⟩ := Option.map_eq_some_iff.mp h
    obtain ⟨⟨hready, hattempts, hepoch⟩, rfl⟩ := OxTask.claimOneOptimistic_eq_some.mp ht
    -- The candidate is an earlier version, and the epoch it was read at still stands.
    obtain ⟨-, hworkers, hstarted⟩ := (reachable_begun hreach hseen).2 hepoch.symm
    refine ⟨w, leaseNow, Option.some.inj ha, hready, ?_⟩
    change s.row.claimFields w leaseNow candidate = s.row.claimFields w leaseNow s.row
    unfold OxTask.claimFields
    rw [hattempts, hepoch, hworkers, hstarted]
  | _ => cases ha

end RowState

/-- The release undoes the claim. -/
theorem OxTask.refunded_claimFields {t held : OxTask} {w : Worker} {leaseNow : ℤ}
    (hready : t.status = .ready) (hshape : t.Shape)
    (hheld : (t.claimFields w leaseNow t).Begun held ∧ held.Begun (t.claimFields w leaseNow t))
    {u : OxTask} (hu : u.LeaseOf (t.claimFields w leaseNow t)) :
    u.refunded held = t.UndoneAt (some leaseNow) := by
  obtain ⟨⟨hle, hsame⟩, hle', -⟩ := hheld
  have hepoch : held.leaseEpoch = t.leaseEpoch + 1 := le_antisymm hle' hle
  obtain ⟨hattempts, hworkers, -⟩ := hsame hepoch.symm
  have hunlocked : t.Unlocked := hshape.unlocked (by simp [hready])
  obtain ⟨l, x, rfl⟩ := hu
  unfold refunded UndoneAt
  rw [hepoch, hattempts, hworkers]
  have hstarted : (if (t.claimFields w leaseNow t).attempts - 1 = 0 then none
      else (t.claimFields w leaseNow t).startedAt) = t.startedAt := by
    change (if t.attempts + 1 - 1 = 0 then none else t.startedAt.or (some leaseNow)) = t.startedAt
    rw [Nat.add_sub_cancel]
    split_ifs with h0
    · exact (hshape.started.mpr h0).symm
    · obtain ⟨at', hat'⟩ := Option.ne_none_iff_exists'.mp (mt hshape.started.mp h0)
      simp [hat']
  have hdrop : (t.claimFields w leaseNow t).workerIds.dropLast = t.workerIds := by
    simp [claimFields]
  rw [hdrop]
  change { t.unlocked with
    status := .ready
    leaseEpoch := t.leaseEpoch + 2
    attempts := t.attempts + 1 - 1
    workerIds := t.workerIds
    startedAt := if (t.claimFields w leaseNow t).attempts - 1 = 0 then none
      else (t.claimFields w leaseNow t).startedAt
    lastAttemptedAt := some leaseNow } = _
  rw [hstarted, Nat.add_sub_cancel]
  rw [hunlocked.unlocked_eq, ← hready]

/-- A claim on any of the three paths, then any steps, then the release, by that worker's look, of
the epoch that was granted: the row is as before the claim but for its epoch, two higher, and the
instant of its last attempt. A worker whose filter does not tell these two columns may claim it
where it could before. The history is the one the look asks for, and a release straight after the
claim lands. -/
theorem claim_release_undo {s s₁ : RowState} {a : RowAction} {w : Worker}
    (h : rowSystem.ReachesBy (fun _ a => a.TakesSpent) s) (ha : a.claimant = some w.workerId)
    (hclaim : s.step a = some s₁) :
    s.row.status = .ready ∧ (s₁.step (.releaseClaim w s₁.row)).isSome ∧
      ∀ later s₂ seen s₃, rowSystem.run s₁ later = some s₂ →
        s₂.step (.releaseClaim w seen) = some s₃ → seen.leaseEpoch = s.row.leaseEpoch + 1 →
        seen.WellFormedHistory w ∧ s₃.row = s.row.UndoneAt s₁.row.lastAttemptedAt ∧
          ∀ (v : Worker) (now : ℤ), v.claimFilter s₃.row = v.claimFilter s.row →
            (s₃.row.Ready v now ↔ s.row.Ready v now) := by
  have hshaped : s.Shaped := h.invariant RowState.Shaped
    (fun _ hs => RowState.shaped_of_fresh hs) fun _ _ _ hi ha hs => RowState.step_shaped hi ha hs
  have hshape : s.row.Shape := hshaped.versions s.row (.inl List.mem_cons_self)
  obtain ⟨w', leaseNow, hid, hready, hrow⟩ := RowState.step_claim h.reachable hclaim ha
  refine ⟨hready, ?_, ?_⟩
  · have hseen : s₁.Seen s₁.row := List.mem_cons_self
    have hrunning : s₁.row.status = .running := by rw [hrow]; rfl
    have hlocked : s₁.row.lockedBy = some w.workerId := by rw [hrow, ← hid]; rfl
    simp [RowState.step, OxTask.releaseClaim, hseen, hrunning, hlocked]
  · intro later s₂ seen s₃ hrun hrelease hepoch
    obtain ⟨⟨hseen, -⟩, hrelease⟩ := Option.ite_none_right_eq_some.mp hrelease
    obtain ⟨t, ht, rfl⟩ := Option.map_eq_some_iff.mp hrelease
    obtain ⟨⟨hrunning, hby, hsame⟩, rfl⟩ := OxTask.releaseClaim_eq_some.mp ht
    have hgranted : s₁.row.leaseEpoch = s.row.leaseEpoch + 1 := by rw [hrow]; rfl
    have hreach₂ : rowSystem.Reachable s₂ :=
      (h.reachable.step hclaim).run hrun
    -- RUNNING at the epoch of the claim: the row is the claimed one, and so is what the look read.
    have hlease : s₂.row.LeaseOf s₁.row := RowState.run_leaseOf hrun hrunning (by omega)
    have hbegun : seen.Begun s₂.row := RowState.reachable_begun hreach₂ hseen
    obtain ⟨l, x, heq⟩ := hlease
    obtain ⟨hattempts, hworkers, hstarted⟩ := hbegun.2 hsame.symm
    have hforth : (s.row.claimFields w' leaseNow s.row).Begun seen := by
      rw [← hrow]
      rw [heq] at hattempts hworkers hstarted
      exact ⟨by omega, fun _ => ⟨hattempts.symm, hworkers.symm, hstarted.symm⟩⟩
    have hback : seen.Begun (s.row.claimFields w' leaseNow s.row) := by
      rw [← hrow]
      rw [heq] at hattempts hworkers hstarted
      exact ⟨by omega, fun _ => ⟨hattempts, hworkers, hstarted⟩⟩
    have hundone : s₂.row.refunded seen = s.row.UndoneAt s₁.row.lastAttemptedAt := by
      have hlast : s₁.row.lastAttemptedAt = some leaseNow := by rw [hrow]; rfl
      rw [hlast]
      apply OxTask.refunded_claimFields hready hshape ⟨hforth, hback⟩
      rw [← hrow]
      exact ⟨l, x, heq⟩
    refine ⟨?_, hundone, ?_⟩
    · obtain ⟨hattempts', hworkers', -⟩ := hforth.2 (by
        change s.row.leaseEpoch + 1 = _
        omega)
      have hlength := hshape.workers
      unfold OxTask.WellFormedHistory
      rw [hattempts', hworkers', ← hid]
      simp [OxTask.claimFields, hlength]
    · intro v now hfilter
      change (s₂.row.refunded seen).Ready v now ↔ _
      have hfilter' : v.claimFilter (s₂.row.refunded seen) = v.claimFilter s.row := hfilter
      unfold OxTask.Ready
      rw [hfilter', hundone]
      rfl

/-- A second attempt, whose lease was renewed before the look. -/
theorem claim_release_undo_second :
    ∃ s s₁ s₃, rowSystem.run (enqueuedState 3) [.claimPostgresql (soloWorker "w1") 5 5,
        .requeue 90 100] = some s ∧
      s.step (.claimOptimistic (soloWorker "w1") s.row 101 101) = some s₁ ∧
      rowSystem.run s₁ [.renewLease (soloWorker "w1") 102,
        .releaseClaim (soloWorker "w1") s₁.row] = some s₃ ∧
      s₃.row = s.row.UndoneAt (some 101) ∧ s₃.row.attempts = 1 := by
  have undone : ∀ s s₁ s₂ s₃, (rowSystem.only fun _ a => a.TakesSpent).run (enqueuedState 3)
        [.claimPostgresql (soloWorker "w1") 5 5, .requeue 90 100] = some s →
      s.step (.claimOptimistic (soloWorker "w1") s.row 101 101) = some s₁ →
      rowSystem.run s₁ [.renewLease (soloWorker "w1") 102] = some s₂ →
      s₂.step (.releaseClaim (soloWorker "w1") s₁.row) = some s₃ →
      s₁.row.leaseEpoch = s.row.leaseEpoch + 1 → s₁.row.lastAttemptedAt = some 101 →
      s₃.row = s.row.UndoneAt (some 101) := by
    intro s s₁ s₂ s₃ hs hclaim hrun hrelease hepoch hlast
    have hreach : rowSystem.ReachesBy (fun _ a => a.TakesSpent) s :=
      .of_run (enqueuedState_fresh 3) hs
    rw [← hlast]
    exact ((claim_release_undo hreach rfl hclaim).2.2 _ s₂ s₁.row s₃ hrun hrelease hepoch).2.1
  exact ⟨_, _, _, rfl, rfl, rfl, undone _ _ _ _ rfl rfl rfl rfl rfl rfl, rfl⟩

end DjangoOx
