import DjangoOx.Machine.Run
import DjangoOx.Task.Lease

/-! One row under any number of workers, reapers and operators, with the history of the writes
that changed it. -/
namespace DjangoOx

open Machine Machine.Fencing

/-- A committed write that matched the row. -/
inductive Event
  | claimed (epoch : ℕ)
  | answered (epoch : ℕ)
  /-- The stuck-thread record, which moves the epoch on. -/
  | handedOver (epoch : ℕ)
  | renewed
  | expired
  | lost
  | requeued
  | retried
  | discarded
  | released
  | cancelled
  | revived
  | recovered
  deriving DecidableEq, Repr

namespace Event

/-- Who may answer after the write. -/
def kind : Event → Move
  | claimed _ => .grant
  | renewed | expired | lost => .keep
  | _ => .shut

/-- The epoch a claim granted. -/
def granted : Event → ℕ
  | claimed e => e
  | _ => 0

theorem kind_eq_keep {e : Event} : e.kind = .keep ↔ e = renewed ∨ e = expired ∨ e = lost := by
  cases e <;> simp [kind]

theorem kind_eq_grant {e : Event} : e.kind = .grant ↔ e = claimed e.granted := by
  cases e <;> simp [kind, granted]

end Event

/-- How a record of an execution granted `epoch` stands in the history. -/
def AttemptEnd.event (epoch : ℕ) : AttemptEnd → Event
  | .stuck _ => .handedOver epoch
  | _ => .answered epoch

theorem AttemptEnd.kind_event (epoch : ℕ) (a : AttemptEnd) : (a.event epoch).kind = .shut := by
  cases a <;> rfl

/-- A record that leaves the epoch is the attempt's own. -/
theorem AttemptEnd.event_of_same_epoch {b : Backoff} {held t : OxTask} {now : ℤ}
    (a : AttemptEnd)
    (h : (t.setOutcome (outcomeOf b held now a)).leaseEpoch = held.leaseEpoch) :
    a.event held.leaseEpoch = .answered held.leaseEpoch := by
  cases a with
  | returned value => rfl
  | raised exc answer => rfl
  | stuck exc =>
    simp only [outcomeOf, handleFailure] at h
    split at h <;> simp [OxTask.setOutcome] at h

structure RowState where
  row : OxTask
  /-- The committed versions before this one, latest first. -/
  past : List OxTask
  /-- Epochs granted to optimistic claims that have not read their row back. -/
  unread : List ℕ
  /-- The instances that executions were handed. -/
  held : List OxTask
  /-- Latest first. -/
  log : List Event

namespace RowState

/-- Some committed read of the row, stale or not, could have returned `t`. -/
def Seen (s : RowState) (t : OxTask) : Prop := t ∈ s.row :: s.past

instance (s : RowState) (t : OxTask) : Decidable (s.Seen t) :=
  inferInstanceAs (Decidable (_ ∈ _))

/-- The commit of a write that matched. -/
def commit (s : RowState) (e : Event) (t : OxTask) : RowState :=
  { s with row := t, past := s.row :: s.past, log := e :: s.log }

/-- The commit of a claim whose statement returns the claimed row. -/
def handOut (s : RowState) (t : OxTask) : RowState :=
  { s.commit (.claimed t.leaseEpoch) t with held := t :: s.held }

end RowState

/-- The steps on the row. A write that matches no row changes nothing and is not listed as one. -/
inductive RowAction
  | claimPostgresql (w : Worker) (now leaseNow : ℤ)
  | claimSkipLocked (w : Worker) (now leaseNow : ℤ)
  | claimOptimistic (w : Worker) (candidate : OxTask) (now leaseNow : ℤ)
  | reloadClaimed (epoch : ℕ)
  | writeOutcome (b : Backoff) (held : OxTask) (now : ℤ) (ending : AttemptEnd)
  | renewLease (w : Worker) (leaseNow : ℤ)
  | requeue (cutoff leaseNow : ℤ)
  | abandon (candidate : OxTask) (cutoff leaseNow now : ℤ)
  | retry (seen : OxTask)
  | retryMany
  | discard (seen : OxTask) (now : ℤ)
  | discardMany (now : ℤ)
  | expireLease (now : ℤ)
  | release (epoch : ℕ) (now : ℤ)
  | cancelMany (epoch : ℕ) (now : ℤ)
  | reviveMany (epoch : ℕ)
  | releaseClaim (w : Worker) (seen : OxTask)

/-- The worker a claim is made for. -/
def RowAction.claimant : RowAction → Option String
  | .claimPostgresql w _ _ | .claimSkipLocked w _ _ | .claimOptimistic w _ _ _ => some w.workerId
  | _ => none

/-- The worker whose look a release is made for. -/
def RowAction.recoverer : RowAction → Option String
  | .releaseClaim w _ => some w.workerId
  | _ => none

namespace RowState

/-- The reads a step acts on were made earlier: a candidate, a row to retry, discard or release
is any version the row has had. -/
def step (s : RowState) : RowAction → Option RowState
  | .claimPostgresql w now leaseNow =>
    (s.row.claimOnePostgresql w now leaseNow).map s.handOut
  | .claimSkipLocked w now leaseNow =>
    (s.row.claimOneSkipLocked w now leaseNow).map s.handOut
  | .claimOptimistic w candidate now leaseNow =>
    if s.Seen candidate ∧ candidate.Ready w now then
      (s.row.claimOneOptimistic w leaseNow candidate).map fun t =>
        { s.commit (.claimed t.leaseEpoch) t with unread := (candidate.leaseEpoch + 1) :: s.unread }
    else none
  | .reloadClaimed epoch =>
    if epoch ∈ s.unread then
      some { s with
        unread := s.unread.erase epoch
        held := (s.row.reloadClaimed epoch).toList ++ s.held }
    else none
  | .writeOutcome b held now ending =>
    if held ∈ s.held then
      (s.row.writeOutcome held (outcomeOf b held now ending)).map
        (s.commit (ending.event held.leaseEpoch))
    else none
  | .renewLease w leaseNow => (s.row.renewLease w leaseNow).map (s.commit .renewed)
  | .requeue cutoff leaseNow => (s.row.requeueAbandoned cutoff leaseNow).map (s.commit .requeued)
  | .abandon candidate cutoff leaseNow now =>
    if s.Seen candidate then
      (s.row.abandonExhausted cutoff leaseNow now candidate).map (s.commit .lost)
    else none
  | .retry seen =>
    if s.Seen seen ∧ seen.attempts < maxAttemptsLimit ∧ seen.status.Retryable then
      (s.row.retry seen).map (s.commit .retried)
    else none
  | .retryMany => s.row.retryMany.map (s.commit .retried)
  | .discard seen now =>
    if s.Seen seen ∧ seen.status.Discardable then
      (s.row.discard seen.leaseEpoch now).map (s.commit .discarded)
    else none
  | .discardMany now => (s.row.discardMany now).map (s.commit .discarded)
  | .expireLease now => (s.row.expireLease now).map (s.commit .expired)
  | .release epoch now => (s.row.release epoch now).map (s.commit .released)
  | .cancelMany epoch now => (s.row.cancelMany epoch now).map (s.commit .cancelled)
  | .reviveMany epoch => (s.row.reviveMany epoch).map (s.commit .revived)
  | .releaseClaim w seen =>
    if s.Seen seen ∧ seen.status = .running ∧ seen.lockedBy = some w.workerId then
      (s.row.releaseClaim w seen).map (s.commit .recovered)
    else none

/-- A row just inserted, by `enqueue` or by `_waiting.enqueue`. -/
def Fresh (s : RowState) : Prop :=
  ∃ call inherited enqueuedAt,
    (s.row = DjangoOx.row call inherited enqueuedAt ∨
      s.row = waitingRow call inherited enqueuedAt) ∧
    s.past = [] ∧ s.unread = [] ∧ s.held = [] ∧ s.log = []

end RowState

def rowSystem : System RowState RowAction where
  init := RowState.Fresh
  step := RowState.step

namespace RowState

/-- A write: the event its kind of move allows, and the instance or the epoch a claim hands out. -/
structure Commits (s : RowState) (e : Event) (s' : RowState) : Prop where
  allows : e.kind.Allows s.row.fence s'.row.fence
  log : s'.log = e :: s.log
  granted : e.kind = .grant → e.granted = s'.row.leaseEpoch
  holders : s'.held = s.held ∧ s'.unread = s.unread ∨
    e.kind = .grant ∧ (s'.held = s'.row :: s.held ∧ s'.unread = s.unread ∨
      s'.held = s.held ∧ s'.unread = s'.row.leaseEpoch :: s.unread)
  lost : e = .lost → s.row.status = .running ∧ s'.row.status = .lost
  running : s'.row.status = .running → s.row.status = .running ∨ e.kind = .grant
  kept : e.kind = .keep → s'.row.status.Writable
  answers : ∀ k, e = .answered k → s.row.leaseEpoch = k
  settled : e.kind = .shut → s'.row.leaseEpoch = s.row.leaseEpoch →
    s'.row.status = .discarded ∨ s.row.status = .waiting ∨ e = .answered s.row.leaseEpoch

/-- A read-back: the row stays, and the instance read has the epoch that was granted. -/
structure Reloads (s : RowState) (epoch : ℕ) (s' : RowState) : Prop where
  unread : epoch ∈ s.unread ∧ s'.unread = s.unread.erase epoch
  row : s'.row = s.row
  log : s'.log = s.log
  held : s'.held = s.held ∨ s'.held = s.row :: s.held ∧ s.row.leaseEpoch = epoch

private theorem commit_shuts {s : RowState} {e : Event} {t : OxTask} (hk : e.kind = .shut)
    (ha : Move.shut.Allows s.row.fence t.fence)
    (hs : t.leaseEpoch = s.row.leaseEpoch →
      t.status = .discarded ∨ s.row.status = .waiting ∨ e = .answered s.row.leaseEpoch)
    (hn : ∀ k, e = .answered k → s.row.leaseEpoch = k) : s.Commits e (s.commit e t) where
  allows := hk ▸ ha
  log := rfl
  granted h := by simp [hk] at h
  holders := .inl ⟨rfl, rfl⟩
  lost h := by simp [h, Event.kind] at hk
  running h := by
    cases ha with
    | shut _ hl =>
      have hw : t.fence.live = true := OxTask.fence_live.mpr (.inl h)
      simp [hl] at hw
  kept h := by simp [hk] at h
  answers := hn
  settled _ := hs

private theorem commit_keeps {s : RowState} {e : Event} {t : OxTask} (hk : e.kind = .keep)
    (ha : Move.keep.Allows s.row.fence t.fence) (hr : s.row.status = .running)
    (hl : e = .lost → t.status = .lost) : s.Commits e (s.commit e t) where
  allows := hk ▸ ha
  log := rfl
  granted h := by simp [hk] at h
  holders := .inl ⟨rfl, rfl⟩
  lost h := ⟨hr, hl h⟩
  running _ := .inl hr
  kept _ := by
    have hl : s.row.fence.live = true := OxTask.fence_live.mpr (.inl hr)
    refine OxTask.fence_live.mp ?_
    change t.fence.live = true
    generalize t.fence = g at ha
    cases ha with
    | keep => exact hl
  answers k h := by simp [h, Event.kind] at hk
  settled h := by simp [hk] at h

private theorem handOut_commits {s : RowState} {t : OxTask}
    (ha : Move.grant.Allows s.row.fence t.fence) :
    s.Commits (.claimed t.leaseEpoch) (s.handOut t) where
  allows := ha
  log := rfl
  granted _ := rfl
  holders := .inr ⟨rfl, .inl ⟨rfl, rfl⟩⟩
  lost h := by cases h
  running _ := .inr rfl
  kept h := by cases h
  answers k h := by cases h
  settled h := by cases h

/-- Everything a step can do. -/
theorem step_cases {s s' : RowState} {a : RowAction} (h : s.step a = some s') :
    (∃ e, s.Commits e s') ∨ ∃ epoch, s.Reloads epoch s' := by
  cases a with
  | claimPostgresql w now leaseNow =>
    obtain ⟨t, ht, rfl⟩ := Option.map_eq_some_iff.mp h
    obtain ⟨hr, rfl⟩ := OxTask.claimOnePostgresql_eq_some.mp ht
    exact .inl ⟨_, handOut_commits (OxTask.claimFields_allows hr.1 rfl)⟩
  | claimSkipLocked w now leaseNow =>
    obtain ⟨t, ht, rfl⟩ := Option.map_eq_some_iff.mp h
    obtain ⟨hr, rfl⟩ := OxTask.claimOneSkipLocked_eq_some.mp ht
    exact .inl ⟨_, handOut_commits (OxTask.claimFields_allows hr.1 rfl)⟩
  | claimOptimistic w candidate now leaseNow =>
    obtain ⟨-, h⟩ := Option.ite_none_right_eq_some.mp h
    obtain ⟨t, ht, rfl⟩ := Option.map_eq_some_iff.mp h
    obtain ⟨⟨hs, -, he⟩, rfl⟩ := OxTask.claimOneOptimistic_eq_some.mp ht
    refine .inl ⟨.claimed (candidate.leaseEpoch + 1), ?_⟩
    exact ⟨OxTask.claimFields_allows hs he, rfl, fun _ => rfl, .inr ⟨rfl, .inr ⟨rfl, rfl⟩⟩, by simp,
      fun _ => .inr rfl, by simp [Event.kind], by simp, by simp [Event.kind]⟩
  | reloadClaimed epoch =>
    obtain ⟨hu, h⟩ := Option.ite_none_right_eq_some.mp h
    obtain rfl := Option.some.inj h
    refine .inr ⟨epoch, ⟨hu, rfl⟩, rfl, rfl, ?_⟩
    simp only [OxTask.reloadClaimed]
    split_ifs with he
    · exact .inr ⟨rfl, he⟩
    · exact .inl rfl
  | writeOutcome b held now ending =>
    obtain ⟨-, h⟩ := Option.ite_none_right_eq_some.mp h
    obtain ⟨t, ht, rfl⟩ := Option.map_eq_some_iff.mp h
    obtain ⟨⟨he, -⟩, rfl⟩ := OxTask.writeOutcome_eq_some.mp ht
    refine .inl ⟨_, commit_shuts (ending.kind_event _) (OxTask.setOutcome_allows b now ending he)
      (fun hse => .inr (.inr ?_)) fun k hk => ?_⟩
    · rw [he] at hse ⊢
      exact ending.event_of_same_epoch hse
    · cases ending <;> simp_all [AttemptEnd.event]
  | renewLease w leaseNow =>
    obtain ⟨t, ht, rfl⟩ := Option.map_eq_some_iff.mp h
    obtain ⟨hr, rfl⟩ := OxTask.renewLease_eq_some.mp ht
    exact .inl ⟨_, commit_keeps rfl (OxTask.renewed_allows w leaseNow hr.1) hr.1 (by simp)⟩
  | requeue cutoff leaseNow =>
    obtain ⟨t, ht, rfl⟩ := Option.map_eq_some_iff.mp h
    obtain ⟨-, rfl⟩ := OxTask.requeueAbandoned_eq_some.mp ht
    exact .inl ⟨_, commit_shuts rfl (OxTask.requeued_allows _) (by simp [OxTask.requeued])
      (by simp)⟩
  | abandon candidate cutoff leaseNow now =>
    obtain ⟨-, h⟩ := Option.ite_none_right_eq_some.mp h
    obtain ⟨t, ht, rfl⟩ := Option.map_eq_some_iff.mp h
    obtain ⟨hr, rfl⟩ := OxTask.abandonExhausted_eq_some.mp ht
    exact .inl ⟨_, commit_keeps rfl (OxTask.markLost_allows now candidate hr.2.1) hr.2.1
      fun _ => rfl⟩
  | retry seen =>
    obtain ⟨-, h⟩ := Option.ite_none_right_eq_some.mp h
    obtain ⟨t, ht, rfl⟩ := Option.map_eq_some_iff.mp h
    obtain ⟨hr, rfl⟩ := OxTask.retry_eq_some.mp ht
    exact .inl ⟨_, commit_shuts rfl (OxTask.retried_allows hr.2.2)
      (by simp [OxTask.retried, hr.2.2]) (by simp)⟩
  | retryMany =>
    obtain ⟨t, ht, rfl⟩ := Option.map_eq_some_iff.mp h
    obtain ⟨-, rfl⟩ := OxTask.retryMany_eq_some.mp ht
    exact .inl ⟨_, commit_shuts rfl (OxTask.retried_allows rfl) (by simp [OxTask.retried])
      (by simp)⟩
  | discard seen now =>
    obtain ⟨-, h⟩ := Option.ite_none_right_eq_some.mp h
    obtain ⟨t, ht, rfl⟩ := Option.map_eq_some_iff.mp h
    obtain ⟨-, rfl⟩ := OxTask.discard_eq_some.mp ht
    exact .inl ⟨_, commit_shuts rfl (OxTask.discarded_allows _ now) (fun _ => .inl rfl)
      (by simp)⟩
  | discardMany now =>
    obtain ⟨t, ht, rfl⟩ := Option.map_eq_some_iff.mp h
    obtain ⟨-, rfl⟩ := OxTask.discardMany_eq_some.mp ht
    exact .inl ⟨_, commit_shuts rfl (OxTask.discarded_allows _ now) (fun _ => .inl rfl)
      (by simp)⟩
  | expireLease now =>
    obtain ⟨t, ht, rfl⟩ := Option.map_eq_some_iff.mp h
    obtain ⟨hr, rfl⟩ := OxTask.expireLease_eq_some.mp ht
    exact .inl ⟨_, commit_keeps rfl (OxTask.expired_allows now hr.1) hr.1 (by simp)⟩
  | release epoch now =>
    obtain ⟨t, ht, rfl⟩ := Option.map_eq_some_iff.mp h
    obtain ⟨hr, rfl⟩ := OxTask.release_eq_some.mp ht
    exact .inl ⟨_, commit_shuts rfl (OxTask.released_allows _ now)
      (fun _ => .inr (.inl hr.1)) (by simp)⟩
  | cancelMany epoch now =>
    obtain ⟨t, ht, rfl⟩ := Option.map_eq_some_iff.mp h
    obtain ⟨-, rfl⟩ := OxTask.cancelMany_eq_some.mp ht
    exact .inl ⟨_, commit_shuts rfl (OxTask.discarded_allows _ now) (fun _ => .inl rfl)
      (by simp)⟩
  | reviveMany epoch =>
    obtain ⟨t, ht, rfl⟩ := Option.map_eq_some_iff.mp h
    obtain ⟨-, rfl⟩ := OxTask.reviveMany_eq_some.mp ht
    exact .inl ⟨_, commit_shuts rfl (OxTask.revived_allows _) (by simp [OxTask.revived])
      (by simp)⟩
  | releaseClaim w seen =>
    obtain ⟨-, h⟩ := Option.ite_none_right_eq_some.mp h
    obtain ⟨t, ht, rfl⟩ := Option.map_eq_some_iff.mp h
    obtain ⟨hr, rfl⟩ := OxTask.releaseClaim_eq_some.mp ht
    exact .inl ⟨_, commit_shuts rfl (OxTask.refunded_allows hr.2.2)
      (by simp [OxTask.refunded, hr.2.2]) (by simp)⟩

theorem reachable_step {s s' : RowState} {a : RowAction} (h : rowSystem.Reachable s)
    (hs : s.step a = some s') : rowSystem.Reachable s' :=
  h.step hs

theorem step_leaseEpoch_le {s s' : RowState} {a : RowAction} (h : s.step a = some s') :
    s.row.leaseEpoch ≤ s'.row.leaseEpoch := by
  rcases step_cases h with ⟨e, hc⟩ | ⟨epoch, hr⟩
  · exact hc.allows.token_le
  · rw [hr.row]

theorem step_spent {s s' : RowState} {a : RowAction} (h : s.step a = some s') {epoch : ℕ}
    (hs : Spent epoch s.row.fence) : Spent epoch s'.row.fence := by
  rcases step_cases h with ⟨e, hc⟩ | ⟨_, hr⟩
  · exact hs.move hc.allows
  · rwa [hr.row]

theorem step_held {s s' : RowState} {a : RowAction} (h : s.step a = some s') {t : OxTask}
    (ht : t ∈ s.held) : t ∈ s'.held := by
  rcases step_cases h with ⟨e, hc⟩ | ⟨_, hr⟩
  · rcases hc.holders with ⟨hh, -⟩ | ⟨-, ⟨hh, -⟩ | ⟨hh, -⟩⟩
    · rwa [hh]
    · rw [hh]
      exact List.mem_cons_of_mem _ ht
    · rwa [hh]
  · rcases hr.held with hh | ⟨hh, -⟩
    · rwa [hh]
    · rw [hh]
      exact List.mem_cons_of_mem _ ht

/-- Only a record of an execution enters the history as an answer. -/
theorem step_answered {s s' : RowState} {a : RowAction} (h : s.step a = some s') {epoch : ℕ}
    (he : .answered epoch ∈ s'.log) :
    .answered epoch ∈ s.log ∨
      ∃ b held now ending, a = .writeOutcome b held now ending ∧
        ending.event held.leaseEpoch = .answered epoch := by
  cases a with
  | writeOutcome b held now ending =>
    obtain ⟨-, h⟩ := Option.ite_none_right_eq_some.mp h
    obtain ⟨t, -, rfl⟩ := Option.map_eq_some_iff.mp h
    rcases List.mem_cons.mp he with he | he
    · exact .inr ⟨b, held, now, ending, rfl, he.symm⟩
    · exact .inl he
  | _ =>
    simp only [step, Option.ite_none_right_eq_some, Option.map_eq_some_iff] at h
    grind [commit, handOut]

/-- No write changes the attempts or their budget without moving the epoch on. -/
theorem step_before {s s' : RowState} {a : RowAction} (h : s.step a = some s') :
    s.row.Before s'.row := by
  cases a <;>
    simp only [step, Option.ite_none_right_eq_some, Option.map_eq_some_iff,
      OxTask.claimOnePostgresql_eq_some, OxTask.claimOneSkipLocked_eq_some,
      OxTask.claimOneOptimistic_eq_some, OxTask.renewLease_eq_some, OxTask.releaseClaim_eq_some,
      OxTask.writeOutcome_eq_some, OxTask.requeueAbandoned_eq_some,
      OxTask.abandonExhausted_eq_some, OxTask.retry_eq_some, OxTask.retryMany_eq_some,
      OxTask.expireLease_eq_some, OxTask.discard_eq_some, OxTask.discardMany_eq_some,
      OxTask.release_eq_some, OxTask.cancelMany_eq_some, OxTask.reviveMany_eq_some] at h <;>
    grind [commit, handOut, OxTask.Before, OxTask.claimFields, OxTask.renewed, OxTask.refunded,
      OxTask.setOutcome, OxTask.requeued, OxTask.markLost, OxTask.retried, OxTask.expired,
      OxTask.discarded, OxTask.released, OxTask.revived, OxTask.unlocked, outcomeOf_leaseEpoch]

/-- A step that changes the row keeps the version it replaced. -/
theorem step_seen {s s' : RowState} {a : RowAction} (h : s.step a = some s') {t : OxTask}
    (ht : s.Seen t) : s'.Seen t := by
  cases a <;>
    simp only [step, Option.ite_none_right_eq_some, Option.map_eq_some_iff] at h <;>
    grind [commit, handOut, Seen]

/-- A RUNNING row was RUNNING under the same lease before the step, or the step claimed it. -/
theorem step_running {s s' : RowState} {a : RowAction} (h : s.step a = some s')
    (hr : s'.row.status = .running) :
    s.row.status = .running ∧ s'.row.leaseEpoch = s.row.leaseEpoch ∧
        s'.row.lockedBy = s.row.lockedBy ∨
      a.claimant = s'.row.lockedBy ∧ a.claimant ≠ none ∧
        s'.row.leaseEpoch = s.row.leaseEpoch + 1 := by
  cases a with
  | writeOutcome b held now ending =>
    obtain ⟨-, h⟩ := Option.ite_none_right_eq_some.mp h
    obtain ⟨t, ht, rfl⟩ := Option.map_eq_some_iff.mp h
    obtain ⟨-, rfl⟩ := OxTask.writeOutcome_eq_some.mp ht
    exact absurd (Or.inl hr) (outcomeOf_not_writable b held now ending)
  | _ =>
    simp only [step, Option.ite_none_right_eq_some, Option.map_eq_some_iff,
      OxTask.claimOnePostgresql_eq_some, OxTask.claimOneSkipLocked_eq_some,
      OxTask.claimOneOptimistic_eq_some, OxTask.renewLease_eq_some, OxTask.releaseClaim_eq_some,
      OxTask.requeueAbandoned_eq_some, OxTask.abandonExhausted_eq_some, OxTask.retry_eq_some,
      OxTask.retryMany_eq_some, OxTask.expireLease_eq_some, OxTask.discard_eq_some,
      OxTask.discardMany_eq_some, OxTask.release_eq_some, OxTask.cancelMany_eq_some,
      OxTask.reviveMany_eq_some] at h
    grind [commit, handOut, OxTask.claimFields, OxTask.renewed, OxTask.refunded, OxTask.requeued,
      OxTask.markLost, OxTask.retried, OxTask.expired, OxTask.discarded, OxTask.released,
      OxTask.revived, RowAction.claimant]

/-- A claim leaves the row RUNNING, and its epoch among those granted. -/
theorem step_claimed {s s' : RowState} {a : RowAction} (h : s.step a = some s')
    (ha : a.claimant ≠ none) :
    s'.row.status = .running ∧ s'.row.lockedBy = a.claimant ∧
      s'.row.leaseEpoch = s.row.leaseEpoch + 1 ∧
      s'.log = .claimed s'.row.leaseEpoch :: s.log := by
  cases a <;> simp only [RowAction.claimant, ne_eq, reduceCtorEq, not_false_eq_true,
    not_true_eq_false] at ha <;>
  simp only [step, Option.ite_none_right_eq_some, Option.map_eq_some_iff,
    OxTask.claimOnePostgresql_eq_some, OxTask.claimOneSkipLocked_eq_some,
    OxTask.claimOneOptimistic_eq_some] at h <;>
  grind [commit, handOut, OxTask.claimFields, RowAction.claimant]

end RowState

end DjangoOx
