import DjangoOx.Task.Shape

/-! The attempt budget: claims spend it, and every way back to READY leaves some of it. -/
namespace DjangoOx

open Machine

namespace OxTask

/-- The attempts fit their budget and the budget its column; a row that may be claimed, now or once
it is released, has an attempt left. -/
structure Budgeted (t : OxTask) : Prop where
  spent : t.attempts ≤ t.maxAttempts
  fits : t.maxAttempts ≤ maxAttemptsLimit
  granted : 1 ≤ t.maxAttempts
  left : t.status = .ready ∨ t.status = .waiting → t.attempts < t.maxAttempts

variable {t c held : OxTask} {w : Worker}

/-- A write that leaves the counts. -/
theorem Budgeted.of_counts (h : c.Budgeted) (ha : t.attempts = c.attempts)
    (hm : t.maxAttempts = c.maxAttempts)
    (hleft : t.status = .ready ∨ t.status = .waiting → c.attempts < c.maxAttempts) :
    t.Budgeted where
  spent := by
    rw [ha, hm]
    exact h.spent
  fits := hm ▸ h.fits
  granted := hm ▸ h.granted
  left hs := by
    rw [ha, hm]
    exact hleft hs

/-- A claim finds an attempt left, and takes it. -/
theorem Budgeted.claimFields (h : t.Budgeted) (hr : t.status = .ready)
    (hc : t.attempts = c.attempts) (leaseNow : ℤ) : (t.claimFields w leaseNow c).Budgeted where
  spent := by
    have hlt : t.attempts < t.maxAttempts := h.left (.inl hr)
    change c.attempts + 1 ≤ t.maxAttempts
    omega
  fits := h.fits
  granted := h.granted
  left hs := by simp [OxTask.claimFields] at hs

/-- The refund gives one attempt back. -/
theorem Budgeted.refunded (h : t.Budgeted) (hh : t.attempts = held.attempts) :
    (t.refunded held).Budgeted := by
  have hspent := h.spent
  have hgranted := h.granted
  constructor
  · change held.attempts - 1 ≤ t.maxAttempts
    omega
  · exact h.fits
  · exact h.granted
  · intro _
    change held.attempts - 1 < t.maxAttempts
    omega

/-- A retry grants one attempt more than those spent. -/
theorem Budgeted.retried {seen : OxTask} (hs : t.attempts = seen.attempts)
    (hfits : t.attempts < maxAttemptsLimit) : (t.retried seen).Budgeted := by
  constructor
  · change t.attempts ≤ seen.attempts + 1
    omega
  · change seen.attempts + 1 ≤ maxAttemptsLimit
    omega
  · change 1 ≤ seen.attempts + 1
    omega
  · intro _
    change t.attempts < seen.attempts + 1
    omega

/-- An outcome puts the row back to READY, not to WAITING, and only with an attempt left. -/
theorem Budgeted.setOutcome {b : Backoff} {now : ℤ} {ending : AttemptEnd} (h : t.Budgeted)
    (hh : t.attempts = held.attempts) (hm : t.maxAttempts = held.maxAttempts) :
    (t.setOutcome (outcomeOf b held now ending)).Budgeted := by
  refine h.of_counts rfl rfl fun hs => ?_
  rcases hs with hs | hs
  · have hleft := outcomeOf_ready hs
    omega
  · exact absurd hs (outcomeOf_not_waiting b held now ending)

end OxTask

/-- No revival takes a row whose attempts are spent. -/
def RowState.RevivesUnspent (s : RowState) : RowAction → Prop
  | .reviveMany _ => s.row.attempts < s.row.maxAttempts
  | _ => True

instance (s : RowState) (a : RowAction) : Decidable (s.RevivesUnspent a) :=
  match a with
  | .reviveMany _ => inferInstanceAs (Decidable (s.row.attempts < s.row.maxAttempts))
  | .claimPostgresql .. | .claimSkipLocked .. | .claimOptimistic .. | .reloadClaimed _
  | .writeOutcome .. | .renewLease .. | .requeue .. | .abandon .. | .retry _ | .retryMany
  | .discard .. | .discardMany _ | .expireLease _ | .release .. | .cancelMany ..
  | .releaseClaim .. => isTrue trivial

/-- The rows enqueued with a budget from 1 to what its column holds. -/
def budgetSystem : System RowState RowAction where
  init s := s.Fresh ∧ 1 ≤ s.row.maxAttempts ∧ s.row.maxAttempts ≤ maxAttemptsLimit
  step := RowState.step

namespace RowState

variable {s s' : RowState} {a : RowAction}

structure BudgetInv (s : RowState) : Prop where
  versions : ∀ t, s.Seen t ∨ t ∈ s.held → t.Before s.row
  row : s.row.Budgeted

theorem budget_of_fresh (h : s.Fresh) (h1 : 1 ≤ s.row.maxAttempts)
    (hmax : s.row.maxAttempts ≤ maxAttemptsLimit) : s.BudgetInv := by
  refine ⟨h.aged.versions, ?_⟩
  have hzero : s.row.attempts = 0 := by
    obtain ⟨call, inherited, now, hrow, -⟩ := h
    rcases hrow with hrow | hrow <;> simp [hrow, DjangoOx.row, waitingRow]
  constructor
  · omega
  · exact hmax
  · exact h1
  · intro _
    omega

/-- Two versions of one epoch have the same counts. -/
theorem BudgetInv.counts {t : OxTask} (hi : s.BudgetInv) (ht : s.Seen t ∨ t ∈ s.held)
    (he : s.row.leaseEpoch = t.leaseEpoch) :
    s.row.attempts = t.attempts ∧ s.row.maxAttempts = t.maxAttempts :=
  (hi.versions t ht).2 he.symm

theorem step_budgeted (hi : s.BudgetInv) (ha : s.RevivesUnspent a) (h : s.step a = some s') :
    s'.row.Budgeted := by
  have hrow := hi.row
  cases a with
  | claimPostgresql w now leaseNow =>
    obtain ⟨t, ht, rfl⟩ := Option.map_eq_some_iff.mp h
    obtain ⟨hr, rfl⟩ := OxTask.claimOnePostgresql_eq_some.mp ht
    exact hrow.claimFields hr.1 rfl leaseNow
  | claimSkipLocked w now leaseNow =>
    obtain ⟨t, ht, rfl⟩ := Option.map_eq_some_iff.mp h
    obtain ⟨hr, rfl⟩ := OxTask.claimOneSkipLocked_eq_some.mp ht
    exact hrow.claimFields hr.1 rfl leaseNow
  | claimOptimistic w candidate now leaseNow =>
    obtain ⟨-, h⟩ := Option.ite_none_right_eq_some.mp h
    obtain ⟨t, ht, rfl⟩ := Option.map_eq_some_iff.mp h
    obtain ⟨hr, rfl⟩ := OxTask.claimOneOptimistic_eq_some.mp ht
    exact hrow.claimFields hr.1 hr.2.1 leaseNow
  | reloadClaimed epoch =>
    obtain ⟨-, h⟩ := Option.ite_none_right_eq_some.mp h
    obtain rfl := Option.some.inj h
    exact hrow
  | writeOutcome b held now ending =>
    obtain ⟨hheld, h⟩ := Option.ite_none_right_eq_some.mp h
    obtain ⟨t, ht, rfl⟩ := Option.map_eq_some_iff.mp h
    obtain ⟨⟨he, -⟩, rfl⟩ := OxTask.writeOutcome_eq_some.mp ht
    obtain ⟨hat, hmax⟩ := hi.counts (.inr hheld) he
    exact hrow.setOutcome hat hmax
  | renewLease w leaseNow =>
    obtain ⟨t, ht, rfl⟩ := Option.map_eq_some_iff.mp h
    obtain ⟨-, rfl⟩ := OxTask.renewLease_eq_some.mp ht
    exact hrow.of_counts rfl rfl hrow.left
  | requeue cutoff leaseNow =>
    obtain ⟨t, ht, rfl⟩ := Option.map_eq_some_iff.mp h
    obtain ⟨⟨-, hleft⟩, rfl⟩ := OxTask.requeueAbandoned_eq_some.mp ht
    exact hrow.of_counts rfl rfl fun _ => hleft
  | abandon candidate cutoff leaseNow now =>
    obtain ⟨-, h⟩ := Option.ite_none_right_eq_some.mp h
    obtain ⟨t, ht, rfl⟩ := Option.map_eq_some_iff.mp h
    obtain ⟨-, rfl⟩ := OxTask.abandonExhausted_eq_some.mp ht
    exact hrow.of_counts rfl rfl fun hs => by simp [commit, OxTask.markLost] at hs
  | retry seen =>
    obtain ⟨⟨hseen, -⟩, h⟩ := Option.ite_none_right_eq_some.mp h
    obtain ⟨t, ht, rfl⟩ := Option.map_eq_some_iff.mp h
    obtain ⟨⟨hfits, -, he⟩, rfl⟩ := OxTask.retry_eq_some.mp ht
    exact .retried (hi.counts (.inl hseen) he).1 hfits
  | retryMany =>
    obtain ⟨t, ht, rfl⟩ := Option.map_eq_some_iff.mp h
    obtain ⟨⟨hfits, -⟩, rfl⟩ := OxTask.retryMany_eq_some.mp ht
    exact .retried rfl hfits
  | discard seen now =>
    obtain ⟨-, h⟩ := Option.ite_none_right_eq_some.mp h
    obtain ⟨t, ht, rfl⟩ := Option.map_eq_some_iff.mp h
    obtain ⟨-, rfl⟩ := OxTask.discard_eq_some.mp ht
    exact hrow.of_counts rfl rfl fun hs => by simp [commit, OxTask.discarded] at hs
  | discardMany now =>
    obtain ⟨t, ht, rfl⟩ := Option.map_eq_some_iff.mp h
    obtain ⟨-, rfl⟩ := OxTask.discardMany_eq_some.mp ht
    exact hrow.of_counts rfl rfl fun hs => by simp [commit, OxTask.discarded] at hs
  | expireLease now =>
    obtain ⟨t, ht, rfl⟩ := Option.map_eq_some_iff.mp h
    obtain ⟨-, rfl⟩ := OxTask.expireLease_eq_some.mp ht
    exact hrow.of_counts rfl rfl hrow.left
  | release epoch now =>
    obtain ⟨t, ht, rfl⟩ := Option.map_eq_some_iff.mp h
    obtain ⟨⟨hw, -⟩, rfl⟩ := OxTask.release_eq_some.mp ht
    exact hrow.of_counts rfl rfl fun _ => hrow.left (.inr hw)
  | cancelMany epoch now =>
    obtain ⟨t, ht, rfl⟩ := Option.map_eq_some_iff.mp h
    obtain ⟨-, rfl⟩ := OxTask.cancelMany_eq_some.mp ht
    exact hrow.of_counts rfl rfl fun hs => by simp [commit, OxTask.discarded] at hs
  | reviveMany epoch =>
    obtain ⟨t, ht, rfl⟩ := Option.map_eq_some_iff.mp h
    obtain ⟨-, rfl⟩ := OxTask.reviveMany_eq_some.mp ht
    exact hrow.of_counts rfl rfl fun _ => ha
  | releaseClaim w seen =>
    obtain ⟨⟨hseen, -⟩, h⟩ := Option.ite_none_right_eq_some.mp h
    obtain ⟨t, ht, rfl⟩ := Option.map_eq_some_iff.mp h
    obtain ⟨⟨-, -, he⟩, rfl⟩ := OxTask.releaseClaim_eq_some.mp ht
    exact hrow.refunded (hi.counts (.inl hseen) he).1

theorem step_budget (hi : s.BudgetInv) (ha : s.RevivesUnspent a) (h : s.step a = some s') :
    s'.BudgetInv :=
  ⟨fun _ ht => step_before_row hi.versions h ht, step_budgeted hi ha h⟩

end RowState

/-- The attempts of a row never pass its budget, and the budget never its column; a READY row has an
attempt left for its next claim. -/
theorem attempts_within_budget {s : RowState} (h : budgetSystem.ReachesBy RowState.RevivesUnspent s) :
    s.row.attempts ≤ s.row.maxAttempts ∧ s.row.maxAttempts ≤ 32767 ∧
      (s.row.status = .ready → s.row.attempts < s.row.maxAttempts) := by
  have hi : s.BudgetInv := h.invariant RowState.BudgetInv
    (fun _ hs => by
      obtain ⟨hfresh, hone, hmax⟩ := hs
      exact RowState.budget_of_fresh hfresh hone hmax)
    fun _ _ _ hi ha hs => RowState.step_budget hi ha hs
  exact ⟨hi.row.spent, hi.row.fits, fun hr => hi.row.left (.inl hr)⟩

/-- A failure retried by an operator: the budget moves with the attempts. -/
theorem attempts_within_budget_retried :
    ∃ s, budgetSystem.run (enqueuedState 1)
        [.claimPostgresql (soloWorker "w1") 5 5,
          .writeOutcome ⟨1, 8⟩ (firstHeld 1) 6 (.raised ⟨"E", ""⟩ none), .retryMany,
          .claimPostgresql (soloWorker "w2") 7 7] = some s ∧
      s.row.attempts = 2 ∧ s.row.attempts ≤ s.row.maxAttempts := by
  have within : ∀ s, (budgetSystem.only RowState.RevivesUnspent).run (enqueuedState 1)
        [.claimPostgresql (soloWorker "w1") 5 5,
          .writeOutcome ⟨1, 8⟩ (firstHeld 1) 6 (.raised ⟨"E", ""⟩ none), .retryMany,
          .claimPostgresql (soloWorker "w2") 7 7] = some s →
      s.row.attempts ≤ s.row.maxAttempts := by
    intro s hs
    have hstart : budgetSystem.init (enqueuedState 1) :=
      ⟨enqueuedState_fresh 1, by decide, by decide⟩
    exact (attempts_within_budget (.of_run hstart hs)).1
  exact ⟨_, rfl, rfl, within _ rfl⟩

/-- A failure that spent the budget, discarded, revived and released, is READY with no attempt left,
and is claimed. -/
theorem attempts_past_budget :
    ∃ s s', budgetSystem.init (enqueuedState 1) ∧
      budgetSystem.run (enqueuedState 1)
        [.claimPostgresql (soloWorker "w1") 5 5,
          .writeOutcome ⟨1, 8⟩ (firstHeld 1) 6 (.raised ⟨"E", ""⟩ none), .discardMany 7,
          .reviveMany 1, .release 2 8] = some s ∧
      ¬ (s.row.status = .ready → s.row.attempts < s.row.maxAttempts) ∧
      budgetSystem.step s (.claimPostgresql (soloWorker "w2") 9 9) = some s' ∧
      ¬ s'.row.attempts ≤ s'.row.maxAttempts :=
  ⟨_, _, ⟨enqueuedState_fresh 1, by decide, by decide⟩, rfl, by decide, rfl, by decide⟩

end DjangoOx
