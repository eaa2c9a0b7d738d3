import DjangoOx.Machine.Fencing
import DjangoOx.Task.Claim
import DjangoOx.Task.Outcome
import DjangoOx.Task.Reaper
import DjangoOx.Task.Actions

/-! Every write on a row, read as a move of its lease: the epoch is the fencing token, and the
holder may answer while the status is writable. -/
namespace DjangoOx

open Machine.Fencing

namespace OxTask

def fence (t : OxTask) : Fence := ⟨t.leaseEpoch, decide t.status.Writable⟩

@[simp] theorem fence_token (t : OxTask) : t.fence.token = t.leaseEpoch := rfl

theorem fence_live {t : OxTask} : t.fence.live = true ↔ t.status.Writable := by
  simp [fence]

/-- A row taken out of the writable statuses at the same epoch or a later one is shut. -/
private theorem allows_shut {t t' : OxTask} (he : t.leaseEpoch ≤ t'.leaseEpoch)
    (hs : ¬ t'.status.Writable) : Move.shut.Allows t.fence t'.fence :=
  .shut he (by simpa [fence] using hs)

private theorem allows_keep {t t' : OxTask} (he : t'.leaseEpoch = t.leaseEpoch)
    (hs : t.status.Writable) (hs' : t'.status.Writable) : Move.keep.Allows t.fence t'.fence := by
  have : t'.fence = t.fence := by simp [fence, he, hs, hs']
  rw [this]
  exact .keep _

private theorem allows_grant {t t' : OxTask} (hs : t.status = .ready)
    (he : t'.leaseEpoch = t.leaseEpoch + 1) (hs' : t'.status = .running) :
    Move.grant.Allows t.fence t'.fence := by
  have h : t.fence = ⟨t.leaseEpoch, false⟩ := by simp [fence, hs, Status.Writable]
  have h' : t'.fence = ⟨t.leaseEpoch + 1, true⟩ := by simp [fence, hs', he, Status.Writable]
  rw [h, h']
  exact .grant _

theorem claimFields_allows {t c : OxTask} {w : Worker} {leaseNow : ℤ}
    (hs : t.status = .ready) (he : t.leaseEpoch = c.leaseEpoch) :
    Move.grant.Allows t.fence (t.claimFields w leaseNow c).fence :=
  allows_grant hs (by simp [claimFields, he]) rfl

theorem renewed_allows {t : OxTask} (w : Worker) (leaseNow : ℤ) (hr : t.status = .running) :
    Move.keep.Allows t.fence (t.renewed w leaseNow).fence :=
  allows_keep rfl (.inl hr) (.inl hr)

theorem expired_allows {t : OxTask} (now : ℤ) (hr : t.status = .running) :
    Move.keep.Allows t.fence (t.expired now).fence :=
  allows_keep rfl (.inl hr) (.inl hr)

theorem markLost_allows {t : OxTask} (now : ℤ) (c : OxTask) (hr : t.status = .running) :
    Move.keep.Allows t.fence (t.markLost now c).fence :=
  allows_keep rfl (.inl hr) (.inr rfl)

theorem requeued_allows (t : OxTask) : Move.shut.Allows t.fence t.requeued.fence :=
  allows_shut (Nat.le_succ _) (by simp [requeued, Status.Writable])

theorem refunded_allows {t held : OxTask} (he : t.leaseEpoch = held.leaseEpoch) :
    Move.shut.Allows t.fence (t.refunded held).fence :=
  allows_shut (he.le.trans (Nat.le_succ _)) (by simp [refunded, Status.Writable])

theorem retried_allows {t seen : OxTask} (he : t.leaseEpoch = seen.leaseEpoch) :
    Move.shut.Allows t.fence (t.retried seen).fence :=
  allows_shut (he.le.trans (Nat.le_succ _)) (by simp [retried, Status.Writable])

theorem discarded_allows (t : OxTask) (now : ℤ) :
    Move.shut.Allows t.fence (t.discarded now).fence :=
  allows_shut le_rfl (by simp [discarded, Status.Writable])

theorem released_allows (t : OxTask) (now : ℤ) :
    Move.shut.Allows t.fence (t.released now).fence :=
  allows_shut le_rfl (by simp [released, Status.Writable])

theorem revived_allows (t : OxTask) : Move.shut.Allows t.fence t.revived.fence :=
  allows_shut (Nat.le_succ _) (by simp [revived, Status.Writable])

theorem setOutcome_allows {t held : OxTask} (b : Backoff) (now : ℤ) (a : AttemptEnd)
    (he : t.leaseEpoch = held.leaseEpoch) :
    Move.shut.Allows t.fence (t.setOutcome (outcomeOf b held now a)).fence := by
  refine allows_shut ?_ (outcomeOf_not_writable b held now a)
  rcases outcomeOf_leaseEpoch b held now a with h | h
  · simp [setOutcome, h]
  · simp [setOutcome, h, he]

/-- `t` is the version `c` or a later one: within one epoch the attempts and their budget stay. -/
def Before (c t : OxTask) : Prop :=
  c.leaseEpoch ≤ t.leaseEpoch ∧
    (c.leaseEpoch = t.leaseEpoch → t.attempts = c.attempts ∧ t.maxAttempts = c.maxAttempts)

theorem Before.refl (t : OxTask) : t.Before t :=
  ⟨le_rfl, fun _ => ⟨rfl, rfl⟩⟩

theorem Before.trans {c t u : OxTask} (h : c.Before t) (h' : t.Before u) : c.Before u := by
  refine ⟨h.1.trans h'.1, fun he => ?_⟩
  have h₁ : c.leaseEpoch = t.leaseEpoch := le_antisymm h.1 (he ▸ h'.1)
  have h₂ := h'.2 (h₁.symm.trans he)
  have h₃ := h.2 h₁
  exact ⟨h₂.1.trans h₃.1, h₂.2.trans h₃.2⟩

end OxTask

end DjangoOx
