import DjangoOx.Task.History

/-! Lease fencing over whole runs: what the history of a row says about the epochs it granted and
about the writes that answered them. -/
namespace DjangoOx

open Machine Machine.Fencing

namespace RowState

/-- What happened after the latest claim. -/
def sinceClaim (log : List Event) : List Event :=
  log.takeWhile fun e => decide (e.kind ≠ .grant)

/-- The epochs granted to claims, latest first. -/
def grants (log : List Event) : List ℕ :=
  (log.filter fun e => e.kind = .grant).map Event.granted

/-- The history fits the row: the current fence is held by the latest claim, no two executions
share an epoch, a claim loses its lease at most once, a row that stopped at a granted epoch without
being discarded was answered there, and an answered epoch is spent. -/
structure Inv (s : RowState) : Prop where
  fits : Fits Event.kind Event.granted s.log s.row.fence
  holders : (s.held.map (·.leaseEpoch) ++ s.unread).Nodup
  granted : ∀ e ∈ s.held.map (·.leaseEpoch) ++ s.unread, e ∈ grants s.log
  running : s.row.status = .running → Event.lost ∉ sinceClaim s.log
  lost : (sinceClaim s.log).count .lost ≤ 1
  answered : s.row.leaseEpoch ∈ grants s.log → s.row.status ≠ .discarded →
    ¬ s.row.status.Writable → .answered s.row.leaseEpoch ∈ s.log
  spent : ∀ k, .answered k ∈ s.log → Spent k s.row.fence

theorem inv_of_fresh {s : RowState} (h : s.Fresh) : s.Inv := by
  obtain ⟨call, inherited, enqueuedAt, hrow, -, hu, hh, hl⟩ := h
  have hf : s.row.fence = ⟨0, false⟩ := by
    rcases hrow with hrow | hrow
    · simp [hrow, OxTask.fence, DjangoOx.row, Status.Writable]
    · simp [hrow, OxTask.fence, waitingRow, DjangoOx.row, Status.Writable]
  refine ⟨?_, by simp [hu, hh], by simp [hu, hh], by simp [hl, sinceClaim], by simp [hl, sinceClaim],
    by simp [hl, grants], by simp [hl]⟩
  rw [hl, hf]
  exact .nil 0

theorem grants_cons (e : Event) (log : List Event) :
    grants (e :: log) = if e.kind = .grant then e.granted :: grants log else grants log := by
  by_cases h : e.kind = .grant <;> simp [grants, h]

theorem sinceClaim_cons (e : Event) (log : List Event) :
    sinceClaim (e :: log) = if e.kind = .grant then [] else e :: sinceClaim log := by
  by_cases h : e.kind = .grant <;> simp [sinceClaim, h]

theorem Commits.holders_inv {s s' : RowState} {e : Event} (h : s.Commits e s') (hi : s.Inv) :
    (s'.held.map (·.leaseEpoch) ++ s'.unread).Nodup ∧
      ∀ e ∈ s'.held.map (·.leaseEpoch) ++ s'.unread, e ∈ grants s'.log := by
  have hold : ∀ x ∈ s.held.map (·.leaseEpoch) ++ s.unread, x ∈ grants s'.log := by
    intro x hx
    rw [h.log, grants_cons]
    split_ifs
    · exact List.mem_cons_of_mem _ (hi.granted x hx)
    · exact hi.granted x hx
  rcases h.holders with ⟨hh, hu⟩ | ⟨hk, hnew⟩
  · rw [hh, hu]
    exact ⟨hi.holders, hold⟩
  · have hg : s'.row.leaseEpoch ∈ grants s'.log := by
      rw [h.log, grants_cons, if_pos hk, ← h.granted hk]
      exact List.mem_cons_self
    have hfresh : s'.row.leaseEpoch ∉ s.held.map (·.leaseEpoch) ++ s.unread := by
      intro hx
      have hnd := (hi.fits.cons h.allows h.granted).nodup
      change (grants (e :: s.log)).Nodup at hnd
      rw [grants_cons, if_pos hk, h.granted hk] at hnd
      exact (List.nodup_cons.mp hnd).1 (hi.granted _ hx)
    rcases hnew with ⟨hh, hu⟩ | ⟨hh, hu⟩
    · rw [hh, hu]
      exact ⟨List.nodup_cons.mpr ⟨hfresh, hi.holders⟩, List.forall_mem_cons.mpr ⟨hg, hold⟩⟩
    · rw [hh, hu]
      have hperm : (s.held.map (·.leaseEpoch) ++ s'.row.leaseEpoch :: s.unread).Perm
          (s'.row.leaseEpoch :: (s.held.map (·.leaseEpoch) ++ s.unread)) := List.perm_middle
      refine ⟨hperm.nodup_iff.mpr (List.nodup_cons.mpr ⟨hfresh, hi.holders⟩), ?_⟩
      intro x hx
      rcases List.mem_cons.mp (hperm.mem_iff.mp hx) with rfl | hx
      · exact hg
      · exact hold x hx

theorem Commits.answered_inv {s s' : RowState} {e : Event} (h : s.Commits e s') (hi : s.Inv)
    (hg : s'.row.leaseEpoch ∈ grants s'.log) (hd : s'.row.status ≠ .discarded)
    (hw : ¬ s'.row.status.Writable) : .answered s'.row.leaseEpoch ∈ s'.log := by
  have hlive : s'.row.fence.live ≠ true := mt OxTask.fence_live.mp hw
  rw [h.log, grants_cons] at hg
  rw [h.log]
  cases hk : e.kind with
  | grant =>
    have ha := h.allows
    rw [hk] at ha
    generalize s.row.fence = f, s'.row.fence = f' at ha hlive
    cases ha with
    | grant => exact absurd rfl hlive
  | keep => exact absurd (h.kept hk) hw
  | shut =>
    rw [if_neg (by simp [hk])] at hg
    have hle : s.row.leaseEpoch ≤ s'.row.leaseEpoch := h.allows.token_le
    have hgle : s'.row.leaseEpoch ≤ s.row.leaseEpoch := by
      obtain ⟨x, hx, hxe⟩ := List.mem_map.mp hg
      obtain ⟨hx, hxk⟩ := List.mem_filter.mp hx
      exact hxe ▸ hi.fits.le x hx (by simpa using hxk)
    have heq : s'.row.leaseEpoch = s.row.leaseEpoch := le_antisymm hgle hle
    rw [heq] at hg ⊢
    rcases h.settled hk heq with hdis | hwait | rfl
    · exact absurd hdis hd
    · have := hi.answered hg (by simp [hwait]) (by simp [hwait, Status.Writable])
      exact List.mem_cons_of_mem _ this
    · exact List.mem_cons_self

theorem Commits.inv {s s' : RowState} {e : Event} (h : s.Commits e s') (hi : s.Inv) : s'.Inv := by
  have hh := h.holders_inv hi
  have hfits : Fits Event.kind Event.granted s'.log s'.row.fence := by
    rw [h.log]
    exact hi.fits.cons h.allows h.granted
  refine ⟨hfits, hh.1, hh.2, ?_, ?_, h.answered_inv hi, ?_⟩
  · intro hr
    rw [h.log, sinceClaim_cons]
    split_ifs with hk
    · exact List.not_mem_nil
    · have hrun := (h.running hr).resolve_right hk
      intro hmem
      rcases List.mem_cons.mp hmem with rfl | hmem
      · simp [(h.lost rfl).2] at hr
      · exact hi.running hrun hmem
  · rw [h.log, sinceClaim_cons]
    split_ifs with hk
    · simp
    · by_cases he : e = .lost
      · subst he
        have hz := List.count_eq_zero_of_not_mem (hi.running (h.lost rfl).1)
        simp [hz]
      · rw [List.count_cons_of_ne (by simpa using he)]
        exact hi.lost
  · intro k hk
    rw [h.log] at hk
    rcases List.mem_cons.mp hk with rfl | hk
    · have ha := h.allows
      rw [← h.answers k rfl]
      exact ha.shut_spent
    · exact (hi.spent k hk).move h.allows

theorem Reloads.inv {s s' : RowState} {epoch : ℕ} (h : s.Reloads epoch s') (hi : s.Inv) :
    s'.Inv := by
  have hperm : (epoch :: (s.held.map (·.leaseEpoch) ++ s.unread.erase epoch)).Perm
      (s.held.map (·.leaseEpoch) ++ s.unread) :=
    List.perm_middle.symm.trans ((List.perm_cons_erase h.unread.1).symm.append_left _)
  have hnd := hperm.nodup_iff.mpr hi.holders
  have hsub : (s'.held.map (·.leaseEpoch) ++ s'.unread).Nodup ∧
      ∀ e ∈ s'.held.map (·.leaseEpoch) ++ s'.unread, e ∈ grants s'.log := by
    rw [h.log, h.unread.2]
    rcases h.held with hh | ⟨hh, he⟩
    · rw [hh]
      exact ⟨(List.nodup_cons.mp hnd).2,
        fun e hm => hi.granted e (hperm.mem_iff.mp (List.mem_cons_of_mem _ hm))⟩
    · rw [hh, List.map_cons, he, List.cons_append]
      exact ⟨hnd, fun e hm => hi.granted e (hperm.mem_iff.mp hm)⟩
  refine ⟨?_, hsub.1, hsub.2, ?_, ?_, ?_, ?_⟩
  · rw [h.log, h.row]
    exact hi.fits
  · rw [h.log, h.row]
    exact hi.running
  · rw [h.log]
    exact hi.lost
  · rw [h.log, h.row]
    exact hi.answered
  · rw [h.log, h.row]
    exact hi.spent

theorem step_inv {s s' : RowState} {a : RowAction} (hi : s.Inv) (h : s.step a = some s') :
    s'.Inv := by
  rcases step_cases h with ⟨e, hc⟩ | ⟨epoch, hr⟩
  · exact hc.inv hi
  · exact hr.inv hi

theorem reachable_inv {s : RowState} (h : rowSystem.Reachable s) : s.Inv :=
  h.invariant Inv (fun _ hs => inv_of_fresh hs) fun _ _ _ hi hs => step_inv hi hs

theorem Inv.grants_le {s : RowState} (hi : s.Inv) {e : ℕ} (he : e ∈ grants s.log) :
    e ≤ s.row.leaseEpoch := by
  obtain ⟨x, hx, rfl⟩ := List.mem_map.mp he
  obtain ⟨hx, hk⟩ := List.mem_filter.mp hx
  exact hi.fits.le x hx (by simpa using hk)

/-- No step takes a granted epoch out of the history. -/
theorem step_grants {s s' : RowState} {a : RowAction} (h : s.step a = some s') {e : ℕ}
    (he : e ∈ grants s.log) : e ∈ grants s'.log := by
  rcases step_cases h with ⟨x, hc⟩ | ⟨_, hr⟩
  · rw [hc.log, grants_cons]
    split_ifs
    · exact List.mem_cons_of_mem _ he
    · exact he
  · rwa [hr.log]

theorem sinceClaim_append {since before : List Event} {g : Event}
    (hs : ∀ x ∈ since, x.kind = .keep) (hg : g.kind = .grant) :
    sinceClaim (since ++ g :: before) = since := by
  induction since with
  | nil => simp [sinceClaim, hg]
  | cons x since ih =>
    obtain ⟨hx, hs⟩ := List.forall_mem_cons.mp hs
    rw [List.cons_append, sinceClaim_cons, if_neg (by simp [hx]), ih hs]

/-- The log of a row whose fence is live: its latest claim, then renewals, expiries and at most
one LOST. -/
theorem Inv.held {s : RowState} (hi : s.Inv) (hl : s.row.status.Writable) :
    ∃ since before, s.log = since ++ .claimed s.row.leaseEpoch :: before ∧
      (∀ x ∈ since, x = .renewed ∨ x = .expired ∨ x = .lost) ∧ since.count .lost ≤ 1 := by
  obtain ⟨since, g, before, hlog, hs, hg, he, -⟩ := hi.fits.held (OxTask.fence_live.mpr hl)
  have hgc : g = .claimed s.row.leaseEpoch := by
    have := Event.kind_eq_grant.mp hg
    rwa [he] at this
  refine ⟨since, before, hgc ▸ hlog, fun x hx => Event.kind_eq_keep.mp (hs x hx), ?_⟩
  have hc := hi.lost
  rwa [hlog, sinceClaim_append hs hg] at hc

end RowState

/-- Over any run, the epoch never goes down, no two claims and no two executions share one, and
an outcome write that changes the row is the latest claim's: since that claim the row has only
been renewed, expired, or lost once. -/
theorem lease_fencing {s s' : RowState} {a : RowAction} (hs : rowSystem.Reachable s)
    (h : rowSystem.step s a = some s') :
    s.row.leaseEpoch ≤ s'.row.leaseEpoch ∧ (RowState.grants s'.log).Nodup ∧
      (s'.held.map (·.leaseEpoch)).Nodup ∧
      ∀ b held now ending, a = .writeOutcome b held now ending →
        held ∈ s.held ∧ s'.row = s.row.setOutcome (outcomeOf b held now ending) ∧
        ∃ since before, s.log = since ++ .claimed held.leaseEpoch :: before ∧
          (∀ x ∈ since, x = .renewed ∨ x = .expired ∨ x = .lost) ∧ since.count .lost ≤ 1 := by
  have hi := RowState.reachable_inv hs
  have hi' := RowState.step_inv hi h
  refine ⟨RowState.step_leaseEpoch_le h, hi'.fits.nodup, (List.nodup_append.mp hi'.holders).1, ?_⟩
  rintro b held now ending rfl
  obtain ⟨hmem, h⟩ := Option.ite_none_right_eq_some.mp h
  obtain ⟨t, ht, rfl⟩ := Option.map_eq_some_iff.mp h
  obtain ⟨⟨he, hw⟩, rfl⟩ := OxTask.writeOutcome_eq_some.mp ht
  refine ⟨hmem, rfl, ?_⟩
  rw [← he]
  exact hi.held hw

/-- A worker with no queue restriction and no filter, named for concrete runs. -/
def soloWorker (name : String) : Worker := ⟨name, [], 10, fun _ => true⟩

/-- The state of a row just enqueued. -/
def enqueuedState (maxAttempts : ℕ) : RowState :=
  ⟨row ⟨"app.tasks.send", "default", 0, none, none⟩ maxAttempts 0, [], [], [], []⟩

theorem enqueuedState_fresh (maxAttempts : ℕ) : (enqueuedState maxAttempts).Fresh :=
  ⟨_, _, _, .inl rfl, rfl, rfl, rfl, rfl⟩

/-- The instance the first claim of `enqueuedState` hands out. -/
def firstHeld (maxAttempts : ℕ) : OxTask :=
  (enqueuedState maxAttempts).row.claimFields (soloWorker "w1") 5 (enqueuedState maxAttempts).row

/-- A straggler: claimed, renewed, marked LOST by the reaper, and answered by its holder. -/
theorem lease_fencing_straggler :
    ∃ s s', rowSystem.run (enqueuedState 1)
        [.claimPostgresql (soloWorker "w1") 5 5, .renewLease (soloWorker "w1") 9,
          .abandon (firstHeld 1) 90 100 100] = some s ∧
      rowSystem.step s (.writeOutcome ⟨1, 8⟩ (firstHeld 1) 101 (.returned (some "4"))) = some s' ∧
      s.log = [.lost, .renewed, .claimed 1] ∧ s'.row.status = .successful ∧
      ∃ since before, s.log = since ++ .claimed 1 :: before ∧
        (∀ x ∈ since, x = .renewed ∨ x = .expired ∨ x = .lost) ∧ since.count .lost ≤ 1 := by
  have fenced : ∀ s s', rowSystem.run (enqueuedState 1)
        [.claimPostgresql (soloWorker "w1") 5 5, .renewLease (soloWorker "w1") 9,
          .abandon (firstHeld 1) 90 100 100] = some s →
      rowSystem.step s (.writeOutcome ⟨1, 8⟩ (firstHeld 1) 101 (.returned (some "4"))) = some s' →
      ∃ since before, s.log = since ++ .claimed (firstHeld 1).leaseEpoch :: before ∧
        (∀ x ∈ since, x = .renewed ∨ x = .expired ∨ x = .lost) ∧ since.count .lost ≤ 1 :=
    fun _ _ hr hs =>
      ((lease_fencing (.of_run (enqueuedState_fresh 1) hr) hs).2.2.2 _ _ _ _ rfl).2.2
  exact ⟨_, _, rfl, rfl, rfl, rfl, fenced _ _ rfl rfl⟩

end DjangoOx
