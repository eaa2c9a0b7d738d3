import DjangoOx.Limits.Running

/-! The ceiling of a concurrency limit: each worker claims at most once on a count. -/
namespace DjangoOx

open Machine Machine.Members

namespace RunningState

variable {W : ℕ} {limits : Fin W → List ConcurrencyLimit} {call : TaskId → LimitedCall}
  {L : ConcurrencyLimit} {s s' : RunningState W} {w : Fin W} {t : TaskId} {c : Claimer}

/-- The worker may still take a row the limit covers, on what it has counted. -/
def Permitted (call : TaskId → LimitedCall) (L : ConcurrencyLimit) (s : RunningState W)
    (c : Claimer) : Prop :=
  L ∉ c.blocked ∧ (∀ u ∈ c.owed, ¬ L.Covers (call u)) ∧
    match c.phase with
    | .idle => c.stale = false
    | .counting => False
    | .ready => True
    | .reloading t e => L.Covers (call t) → ¬ (t ∈ s.running ∧ s.epoch t = e)
    | .claimed t => ¬ L.Covers (call t)

/-- The workers that may. -/
def permits (call : TaskId → LimitedCall) (L : ConcurrencyLimit) (s : RunningState W) :
    Set (Fin W) :=
  {w | s.Permitted call L (s.workers w)}

structure CeilingInv (call : TaskId → LimitedCall) (L : ConcurrencyLimit) (s : RunningState W) :
    Prop where
  bound : s.covered call L + (s.permits call L).ncard < L.max + W
  /-- A row that was taken by compare-and-set is read back by one worker. -/
  reloads : ∀ v w t e, (s.workers v).phase = .reloading t e →
    (s.workers w).phase = .reloading t e → v = w
  granted : ∀ w t e, (s.workers w).phase = .reloading t e → e ≤ s.epoch t

/-- What a run must keep to for the ceiling of `L`: a worker claims nothing `L` covers after a claim
under `L` that committed and raised, until it has counted; and nobody else claims what `L` covers. -/
def Counted (call : TaskId → LimitedCall) (L : ConcurrencyLimit) (s : RunningState W) :
    RunningAction W → Prop
  | .claim w t | .claimRaises w t | .claimOptimistic w t =>
    L.Covers (call t) → ∀ u ∈ (s.workers w).owed, ¬ L.Covers (call u)
  | .other t => ¬ L.Covers (call t)
  | _ => True

instance : ∀ (s : RunningState W) (a : RunningAction W), Decidable (s.Counted call L a)
  | _, .claim _ _ | _, .claimRaises _ _ | _, .claimOptimistic _ _ =>
    inferInstanceAs (Decidable (_ → _))
  | _, .other _ => inferInstanceAs (Decidable (¬ _))
  | _, .refresh _ _ | _, .count _ | _, .countRaises _ | _, .reload _ | _, .reloadLost _
  | _, .reloadRaises _ | _, .claimNone _ | _, .record _ | _, .mark _ | _, .restart _
  | _, .leave _ _ | _, .requeue _ => inferInstanceAs (Decidable True)

@[simp] theorem running_setWorker : (s.setWorker w c).running = s.running :=
  rfl

@[simp] theorem epoch_setWorker : (s.setWorker w c).epoch = s.epoch :=
  rfl

theorem workers_setWorker (v : Fin W) :
    (s.setWorker w c).workers v = if v = w then c else s.workers v := by
  simp [setWorker, Function.update_apply]

theorem covered_setWorker : (s.setWorker w c).covered call L = s.covered call L :=
  rfl

theorem epoch_le_setEpoch (s : RunningState W) (t u : TaskId) :
    s.epoch u ≤ (s.setEpoch t (s.epoch t + 1)).epoch u := by
  unfold setEpoch
  dsimp only
  rw [Function.update_apply]
  split_ifs with hu
  · rw [hu]
    omega
  · exact le_rfl

/-- A row that nobody runs is not read back at its next epoch. -/
theorem CeilingInv.fresh_epoch (hi : s.CeilingInv call L) (t : TaskId) (v : Fin W) :
    (s.workers v).phase ≠ .reloading t (s.epoch t + 1) := by
  intro h
  have := hi.granted v t _ h
  omega

/-- A step of one worker that takes no row and leaves it no permit it did not have. -/
theorem CeilingInv.setWorker (hi : s.CeilingInv call L)
    (hp : s.Permitted call L c → s.Permitted call L (s.workers w))
    (hc : ∀ t e, c.phase = .reloading t e → (s.workers w).phase = .reloading t e) :
    (s.setWorker w c).CeilingInv call L := by
  have hworker : ∀ v t e, ((s.setWorker w c).workers v).phase = .reloading t e →
      (s.workers v).phase = .reloading t e := by
    intro v t e h
    rw [workers_setWorker] at h
    split_ifs at h with hv
    · exact hv ▸ hc t e h
    · exact h
  have hle : ((s.setWorker w c).permits call L).ncard ≤ (s.permits call L).ncard := by
    apply ncard_le_of_imp
    intro v hv
    change s.Permitted call L ((s.setWorker w c).workers v) at hv
    rw [workers_setWorker] at hv
    split_ifs at hv with hvw
    · subst hvw
      exact hp hv
    · exact hv
  have hbound := hi.bound
  refine ⟨?_, fun v v' t e h h' => hi.reloads v v' t e (hworker v t e h) (hworker v' t e h'),
    fun v t e h => hi.granted v t e (hworker v t e h)⟩
  rw [covered_setWorker]
  omega

/-- The worker counts, and stands on what it counted. -/
theorem CeilingInv.count (hi : s.CeilingInv call L) (hL : L ∈ limits w)
    (hc : c.blocked = (limits w).filter fun l => l.max ≤ s.covered call l)
    (hphase : c.phase = .ready) : (s.setWorker w c).CeilingInv call L := by
  by_cases hroom : L.max ≤ s.covered call L
  · refine hi.setWorker (fun hp => absurd ?_ hp.1) fun t e h => by simp [hphase] at h
    rw [hc]
    exact List.mem_filter.mpr ⟨hL, by simpa using hroom⟩
  · have hworker : ∀ v t e, ((s.setWorker w c).workers v).phase = .reloading t e →
        (s.workers v).phase = .reloading t e := by
      intro v t e h
      rw [workers_setWorker] at h
      split_ifs at h
      · simp [hphase] at h
      · exact h
    have hcard : ((s.setWorker w c).permits call L).ncard ≤ W := by
      simpa using ncard_le_card ((s.setWorker w c).permits call L)
    refine ⟨?_, fun v v' t e h h' => hi.reloads v v' t e (hworker v t e h) (hworker v' t e h'),
      fun v t e h => hi.granted v t e (hworker v t e h)⟩
    rw [covered_setWorker]
    omega

theorem covered_insert (ht : t ∉ s.running) :
    (s.run t).covered call L = s.covered call L + if L.Covers (call t) then 1 else 0 := by
  unfold covered run
  rw [Finset.filter_insert]
  split_ifs with h
  · rw [Finset.card_insert_of_notMem]
    simp [ht]
  · rfl

/-- A row that is started takes no permit from a worker that reads another back. -/
theorem permitted_run (ht : t ∉ s.running) {v : Fin W}
    (h : (s.run t).Permitted call L (s.workers v)) : s.Permitted call L (s.workers v) := by
  obtain ⟨hblocked, howed, hphase⟩ := h
  refine ⟨hblocked, howed, ?_⟩
  cases hp : (s.workers v).phase with
  | reloading u e =>
    simp only [hp] at hphase ⊢
    rintro hcov ⟨hrun, he⟩
    have hne : u ≠ t := by
      rintro rfl
      exact ht hrun
    refine hphase hcov ⟨Finset.mem_insert_of_mem hrun, ?_⟩
    exact (Function.update_of_ne hne _ _).trans he
  | _ =>
    rw [hp] at hphase
    exact hphase

/-- A worker takes a row, and with it its permit, or a row the limit does not cover. -/
theorem CeilingInv.claim (hi : s.CeilingInv call L) (hclaim : s.Claimable call w t)
    (hready : (s.workers w).phase = .ready)
    (howed : L.Covers (call t) → ∀ u ∈ (s.workers w).owed, ¬ L.Covers (call u))
    (hcov : L.Covers (call t) → ¬ (s.run t).Permitted call L c)
    (hnot : ¬ L.Covers (call t) → (s.run t).Permitted call L c → s.Permitted call L (s.workers w))
    (hphase : ∀ u e, c.phase = .reloading u e → u = t ∧ e = s.epoch t + 1) :
    ((s.run t).setWorker w c).CeilingInv call L := by
  obtain ⟨ht, hblocked⟩ := hclaim
  have hother : ∀ v, v ≠ w → v ∈ ((s.run t).setWorker w c).permits call L →
      v ∈ s.permits call L := by
    intro v hv h
    change (s.run t).Permitted call L (((s.run t).setWorker w c).workers v) at h
    rw [workers_setWorker, if_neg hv] at h
    exact permitted_run ht h
  have hworker : ∀ v u e, (((s.run t).setWorker w c).workers v).phase = .reloading u e →
      v = w ∧ u = t ∧ e = s.epoch t + 1 ∨ v ≠ w ∧ (s.workers v).phase = .reloading u e := by
    intro v u e h
    rw [workers_setWorker] at h
    split_ifs at h with hv
    · exact .inl ⟨hv, hphase u e h⟩
    · exact .inr ⟨hv, h⟩
  refine ⟨?_, fun v v' u e h h' => ?_, fun v u e h => ?_⟩
  · have hbound := hi.bound
    rw [covered_setWorker, covered_insert ht]
    have hself : w ∈ ((s.run t).setWorker w c).permits call L ↔ (s.run t).Permitted call L c := by
      change (s.run t).Permitted call L (((s.run t).setWorker w c).workers w) ↔ _
      rw [workers_setWorker, if_pos rfl]
    split_ifs with h
    · have hmine : w ∈ s.permits call L := by
        refine ⟨fun hb => hblocked L hb h, howed h, ?_⟩
        rw [hready]
        trivial
      have hlt := ncard_leave hother hmine (mt hself.mp (hcov h))
      omega
    · have hle : (((s.run t).setWorker w c).permits call L).ncard ≤ (s.permits call L).ncard := by
        apply ncard_le_of_imp
        intro v hv
        by_cases hvw : v = w
        · subst hvw
          exact hnot h (hself.mp hv)
        · exact hother v hvw hv
      omega
  · rcases hworker v u e h with ⟨hv, rfl, rfl⟩ | ⟨hv, hold⟩ <;>
      rcases hworker v' u _ h' with ⟨hv', hu, he⟩ | ⟨hv', hold'⟩
    · rw [hv, hv']
    · exact absurd hold' (hi.fresh_epoch u v')
    · subst hu he
      exact absurd hold (hi.fresh_epoch u v)
    · exact hi.reloads v v' u e hold hold'
  · rcases hworker v u e h with ⟨-, rfl, rfl⟩ | ⟨-, hold⟩
    · have hself : (s.run u).epoch u = s.epoch u + 1 := Function.update_self ..
      exact hself.ge
    · exact (hi.granted v u e hold).trans (epoch_le_setEpoch s t u)

/-- A row leaves RUNNING, and its place goes to the worker that was to read it back. -/
theorem CeilingInv.leave (hi : s.CeilingInv call L) (ht : t ∈ s.running)
    (hr : s'.running = s.running.erase t) (hw : s'.workers = s.workers)
    (he : ∀ u, s.epoch u ≤ s'.epoch u ∧ (u ≠ t → s'.epoch u = s.epoch u)) :
    s'.CeilingInv call L := by
  have hcovered : s'.covered call L + (if L.Covers (call t) then 1 else 0) = s.covered call L := by
    unfold covered
    rw [hr, Finset.filter_erase]
    split_ifs with h
    · rw [Finset.card_erase_add_one]
      simp [ht, h]
    · rw [Finset.erase_eq_of_notMem]
      · rfl
      · simp [h]
  have hold : ∀ v, v ∈ s'.permits call L → v ∈ s.permits call L ∨
      L.Covers (call t) ∧ (s.workers v).phase = .reloading t (s.epoch t) := by
    intro v h
    change s'.Permitted call L (s'.workers v) at h
    rw [hw] at h
    obtain ⟨hblocked, howed, hphase⟩ := h
    by_cases hback : L.Covers (call t) ∧ (s.workers v).phase = .reloading t (s.epoch t)
    · exact .inr hback
    · refine .inl ⟨hblocked, howed, ?_⟩
      cases hp : (s.workers v).phase with
      | reloading u e =>
        simp only [hp] at hphase hback ⊢
        rintro hcov ⟨hrun, hepoch⟩
        by_cases hu : u = t
        · subst hu
          exact hback ⟨hcov, by rw [hepoch]⟩
        · refine hphase hcov ⟨?_, ((he u).2 hu).trans hepoch⟩
          rw [hr]
          exact Finset.mem_erase.mpr ⟨hu, hrun⟩
      | _ =>
        rw [hp] at hphase
        exact hphase
  have hbound := hi.bound
  refine ⟨?_, fun v v' u e h h' => ?_, fun v u e h => ?_⟩
  · by_cases hback : ∃ w, L.Covers (call t) ∧ (s.workers w).phase = .reloading t (s.epoch t)
    · obtain ⟨w, hcov, hphase⟩ := hback
      rw [if_pos hcov] at hcovered
      have hjoin : (s'.permits call L).ncard ≤ (s.permits call L).ncard + 1 := by
        refine ncard_join (w := w) fun v hv h => (hold v h).resolve_right ?_
        rintro ⟨-, hphase'⟩
        exact hv (hi.reloads v w t _ hphase' hphase)
      omega
    · have hle : (s'.permits call L).ncard ≤ (s.permits call L).ncard :=
        ncard_le_of_imp fun v h => (hold v h).resolve_right fun hb => hback ⟨v, hb⟩
      omega
  · rw [hw] at h h'
    exact hi.reloads v v' u e h h'
  · rw [hw] at h
    exact (hi.granted v u e h).trans (he u).1

/-- The epoch of a row that is not RUNNING moves. -/
theorem CeilingInv.requeue (hi : s.CeilingInv call L) (ht : t ∉ s.running) :
    (s.setEpoch t (s.epoch t + 1)).CeilingInv call L := by
  have hle : ((s.setEpoch t (s.epoch t + 1)).permits call L).ncard ≤ (s.permits call L).ncard := by
    apply ncard_le_of_imp
    rintro v ⟨hblocked, howed, hphase⟩
    refine ⟨hblocked, howed, ?_⟩
    cases hp : (s.workers v).phase with
    | reloading u e =>
      have hphase' : ((s.setEpoch t (s.epoch t + 1)).workers v).phase = .reloading u e := hp
      simp only [hphase'] at hphase ⊢
      rintro hcov ⟨hrun, he⟩
      have hne : u ≠ t := by
        rintro rfl
        exact ht hrun
      exact hphase hcov ⟨hrun, (Function.update_of_ne hne _ _).trans he⟩
    | _ =>
      have hphase' : ((s.setEpoch t (s.epoch t + 1)).workers v).phase = _ := hp
      rw [hphase'] at hphase
      exact hphase
  have hbound := hi.bound
  refine ⟨?_, hi.reloads, fun v u e h => (hi.granted v u e h).trans (epoch_le_setEpoch s t u)⟩
  have hcovered : (s.setEpoch t (s.epoch t + 1)).covered call L = s.covered call L := rfl
  omega

/-- A row the limit does not cover is started by somebody else. -/
theorem CeilingInv.other (hi : s.CeilingInv call L) (ht : t ∉ s.running)
    (hcov : ¬ L.Covers (call t)) : (s.run t).CeilingInv call L := by
  have hle : ((s.run t).permits call L).ncard ≤ (s.permits call L).ncard :=
    ncard_le_of_imp fun v hv => permitted_run ht hv
  have hbound := hi.bound
  refine ⟨?_, hi.reloads, fun v u e h => (hi.granted v u e h).trans (epoch_le_setEpoch s t u)⟩
  rw [covered_insert ht, if_neg hcov]
  omega

theorem ceiling_of_start (hmax : 1 ≤ L.max) (h : s.Start) : s.CeilingInv call L := by
  obtain ⟨hr, hw⟩ := h
  have hphase : ∀ w, (s.workers w).phase = .idle := fun w => by rw [hw w]; rfl
  have hnone : s.permits call L = ∅ := by
    refine Set.eq_empty_iff_forall_notMem.mpr fun w h => ?_
    have hstale : (s.workers w).stale = true := by rw [hw w]; rfl
    obtain ⟨-, -, h⟩ := h
    rw [hphase w] at h
    simp only at h
    rw [hstale] at h
    cases h
  refine ⟨?_, fun v w t e h => ?_, fun w t e h => ?_⟩
  · have hzero : s.covered call L = 0 := by simp [covered, hr]
    rw [hzero, hnone, Set.ncard_empty]
    omega
  · simp [hphase] at h
  · simp [hphase] at h

theorem step_ceiling {a : RunningAction W} (hL : ∀ w, L ∈ limits w) (hi : s.CeilingInv call L)
    (hc : s.Counted call L a) (h : step limits call s a = some s') : s'.CeilingInv call L := by
  cases a with
  | refresh w due =>
    simp only [step] at h
    split at h
    · next hphase =>
      split_ifs at h with hlook
      · obtain rfl := Option.some.inj h
        exact hi.setWorker (fun hp => hp.2.2.elim) fun t e h => by cases h
      · obtain rfl := Option.some.inj h
        refine hi.setWorker (fun hp => ⟨hp.1, hp.2.1, ?_⟩) fun t e h => by cases h
        rw [hphase]
        simpa using (not_or.mp hlook).1
    · cases h
  | count w =>
    simp only [step] at h
    split at h
    · obtain rfl := Option.some.inj h
      exact hi.count (hL w) rfl rfl
    · cases h
  | countRaises w =>
    simp only [step] at h
    split at h
    · obtain rfl := Option.some.inj h
      exact hi.setWorker (fun hp => by cases hp.2.2) fun t e h => by cases h
    · cases h
  | claim w t =>
    simp only [step] at h
    split at h
    · next hphase =>
      obtain ⟨hclaim, h⟩ := Option.ite_none_right_eq_some.mp h
      obtain rfl := Option.some.inj h
      refine hi.claim hclaim hphase hc (fun hcov hp => hp.2.2 hcov)
        (fun _ hp => ⟨hp.1, hp.2.1, ?_⟩) fun u e h => by cases h
      rw [hphase]
      trivial
    · cases h
  | claimRaises w t =>
    simp only [step] at h
    split at h
    · next hphase =>
      obtain ⟨hclaim, h⟩ := Option.ite_none_right_eq_some.mp h
      obtain rfl := Option.some.inj h
      refine hi.claim hclaim hphase hc (fun hcov hp => hp.2.1 t List.mem_cons_self hcov)
        (fun _ hp => ⟨hp.1, fun u hu => hp.2.1 u (List.mem_cons_of_mem _ hu), ?_⟩)
        fun u e h => by cases h
      rw [hphase]
      trivial
    · cases h
  | claimOptimistic w t =>
    simp only [step] at h
    split at h
    · next hphase =>
      obtain ⟨hclaim, h⟩ := Option.ite_none_right_eq_some.mp h
      obtain rfl := Option.some.inj h
      refine hi.claim hclaim hphase hc (fun hcov hp => hp.2.2 hcov ?_)
        (fun _ hp => ⟨hp.1, hp.2.1, ?_⟩) fun u e h => ?_
      · exact ⟨Finset.mem_insert_self .., Function.update_self ..⟩
      · rw [hphase]
        trivial
      · cases h
        exact ⟨rfl, rfl⟩
    · cases h
  | reload w =>
    simp only [step] at h
    split at h
    · next t e hphase =>
      obtain ⟨-, h⟩ := Option.ite_none_right_eq_some.mp h
      obtain rfl := Option.some.inj h
      refine hi.setWorker (fun hp => ⟨hp.1, hp.2.1, ?_⟩) fun u e h => by cases h
      rw [hphase]
      exact fun hcov => absurd hcov hp.2.2
    · cases h
  | reloadLost w =>
    simp only [step] at h
    split at h
    · next t e hphase =>
      obtain ⟨hlost, h⟩ := Option.ite_none_left_eq_some.mp h
      obtain rfl := Option.some.inj h
      refine hi.setWorker (fun hp => ⟨hp.1, hp.2.1, ?_⟩) fun u e h => by cases h
      rw [hphase]
      exact fun _ => hlost
    · cases h
  | reloadRaises w =>
    simp only [step] at h
    split at h
    · next t e hphase =>
      obtain rfl := Option.some.inj h
      refine hi.setWorker (fun hp => ⟨hp.1, fun u hu => hp.2.1 u (List.mem_cons_of_mem _ hu), ?_⟩)
        fun u e h => by cases h
      rw [hphase]
      exact fun hcov => absurd hcov (hp.2.1 t List.mem_cons_self)
    · cases h
  | claimNone w =>
    simp only [step] at h
    split at h
    · next hphase =>
      obtain rfl := Option.some.inj h
      refine hi.setWorker (fun hp => ⟨hp.1, hp.2.1, ?_⟩) fun u e h => by cases h
      rw [hphase]
      trivial
    · cases h
  | record w =>
    simp only [step] at h
    split at h
    · next t hphase =>
      obtain rfl := Option.some.inj h
      refine hi.setWorker (fun hp => ⟨hp.1, hp.2.1, ?_⟩) fun u e h => by cases h
      rw [hphase]
      intro hcov
      have hany : ((limits w).any fun l => l.Covers (call t)) = true :=
        List.any_eq_true.mpr ⟨L, hL w, by simpa using hcov⟩
      have hstale := hp.2.2
      simp [hany] at hstale
    · cases h
  | mark w =>
    obtain rfl := Option.some.inj h
    refine hi.setWorker (fun hp => ⟨hp.1, hp.2.1, ?_⟩) fun _ _ => id
    have hphase := hp.2.2
    cases hw : (s.workers w).phase with
    | idle | counting => simp [hw] at hphase
    | ready | reloading u e | claimed u =>
      simp only [hw] at hphase
      exact hphase
  | restart w =>
    obtain rfl := Option.some.inj h
    exact hi.setWorker (fun hp => by cases hp.2.2) fun t e h => by cases h
  | leave t requeued =>
    obtain ⟨ht, h⟩ := Option.ite_none_right_eq_some.mp h
    obtain rfl := Option.some.inj h
    split_ifs
    · refine hi.leave ht rfl rfl fun u => ⟨epoch_le_setEpoch s t u, fun hu => ?_⟩
      exact Function.update_of_ne hu _ _
    · exact hi.leave ht rfl rfl fun u => ⟨le_rfl, fun _ => rfl⟩
  | requeue t =>
    obtain ⟨ht, h⟩ := Option.ite_none_right_eq_some.mp h
    obtain rfl := Option.some.inj h
    exact hi.requeue ht
  | other t =>
    obtain ⟨ht, h⟩ := Option.ite_none_right_eq_some.mp h
    obtain rfl := Option.some.inj h
    exact hi.other ht hc

end RunningState

/-- The ceiling of a concurrency limit. With W workers that apply the limit, and no others that claim
what it covers, no more than `max + W - 1` covered rows are RUNNING in any state of a run in which
no worker claims a covered row after a claim under the limit that committed and raised, until it has
counted. -/
theorem running_within_limit {W : ℕ} {limits : Fin W → List ConcurrencyLimit}
    {call : TaskId → LimitedCall} {L : ConcurrencyLimit} (hmax : 1 ≤ L.max)
    (hL : ∀ w, L ∈ limits w) {s : RunningState W}
    (h : (runningSystem limits call).ReachesBy (RunningState.Counted call L) s) :
    s.covered call L ≤ L.max + W - 1 := by
  have hi : s.CeilingInv call L := h.invariant _
    (fun _ hs => RunningState.ceiling_of_start hmax hs)
    fun _ _ _ hi hc hs => RunningState.step_ceiling hL hi hc hs
  have hbound := hi.bound
  omega

/-- A limit of one row on the queue "q", and calls on that queue. -/
def oneOnQueue : ConcurrencyLimit := ⟨"one", 1, [], ["q"]⟩

def queueCall (_ : TaskId) : LimitedCall := ⟨"t", "q"⟩

def idleWorkers (W : ℕ) : RunningState W := ⟨∅, fun _ => 0, fun _ => .fresh⟩

/-- Two workers count nothing, and both claim. -/
theorem running_within_limit_both :
    ∃ s : RunningState 2, (runningSystem (fun _ => [oneOnQueue]) queueCall).run (idleWorkers 2)
      [.refresh 0 false, .count 0, .refresh 1 false, .count 1, .claim 0 1, .claim 1 2, .record 0,
        .refresh 0 false, .count 0] = some s ∧
      s.covered queueCall oneOnQueue = 2 ∧
      s.covered queueCall oneOnQueue ≤ oneOnQueue.max + 2 - 1 := by
  have within : ∀ s, ((runningSystem (fun _ : Fin 2 => [oneOnQueue]) queueCall).only
        (RunningState.Counted queueCall oneOnQueue)).run (idleWorkers 2)
      [.refresh 0 false, .count 0, .refresh 1 false, .count 1, .claim 0 1, .claim 1 2, .record 0,
        .refresh 0 false, .count 0] = some s →
      s.covered queueCall oneOnQueue ≤ oneOnQueue.max + 2 - 1 := fun s hrun =>
    running_within_limit (by decide) (by simp) (.of_run ⟨rfl, fun _ => rfl⟩ hrun)
  exact ⟨_, rfl, rfl, within _ rfl⟩

/-- One worker, and a claim that commits and raises: the next one stands on the same count. -/
theorem running_over_limit :
    ∃ s : RunningState 1, (runningSystem (fun _ => [oneOnQueue]) queueCall).run (idleWorkers 1)
      [.refresh 0 false, .count 0, .claimRaises 0 1, .refresh 0 false, .claim 0 2] = some s ∧
      ¬ s.covered queueCall oneOnQueue ≤ oneOnQueue.max + 1 - 1 :=
  ⟨_, rfl, by decide⟩

end DjangoOx
