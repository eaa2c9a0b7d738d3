import DjangoOx.Task.Recovery

/-! Every step of a worker keeps its claims accounted for, so a look releases only rows left by
claims that raised. -/
namespace DjangoOx

open Machine Machine.Fencing

namespace WorkerState

variable {w : Worker} {s s' : WorkerState}

/-- The rows after one statement that claims nothing under the worker's id. -/
def Settles (w : Worker) (t t' : Table TaskId RowState) : Prop :=
  ∀ pk, (t.rows pk = none ∧ t'.rows pk = none) ∨
    ∃ r r', t.rows pk = some r ∧ t'.rows pk = some r' ∧ r.Leads r' ∧
      (r'.row.RunningUnder w → r.row.RunningUnder w ∧ r'.row.leaseEpoch = r.row.leaseEpoch)

theorem Settles.forward {t t' : Table TaskId RowState} (h : Settles w t t') {pk : TaskId}
    {r : RowState} (hr : t.rows pk = some r) : ∃ r', t'.rows pk = some r' ∧ r.Leads r' := by
  rcases h pk with ⟨hn, -⟩ | ⟨r₀, r', hr₀, hr', hl, -⟩
  · simp [hr] at hn
  · obtain rfl : r = r₀ := Option.some.inj (hr.symm.trans hr₀)
    exact ⟨r', hr', hl⟩

theorem Settles.back {t t' : Table TaskId RowState} (h : Settles w t t') {pk : TaskId}
    {r' : RowState} (hr' : t'.rows pk = some r') :
    ∃ r, t.rows pk = some r ∧ r.Leads r' ∧
      (r'.row.RunningUnder w → r.row.RunningUnder w ∧ r'.row.leaseEpoch = r.row.leaseEpoch) := by
  rcases h pk with ⟨-, hn⟩ | ⟨r, r₀, hr, hr₀, hl, hrun⟩
  · simp [hr'] at hn
  · obtain rfl : r' = r₀ := Option.some.inj (hr'.symm.trans hr₀)
    exact ⟨r, hr, hl, hrun⟩

theorem settles_put {t : Table TaskId RowState} {pk : TaskId} {r r' : RowState} {a : RowAction}
    (ha : Outside w a) (hr : t.rows pk = some r) (h : r.step a = some r') :
    Settles w t (t.put pk r') := by
  intro k
  by_cases hk : k = pk
  · subst hk
    refine .inr ⟨r, r', hr, Table.rows_put_self r' hr, .inr ⟨a, h⟩, ?_⟩
    rintro ⟨hrun, hl⟩
    rcases RowState.step_running h hrun with ⟨hs, he, hlb⟩ | ⟨hc, -, -⟩
    · exact ⟨⟨hs, hlb ▸ hl⟩, he⟩
    · exact absurd (hc.trans hl) ha.1
  · rw [Table.rows_put_of_ne r' hk]
    cases hn : t.rows k with
    | none => exact .inl ⟨rfl, rfl⟩
    | some x => exact .inr ⟨x, x, rfl, rfl, .inl rfl, fun hrun => ⟨hrun, rfl⟩⟩

/-- What the release of a found row does to its row: the row's own release, or nothing. -/
theorem releaseRow_eq_some {f : Found} {r r' : RowState} :
    releaseRow w f r = some r' ↔
      (f.abandoned = false ∧ f.row.WellFormedHistory w) ∧
        (r.row.RunningUnder w ∧ r.row.leaseEpoch = f.row.leaseEpoch) ∧
        r.commit .recovered (r.row.refunded f.row) = r' := by
  unfold releaseRow
  rw [Option.ite_none_right_eq_some, Option.map_eq_some_iff]
  constructor
  · rintro ⟨hf, t, ht, rfl⟩
    obtain ⟨⟨hs, hl, he⟩, rfl⟩ := OxTask.releaseClaim_eq_some.mp ht
    exact ⟨hf, ⟨⟨hs, hl⟩, he⟩, rfl⟩
  · rintro ⟨hf, ⟨⟨hs, hl⟩, he⟩, rfl⟩
    exact ⟨hf, _, OxTask.releaseClaim_eq_some.mpr ⟨⟨hs, hl, he⟩, rfl⟩, rfl⟩

/-- The rows a look found are RUNNING under the worker. -/
theorem releaseRow_step {f : Found} {r r' : RowState} (hs : r.Seen f.row)
    (hf : f.row.RunningUnder w) (h : releaseRow w f r = some r') :
    r.step (.releaseClaim w f.row) = some r' := by
  obtain ⟨-, ⟨hrun, he⟩, rfl⟩ := releaseRow_eq_some.mp h
  have hc : r.row.releaseClaim w f.row = some (r.row.refunded f.row) :=
    OxTask.releaseClaim_eq_some.mpr ⟨⟨hrun.1, hrun.2, he⟩, rfl⟩
  simp [RowState.step, hs, hf.1, hf.2, hc]

theorem settles_release {f : Found} (hs : s.FoundSeen w f) :
    Settles w s.table
      (s.table.update fun pk r => if pk = f.pk then releaseRow w f r else none) := by
  intro k
  cases hk : s.table.rows k with
  | none => exact .inl ⟨rfl, by simp [hk]⟩
  | some r =>
    refine .inr ⟨r, (if k = f.pk then releaseRow w f r else none).getD r, rfl, by simp [hk], ?_⟩
    by_cases hpk : k = f.pk
    · rw [if_pos hpk]
      cases hrel : releaseRow w f r with
      | none => exact ⟨.inl rfl, fun hrun => ⟨hrun, rfl⟩⟩
      | some r' =>
        obtain ⟨hf, r₀, hr₀, hseen⟩ := hs
        have hr : r = r₀ := Option.some.inj ((hpk ▸ hk).symm.trans hr₀)
        have hstep := releaseRow_step (hr ▸ hseen) hf hrel
        refine ⟨.inr ⟨_, hstep⟩, fun hrun => ?_⟩
        obtain ⟨-, -, rfl⟩ := releaseRow_eq_some.mp hrel
        have hready : Status.ready = Status.running := hrun.1
        cases hready
    · rw [if_neg hpk]
      exact ⟨.inl rfl, fun hrun => ⟨hrun, rfl⟩⟩

theorem Settles.evolves {t' : Table TaskId RowState} (h : Settles w s.table t') :
    Evolves w s { s with table := t' } where
  rows _ _ hr := h.forward hr
  returned := fun _ he => he
  raised := fun _ he => he
  generation := le_rfl
  quiet _ hq := hq
  running _ _ pk r' hr' hrun := by
    obtain ⟨r, hr, -, hback⟩ := h.back hr'
    exact ⟨r, hr, hback hrun⟩

theorem Inv.settles {t' : Table TaskId RowState} (hi : s.Inv w) (h : Settles w s.table t') :
    Inv w { s with table := t' } := by
  have he := h.evolves
  refine { hi with
    rows := fun pk r' hr' => ?_
    covered := fun pk r' hr' hrun => ?_
    granted := fun e hm => he.granted (hi.granted e hm)
    looks := fun l => (hi.looks l).mono he hi.rows }
  · obtain ⟨r, hr, hl, -⟩ := h.back hr'
    exact hl.reachable (hi.rows pk r hr)
  · obtain ⟨r, hr, -, hback⟩ := h.back hr'
    obtain ⟨hrun', hep⟩ := hback hrun
    rw [hep]
    exact hi.covered pk r hr hrun'

theorem lookOk_setLook {l : ℕ} {k k' : Look} : (s.setLook l k).LookOk w k' ↔ s.LookOk w k' := by
  cases k' <;> exact Iff.rfl

theorem Inv.setLook {l : ℕ} {k : Look} (hi : s.Inv w) (h : s.LookOk w k) :
    (s.setLook l k).Inv w := by
  refine { hi with looks := fun l' => lookOk_setLook.mpr ?_ }
  by_cases hl : l' = l
  · subst hl
    simpa [WorkerState.setLook] using h
  · simpa [WorkerState.setLook, hl] using hi.looks l'

theorem Inv.confirm (hi : s.Inv w) (b : Bool) : Inv w { s with claimUnconfirmed := b } := by
  refine { hi with looks := fun l => ?_ }
  have h := hi.looks l
  change LookOk w { s with claimUnconfirmed := b } (s.looks l)
  cases hk : s.looks l <;> rw [hk] at h <;> exact h

/-- A step that touches no row, and that begins a claim only at a new generation. -/
theorem evolves_of_table (ht : s'.table = s.table) (hret : s.returned ⊆ s'.returned)
    (hra : s.raised ⊆ s'.raised) (hgen : s.claimGeneration ≤ s'.claimGeneration)
    (hq : s'.claimGeneration = s.claimGeneration → s.Quiet → s'.Quiet) : Evolves w s s' where
  rows _ r hr := ⟨r, ht ▸ hr, .inl rfl⟩
  returned := hret
  raised := hra
  generation := hgen
  quiet := hq
  running _ _ _ r' hr' hrun := ⟨r', ht ▸ hr', hrun, rfl⟩

@[simp] theorem setClaim_handedOff (s : WorkerState) (t : ℕ) (c : Option Claiming) :
    (s.setClaim t c).handedOff = s.handedOff :=
  rfl

@[simp] theorem setClaim_inFlight (s : WorkerState) (t : ℕ) (c : Option Claiming) :
    (s.setClaim t c).inFlight = s.inFlight :=
  rfl

@[simp] theorem setClaim_unsettled (s : WorkerState) (t : ℕ) (c : Option Claiming) :
    (s.setClaim t c).unsettled = s.unsettled :=
  rfl

@[simp] theorem setClaim_returned (s : WorkerState) (t : ℕ) (c : Option Claiming) :
    (s.setClaim t c).returned = s.returned :=
  rfl

@[simp] theorem setClaim_raised (s : WorkerState) (t : ℕ) (c : Option Claiming) :
    (s.setClaim t c).raised = s.raised :=
  rfl

theorem claims_setClaim (s : WorkerState) (t u : ℕ) (c : Option Claiming) :
    (s.setClaim t c).claims u = if u = t then c else s.claims u := by
  simp [setClaim, Function.update_apply]

/-- The counter against the claims in flight. -/
def Counts (claims : ℕ → Option Claiming) (n : ℕ) : Prop :=
  ∃ ts : List ℕ, ts.Nodup ∧ (∀ t, t ∈ ts ↔ claims t ≠ none) ∧ ts.length = n

theorem Counts.insert {n t : ℕ} {c : Claiming} (h : Counts s.claims n) (ht : s.claims t = none) :
    Counts (s.setClaim t (some c)).claims (n + 1) := by
  obtain ⟨ts, hnd, hmem, hlen⟩ := h
  have hnot : t ∉ ts := fun hm => (hmem t).mp hm ht
  refine ⟨t :: ts, List.nodup_cons.mpr ⟨hnot, hnd⟩, fun u => ?_, by simp [hlen]⟩
  rw [claims_setClaim, List.mem_cons, hmem]
  by_cases hu : u = t <;> simp [hu]

theorem Counts.replace {n t : ℕ} {c : Claiming} (h : Counts s.claims n) (ht : s.claims t ≠ none) :
    Counts (s.setClaim t (some c)).claims n := by
  obtain ⟨ts, hnd, hmem, hlen⟩ := h
  refine ⟨ts, hnd, fun u => ?_, hlen⟩
  rw [claims_setClaim, hmem]
  by_cases hu : u = t
  · simp [hu, ht]
  · simp [hu]

theorem Counts.remove {n t : ℕ} (h : Counts s.claims n) (ht : s.claims t ≠ none) :
    Counts (s.setClaim t none).claims (n - 1) := by
  obtain ⟨ts, hnd, hmem, hlen⟩ := h
  have hin : t ∈ ts := (hmem t).mpr ht
  refine ⟨ts.erase t, hnd.erase t, fun u => ?_, by rw [List.length_erase_of_mem hin, hlen]⟩
  rw [claims_setClaim, hnd.mem_erase_iff, hmem]
  by_cases hu : u = t <;> simp [hu]

theorem Inv.countIn {t : ℕ} (hi : s.Inv w) (ht : s.claims t = none) :
    Inv w { s.setClaim t (some .counted) with
      claimsInFlight := s.claimsInFlight + 1
      claimGeneration := s.claimGeneration + 1 } := by
  have hclaims : ∀ u e, (s.setClaim t (some .counted)).claims u = some (.committed e) ↔
      s.claims u = some (.committed e) := by
    intro u e
    rw [claims_setClaim]
    by_cases hu : u = t <;> simp [hu, ht]
  refine { hi with
    count := Counts.insert hi.count ht
    covered := fun pk r hr hrun => ?_
    granted := fun e he => hi.granted e ?_
    once := fun u e hu => ?_
    looks := fun l => (hi.looks l).mono
      (evolves_of_table rfl (fun _ h => h) (fun _ h => h) (Nat.le_succ _)
        fun h => absurd h (Nat.succ_ne_self _)) hi.rows }
  · simpa [Covered, hclaims] using hi.covered pk r hr hrun
  · simpa [hclaims] using he
  · simpa [hclaims] using hi.once u e ((hclaims u e).mp hu)

/-- The claim's statement commits: a row RUNNING at an epoch that no claim was granted before. -/
theorem Inv.commit {t : ℕ} {pk : TaskId} {a : RowAction} {r r' : RowState} (hi : s.Inv w)
    (ht : s.claims t = some .counted) (ha : a.claimant = some w.workerId)
    (hr : s.table.rows pk = some r) (h : r.step a = some r') :
    Inv w { s.setClaim t (some (.committed (pk, r'.row.leaseEpoch))) with
      table := s.table.put pk r' } := by
  obtain ⟨hrun, hl, hep, hlog⟩ := RowState.step_claimed h (by simp [ha])
  have hnew : ¬ s.Granted (pk, r'.row.leaseEpoch) := by
    rintro ⟨r₀, hr₀, hg⟩
    obtain rfl : r = r₀ := Option.some.inj (hr.symm.trans hr₀)
    have hle := (RowState.reachable_inv (hi.rows pk r hr)).grants_le hg
    omega
  have hself : (s.table.put pk r').rows pk = some r' := Table.rows_put_self r' hr
  have he : Evolves w s { s.setClaim t (some (.committed (pk, r'.row.leaseEpoch))) with
      table := s.table.put pk r' } := by
    refine ⟨fun k x hx => ?_, fun _ h => h, fun _ h => h, le_rfl,
      fun _ hq => absurd (hq t) (by simp [ht]), fun _ hq => absurd (hq t) (by simp [ht])⟩
    by_cases hk : k = pk
    · subst hk
      obtain rfl : r = x := Option.some.inj (hr.symm.trans hx)
      exact ⟨r', hself, .inr ⟨a, h⟩⟩
    · exact ⟨x, (Table.rows_put_of_ne r' hk).trans hx, .inl rfl⟩
  have hclaims : ∀ u e, (s.setClaim t (some (.committed (pk, r'.row.leaseEpoch)))).claims u =
      some (.committed e) → u = t ∧ e = (pk, r'.row.leaseEpoch) ∨
        u ≠ t ∧ s.claims u = some (.committed e) := by
    intro u e hu
    rw [claims_setClaim] at hu
    split_ifs at hu with hut
    · exact .inl ⟨hut, (Claiming.committed.inj (Option.some.inj hu)).symm⟩
    · exact .inr ⟨hut, hu⟩
  have hgrant : Granted { s.setClaim t (some (.committed (pk, r'.row.leaseEpoch))) with
      table := s.table.put pk r' } (pk, r'.row.leaseEpoch) := by
    refine ⟨r', hself, ?_⟩
    rw [hlog, RowState.grants_cons]
    exact List.mem_cons_self
  refine { hi with
    rows := fun k x hx => ?_
    count := Counts.replace hi.count (by simp [ht])
    covered := fun k x hx hxrun => ?_
    granted := fun e hm => ?_
    once := fun u e hu => ?_
    looks := fun l => (hi.looks l).mono he hi.rows }
  · by_cases hk : k = pk
    · subst hk
      obtain rfl : r' = x := Option.some.inj (hself.symm.trans hx)
      exact RowState.reachable_step (hi.rows k r hr) h
    · exact hi.rows k x ((Table.rows_put_of_ne r' hk).symm.trans hx)
  · by_cases hk : k = pk
    · subst hk
      obtain rfl : r' = x := Option.some.inj (hself.symm.trans hx)
      exact .inr (.inr (.inr (.inr ⟨t, by simp [claims_setClaim]⟩)))
    · have hx' : s.table.rows k = some x := (Table.rows_put_of_ne r' hk).symm.trans hx
      rcases hi.covered k x hx' hxrun with hc | hc | hc | hc | ⟨u, hu⟩
      · exact .inl hc
      · exact .inr (.inl hc)
      · exact .inr (.inr (.inl hc))
      · exact .inr (.inr (.inr (.inl hc)))
      · have hut : u ≠ t := by
          rintro rfl
          simp [ht] at hu
        exact .inr (.inr (.inr (.inr ⟨u, by simp [claims_setClaim, hut, hu]⟩)))
  · rcases hm with hm | hm | ⟨u, hu⟩
    · exact he.granted (hi.granted e (.inl hm))
    · exact he.granted (hi.granted e (.inr (.inl hm)))
    · rcases hclaims u e hu with ⟨-, rfl⟩ | ⟨-, hu⟩
      · exact hgrant
      · exact he.granted (hi.granted e (.inr (.inr ⟨u, hu⟩)))
  · rcases hclaims u e hu with ⟨rfl, rfl⟩ | ⟨hut, hu⟩
    · refine ⟨fun hm => hnew (hi.granted _ (.inl hm)), fun hm => hnew (hi.granted _ (.inr (.inl hm))),
        fun v hv => ?_⟩
      rcases hclaims v _ hv with ⟨hv, -⟩ | ⟨-, hv⟩
      · exact hv
      · exact absurd (hi.granted _ (.inr (.inr ⟨v, hv⟩))) hnew
    · obtain ⟨hret, hra, huniq⟩ := hi.once u e hu
      refine ⟨hret, hra, fun v hv => ?_⟩
      rcases hclaims v e hv with ⟨-, rfl⟩ | ⟨-, hv⟩
      · exact absurd (hi.granted _ (.inr (.inr ⟨u, hu⟩))) hnew
      · exact huniq v hv

/-- A claim in flight that gives its thread back, or goes on without a row. -/
theorem claims_of_setClaim {t u : ℕ} {c : Option Claiming} {e : Entry}
    (hc : ∀ e, c ≠ some (.committed e)) (h : (s.setClaim t c).claims u = some (.committed e)) :
    u ≠ t ∧ s.claims u = some (.committed e) := by
  rw [claims_setClaim] at h
  split_ifs at h with hu
  · exact absurd h (hc e)
  · exact ⟨hu, h⟩

/-- A claim leaves its thread: its entry, if it has one, is registered, raised, or no longer the
row's. -/
theorem Covered.setClaim {t : ℕ} {c : Option Claiming} {e : Entry} (h : s.Covered e)
    (hne : s.claims t ≠ some (.committed e)) : (s.setClaim t c).Covered e := by
  rcases h with h | h | h | h | ⟨u, hu⟩
  · exact .inl h
  · exact .inr (.inl h)
  · exact .inr (.inr (.inl h))
  · exact .inr (.inr (.inr (.inl h)))
  · have hut : u ≠ t := by
      rintro rfl
      exact hne hu
    exact .inr (.inr (.inr (.inr ⟨u, by rw [claims_setClaim, if_neg hut, hu]⟩)))

theorem not_quiet {t : ℕ} (ht : s.claims t ≠ none) : ¬ s.Quiet :=
  fun hq => ht (hq t)

theorem Inv.missed {t : ℕ} {e : Entry} (hi : s.Inv w) (ht : s.claims t = some (.committed e))
    (hrow : ∀ r, s.table.rows e.1 = some r → r.row.leaseEpoch ≠ e.2) :
    Inv w (s.setClaim t (some .counted)) := by
  have hin : s.claims t ≠ none := by simp [ht]
  have hback : ∀ u e, (s.setClaim t (some .counted)).claims u = some (.committed e) →
      u ≠ t ∧ s.claims u = some (.committed e) :=
    fun u e hu => claims_of_setClaim (by simp) hu
  refine { hi with
    count := Counts.replace hi.count hin
    covered := fun pk r hr hrun => (hi.covered pk r hr hrun).setClaim ?_
    granted := fun x hx => hi.granted x ?_
    once := fun u x hu => ?_
    looks := fun l => (hi.looks l).mono
      (evolves_of_table rfl (fun _ h => h) (fun _ h => h) le_rfl
        fun _ hq => absurd hq (not_quiet hin)) hi.rows }
  · intro hc
    obtain rfl := Claiming.committed.inj (Option.some.inj (ht.symm.trans hc))
    exact hrow r hr rfl
  · exact hx.imp_right fun h => h.imp_right fun ⟨u, hu⟩ => ⟨u, (hback u x hu).2⟩
  · obtain ⟨hret, hra, huniq⟩ := hi.once u x (hback u x hu).2
    exact ⟨hret, hra, fun v hv => huniq v (hback v x hv).2⟩

theorem Inv.register {t : ℕ} {e : Entry} (hi : s.Inv w) (ht : s.claims t = some (.committed e)) :
    Inv w { s.setClaim t (some .registered) with
      handedOff := e :: s.handedOff
      returned := e :: s.returned } := by
  have hin : s.claims t ≠ none := by simp [ht]
  have hback : ∀ u e, (s.setClaim t (some .registered)).claims u = some (.committed e) →
      u ≠ t ∧ s.claims u = some (.committed e) :=
    fun u e hu => claims_of_setClaim (by simp) hu
  obtain ⟨hret, hra, huniq⟩ := hi.once t e ht
  refine { hi with
    count := Counts.replace hi.count hin
    covered := fun pk r hr hrun => ?_
    entries := fun x hx => ?_
    granted := fun x hx => ?_
    disjoint := fun x hx => ?_
    once := fun u x hu => ?_
    looks := fun l => (hi.looks l).mono
      (evolves_of_table rfl (List.subset_cons_self _ _) (fun _ h => h) le_rfl
        fun _ hq => absurd hq (not_quiet hin)) hi.rows }
  · by_cases hx : (pk, r.row.leaseEpoch) = e
    · exact .inl (List.mem_cons.mpr (.inl hx))
    · have hc := (hi.covered pk r hr hrun).setClaim (t := t) (c := some .registered) (by
        rw [ht]
        intro h
        exact hx (Claiming.committed.inj (Option.some.inj h)).symm)
      exact hc.imp_left (List.mem_cons_of_mem e)
  · by_cases hxe : x = e
    · exact List.mem_cons.mpr (.inl hxe)
    · refine List.mem_cons_of_mem e (hi.entries x ?_)
      simpa [hxe] using hx
  · by_cases hxe : x = e
    · exact hxe ▸ hi.granted e (.inr (.inr ⟨t, ht⟩))
    · refine hi.granted x ?_
      rcases hx with hx | hx | ⟨u, hu⟩
      · exact .inl ((List.mem_cons.mp hx).resolve_left hxe)
      · exact .inr (.inl hx)
      · exact .inr (.inr ⟨u, (hback u x hu).2⟩)
  · intro hm
    rcases List.mem_cons.mp hm with rfl | hm
    · exact hra hx
    · exact hi.disjoint x hx hm
  · obtain ⟨hut, hold⟩ := hback u x hu
    obtain ⟨hxret, hxra, hxuniq⟩ := hi.once u x hold
    refine ⟨fun hm => ?_, hxra, fun v hv => hxuniq v (hback v x hv).2⟩
    rcases List.mem_cons.mp hm with rfl | hm
    · exact hut (huniq u hold)
    · exact hxret hm

theorem Inv.countOut {t : ℕ} (hi : s.Inv w)
    (ht : s.claims t = some .counted ∨ s.claims t = some .registered) :
    Inv w { s.setClaim t none with claimsInFlight := s.claimsInFlight - 1 } := by
  have hin : s.claims t ≠ none := by rcases ht with ht | ht <;> simp [ht]
  have hne : ∀ e, s.claims t ≠ some (.committed e) := by
    intro e
    rcases ht with ht | ht <;> simp [ht]
  have hback : ∀ u e, (s.setClaim t none).claims u = some (.committed e) →
      u ≠ t ∧ s.claims u = some (.committed e) :=
    fun u e hu => claims_of_setClaim (by simp) hu
  refine { hi with
    count := Counts.remove hi.count hin
    covered := fun pk r hr hrun => (hi.covered pk r hr hrun).setClaim (hne _)
    granted := fun x hx => hi.granted x ?_
    once := fun u x hu => ?_
    looks := fun l => (hi.looks l).mono
      (evolves_of_table rfl (fun _ h => h) (fun _ h => h) le_rfl
        fun _ hq => absurd hq (not_quiet hin)) hi.rows }
  · exact hx.imp_right fun h => h.imp_right fun ⟨u, hu⟩ => ⟨u, (hback u x hu).2⟩
  · obtain ⟨hret, hra, huniq⟩ := hi.once u x (hback u x hu).2
    exact ⟨hret, hra, fun v hv => huniq v (hback v x hv).2⟩

/-- The claim raises. Where it had committed a row, the row is what it leaves behind. -/
theorem Inv.raise {t : ℕ} {c : Claiming} {ra : List Entry} {noted : Bool} (hi : s.Inv w)
    (ht : s.claims t = some c)
    (hra : (∀ e, c ≠ .committed e) ∧ ra = s.raised ∨ ∃ e, c = .committed e ∧ ra = e :: s.raised) :
    Inv w { s.setClaim t none with
      claimsInFlight := s.claimsInFlight - 1
      claimUnconfirmed := s.claimUnconfirmed || noted
      raised := ra } := by
  have hin : s.claims t ≠ none := by simp [ht]
  have hback : ∀ u e, (s.setClaim t none).claims u = some (.committed e) →
      u ≠ t ∧ s.claims u = some (.committed e) :=
    fun u e hu => claims_of_setClaim (by simp) hu
  have hsub : s.raised ⊆ ra := by
    rcases hra with ⟨-, rfl⟩ | ⟨e, -, rfl⟩
    · exact fun _ h => h
    · exact List.subset_cons_self _ _
  have hnew : ∀ x ∈ ra, x ∈ s.raised ∨ s.claims t = some (.committed x) := by
    intro x hx
    rcases hra with ⟨-, rfl⟩ | ⟨e, rfl, rfl⟩
    · exact .inl hx
    · rcases List.mem_cons.mp hx with rfl | hx
      · exact .inr ht
      · exact .inl hx
  have hleft : ∀ x, s.claims t = some (.committed x) → x ∈ ra := by
    intro x hx
    obtain rfl : c = .committed x := Option.some.inj (ht.symm.trans hx)
    rcases hra with ⟨hne, -⟩ | ⟨e, he, rfl⟩
    · exact absurd rfl (hne x)
    · obtain rfl := Claiming.committed.inj he
      exact List.mem_cons_self
  refine { hi with
    count := Counts.remove hi.count hin
    covered := fun pk r hr hrun => ?_
    granted := fun x hx => ?_
    disjoint := fun x hx => ?_
    once := fun u x hu => ?_
    looks := fun l => (hi.looks l).mono
      (evolves_of_table rfl (fun _ h => h) hsub le_rfl
        fun _ hq => absurd hq (not_quiet hin)) hi.rows }
  · by_cases hx : s.claims t = some (.committed (pk, r.row.leaseEpoch))
    · exact .inr (.inr (.inr (.inl (hleft _ hx))))
    · rcases (hi.covered pk r hr hrun).setClaim (c := none) hx with h | h | h | h | h
      · exact .inl h
      · exact .inr (.inl h)
      · exact .inr (.inr (.inl h))
      · exact .inr (.inr (.inr (.inl (hsub h))))
      · exact .inr (.inr (.inr (.inr h)))
  · apply hi.granted x
    rcases hx with hx | hx | ⟨u, hu⟩
    · exact .inl hx
    · exact .inr ((hnew x hx).imp_right fun h => ⟨t, h⟩)
    · exact .inr (.inr ⟨u, (hback u x hu).2⟩)
  · rcases hnew x hx with h | h
    · exact hi.disjoint x h
    · exact (hi.once t x h).1
  · obtain ⟨hut, hold⟩ := hback u x hu
    obtain ⟨hret, hxra, huniq⟩ := hi.once u x hold
    refine ⟨hret, fun hm => ?_, fun v hv => huniq v (hback v x hv).2⟩
    rcases hnew x hm with h | h
    · exact hxra h
    · exact hut (huniq t h).symm

/-- A step on the three sets: it registers only claims that returned, and what it takes out of
them all is done. -/
theorem Inv.entries_step {h f u : List Entry} (hi : s.Inv w)
    (hsub : ∀ e, e ∈ h ∨ e ∈ f ∨ e ∈ u → e ∈ s.returned)
    (hkeep : ∀ e, e ∈ s.handedOff ∨ e ∈ s.inFlight ∨ e ∈ s.unsettled →
      (e ∈ h ∨ e ∈ f ∨ e ∈ u) ∨ ∃ r, s.table.rows e.1 = some r ∧ r.Done w e.2) :
    Inv w { s with handedOff := h, inFlight := f, unsettled := u } := by
  refine { hi with
    covered := fun pk r hr hrun => ?_
    entries := hsub
    looks := fun l => (hi.looks l).mono
      (evolves_of_table rfl (fun _ h => h) (fun _ h => h) le_rfl fun _ hq => hq) hi.rows }
  have hold : (pk, r.row.leaseEpoch) ∈ s.handedOff ∨ (pk, r.row.leaseEpoch) ∈ s.inFlight ∨
      (pk, r.row.leaseEpoch) ∈ s.unsettled → Covered
        { s with handedOff := h, inFlight := f, unsettled := u } (pk, r.row.leaseEpoch) := by
    intro hm
    rcases hkeep _ hm with (hm | hm | hm) | ⟨r₀, hr₀, hd⟩
    · exact .inl hm
    · exact .inr (.inl hm)
    · exact .inr (.inr (.inl hm))
    · obtain rfl : r = r₀ := Option.some.inj (hr.symm.trans hr₀)
      exact absurd ⟨hrun, rfl⟩ hd.2
  rcases hi.covered pk r hr hrun with hm | hm | hm | hm | hm
  · exact hold (.inl hm)
  · exact hold (.inr (.inl hm))
  · exact hold (.inr (.inr hm))
  · exact .inr (.inr (.inr (.inl hm)))
  · exact .inr (.inr (.inr (.inr hm)))

theorem mem_discard {l : List Entry} {e x : Entry} : x ∈ discard l e ↔ x ∈ l ∧ x ≠ e := by
  simp [discard]

theorem Inv.execute {e : Entry} (hi : s.Inv w) (he : e ∈ s.returned) :
    Inv w { s with handedOff := discard s.handedOff e, inFlight := e :: s.inFlight } := by
  apply hi.entries_step
  · intro x hx
    have hent := hi.entries x
    simp only [mem_discard, List.mem_cons] at hx
    by_cases hxe : x = e
    · exact hxe ▸ he
    · grind
  · intro x hx
    left
    simp only [mem_discard, List.mem_cons]
    by_cases hxe : x = e
    · exact .inr (.inl (.inl hxe))
    · grind

theorem Inv.exit {e : Entry} {recorded : Bool} (hi : s.Inv w) (he : e ∈ s.returned)
    (hrec : recorded = true →
      (s.table.rows e.1).any fun r => .answered e.2 ∈ r.log) :
    Inv w { s with
      inFlight := discard s.inFlight e
      unsettled := if recorded then discard s.unsettled e else e :: s.unsettled } := by
  apply hi.entries_step
  · intro x hx
    have hent := hi.entries x
    cases recorded with
    | false =>
      simp only [mem_discard, List.mem_cons, Bool.false_eq_true, if_false] at hx
      by_cases hxe : x = e
      · exact hxe ▸ he
      · grind
    | true =>
      simp only [mem_discard, if_true] at hx
      grind
  · intro x hx
    by_cases hxe : x = e
    · subst hxe
      cases recorded with
      | false => exact .inl (.inr (.inr List.mem_cons_self))
      | true =>
        right
        obtain ⟨r, hr, hg⟩ := hi.granted x (.inl he)
        have ha := hrec rfl
        simp only [hr, Option.any_some, decide_eq_true_eq] at ha
        exact ⟨r, hr, RowState.done_of_answered (hi.rows _ _ hr) hg ha⟩
    · left
      cases recorded with
      | false =>
        simp only [mem_discard, List.mem_cons, Bool.false_eq_true, if_false]
        grind
      | true =>
        simp only [mem_discard, if_true]
        grind

theorem Inv.stuck {e : Entry} (hi : s.Inv w) (he : e ∈ s.returned) :
    Inv w { s with inFlight := discard s.inFlight e, unsettled := e :: s.unsettled } :=
  @Inv.exit w s e false hi he (by simp)

/-! What each step of a look may rely on afterwards. -/

theorem mem_found {cutoff leaseNow : ℤ} {f : Found} (hf : f ∈ s.found w cutoff leaseNow) :
    ∃ r, s.table.rows f.pk = some r ∧ r.row.RunningUnder w ∧
      f = ⟨f.pk, r.row, decide (r.row.Abandoned cutoff leaseNow)⟩ := by
  unfold found at hf
  obtain ⟨⟨pk, r⟩, hx, rfl⟩ := List.mem_map.mp hf
  obtain ⟨hr, hrun⟩ := Table.mem_select.mp hx
  exact ⟨r, hr, hrun, rfl⟩

theorem Inv.lookOk_check (hi : s.Inv w) (h : s.claimsInFlight = 0) :
    s.LookOk w (.checked s.claimGeneration) :=
  ⟨le_rfl, fun _ => hi.quiet h⟩

theorem Inv.lookOk_snapshot {g : ℕ} (hi : s.Inv w) (h : s.LookOk w (.checked g)) :
    s.LookOk w (.snapped g (s.inFlight ++ s.handedOff ++ s.unsettled)
      (s.handedOff ++ s.unsettled)) := by
  obtain ⟨hg, hq⟩ := h
  refine ⟨hg, fun e he => ?_, fun heq => ⟨hq heq, fun pk r hr hrun => ?_⟩⟩
  · apply hi.entries e
    rcases List.mem_append.mp he with he | he
    · exact .inl he
    · exact .inr (.inr he)
  · -- no claim is in flight, so the row's claim is registered or it raised
    have hknown : ∀ e, e ∈ s.handedOff ∨ e ∈ s.inFlight ∨ e ∈ s.unsettled →
        e.1 ∈ (s.inFlight ++ s.handedOff ++ s.unsettled).map Prod.fst := by
      intro e he
      apply List.mem_map_of_mem
      simp only [List.mem_append]
      tauto
    rcases hi.covered pk r hr hrun with hm | hm | hm | hm | ⟨t, ht⟩
    · exact .inl (hknown _ (.inl hm))
    · exact .inl (hknown _ (.inr (.inl hm)))
    · exact .inl (hknown _ (.inr (.inr hm)))
    · exact .inr hm
    · simp [hq heq t] at ht

/-- A version of its row that shows an examined claim over. -/
theorem Inv.done_of_read {examined : List Entry} {pk : TaskId} {r : RowState} {e : Entry}
    (hi : s.Inv w) (hex : examined ⊆ s.returned) (hr : s.table.rows pk = some r)
    (he : e ∈ examined) (hpk : pk = e.1) (ho : r.row.Over w e.2) :
    ∃ r, s.table.rows e.1 = some r ∧ r.Done w e.2 := by
  obtain ⟨r₀, hr₀, hg⟩ := hi.granted e (.inl (hex he))
  have hrr : r = r₀ := Option.some.inj ((hpk ▸ hr).symm.trans hr₀)
  exact ⟨r₀, hr₀, RowState.done_of_over hg (hrr ▸ ho)⟩

theorem Inv.lookOk_readRows {g : ℕ} {known examined : List Entry} {cutoff leaseNow : ℤ}
    {unseen : List TaskId} (hi : s.Inv w) (h : s.LookOk w (.snapped g known examined)) :
    s.LookOk w (.examining g known examined (s.found w cutoff leaseNow)
      ((s.found w cutoff leaseNow).map fun f => (f.pk, f.row)) unseen) := by
  obtain ⟨hg, hex, hq⟩ := h
  refine ⟨hg, hex, fun f hf => ?_, fun heq f hf => ?_, fun x hx e he hpk ho => ?_⟩
  · obtain ⟨r, hr, hrun, hfr⟩ := mem_found hf
    have hrow : f.row = r.row := congrArg Found.row hfr
    exact ⟨hrow ▸ hrun, r, hr, hrow ▸ List.mem_cons_self⟩
  · obtain ⟨r, hr, hrun, hfr⟩ := mem_found hf
    have hrow : f.row = r.row := congrArg Found.row hfr
    unfold Explained
    rw [hrow]
    exact (hq heq).2 f.pk r hr hrun
  · obtain ⟨f, hf, rfl⟩ := List.mem_map.mp hx
    obtain ⟨r, hr, -, hfr⟩ := mem_found hf
    have hrow : f.row = r.row := congrArg Found.row hfr
    exact hi.done_of_read hex hr he hpk (hrow ▸ ho)

theorem Inv.lookOk_readUnseen {g : ℕ} {known examined : List Entry} {rows : List Found}
    {state : List (TaskId × OxTask)} {unseen pks left : List TaskId} (hi : s.Inv w)
    (h : s.LookOk w (.examining g known examined rows state unseen)) :
    s.LookOk w (.examining g known examined rows (state ++ s.readChunk pks) left) := by
  obtain ⟨hg, hex, hseen, hexp, hev⟩ := h
  refine ⟨hg, hex, hseen, hexp, fun x hx e he hpk ho => ?_⟩
  rcases List.mem_append.mp hx with hx | hx
  · exact hev x hx e he hpk ho
  · obtain ⟨k, -, hx⟩ := List.mem_filterMap.mp hx
    obtain ⟨r, hr, rfl⟩ := Option.map_eq_some_iff.mp hx
    exact hi.done_of_read hex hr he hpk ho

theorem LookOk.compare {g : ℕ} {known : List Entry} {rows : List Found}
    (h : s.LookOk w (.comparing g known rows)) (hg : s.claimGeneration = g) :
    s.LookOk w (.releasing g (rows.filter fun f => f.pk ∉ known.map Prod.fst)) := by
  obtain ⟨-, hseen, hexp⟩ := h
  intro f hf
  obtain ⟨hf, hk⟩ := List.mem_filter.mp hf
  exact ⟨hseen f hf, (hexp hg f hf).resolve_left (by simpa using hk)⟩

/-- The entries a look drops are those of claims that are done. -/
theorem Inv.dropOver {g : ℕ} {known examined : List Entry} {rows : List Found}
    {state : List (TaskId × OxTask)} {unseen : List TaskId} (hi : s.Inv w)
    (h : s.LookOk w (.examining g known examined rows state unseen)) :
    Inv w { s with
      handedOff := s.handedOff.filter (· ∉ overEntries w examined state)
      unsettled := s.unsettled.filter (· ∉ overEntries w examined state) } := by
  obtain ⟨-, -, -, -, hev⟩ := h
  have hdone : ∀ e ∈ overEntries w examined state, ∃ r, s.table.rows e.1 = some r ∧ r.Done w e.2 := by
    intro e he
    obtain ⟨hex, hany⟩ := List.mem_filter.mp he
    obtain ⟨x, hx, hxe⟩ := List.any_eq_true.mp hany
    obtain ⟨hpk, ho⟩ := of_decide_eq_true hxe
    exact hev x hx e hex hpk ho
  have hmem : ∀ {l : List Entry} {e : Entry},
      e ∈ l.filter (· ∉ overEntries w examined state) ↔ e ∈ l ∧ e ∉ overEntries w examined state := by
    intro l e
    simp
  apply hi.entries_step
  · intro e he
    simp only [hmem] at he
    have hent := hi.entries e
    tauto
  · intro e he
    by_cases hov : e ∈ overEntries w examined state
    · exact .inr (hdone e hov)
    · left
      simp only [hmem]
      tauto

theorem Inv.releaseNext {l g : ℕ} {f : Found} {rows : List Found} (hi : s.Inv w)
    (h : s.LookOk w (.releasing g (f :: rows))) :
    Inv w { s.setLook l (.releasing g rows) with
      table := s.table.update fun pk r => if pk = f.pk then releaseRow w f r else none } := by
  obtain ⟨hf, hrows⟩ := List.forall_mem_cons.mp h
  have hset := settles_release hf.1
  have hok : s.LookOk w (.releasing g rows) := hrows
  exact (hi.settles hset).setLook (hok.mono hset.evolves hi.rows)

theorem step_inv {a : WorkerAction} (hi : s.Inv w) (h : WorkerState.step w s a = some s') :
    s'.Inv w := by
  cases a with
  | row pk a =>
    obtain ⟨ha, h⟩ := Option.ite_none_right_eq_some.mp h
    obtain ⟨r, hr, h⟩ := Option.bind_eq_some_iff.mp h
    obtain ⟨r', hr', rfl⟩ := Option.map_eq_some_iff.mp h
    exact hi.settles (settles_put ha hr hr')
  | countIn t =>
    obtain ⟨ht, h⟩ := Option.ite_none_right_eq_some.mp h
    obtain rfl := Option.some.inj h
    exact hi.countIn ht
  | commit t pk a =>
    obtain ⟨⟨ht, ha⟩, h⟩ := Option.ite_none_right_eq_some.mp h
    obtain ⟨r, hr, h⟩ := Option.bind_eq_some_iff.mp h
    obtain ⟨r', hr', rfl⟩ := Option.map_eq_some_iff.mp h
    exact hi.commit ht ha hr hr'
  | missed t =>
    simp only [WorkerState.step] at h
    split at h
    · next e ht =>
      obtain ⟨hrow, h⟩ := Option.ite_none_right_eq_some.mp h
      obtain rfl := Option.some.inj h
      refine hi.missed ht fun r hr => ?_
      simpa [hr] using hrow
    · cases h
  | register t =>
    simp only [WorkerState.step] at h
    split at h
    · next e ht =>
      obtain rfl := Option.some.inj h
      exact hi.register ht
    · cases h
  | countOut t =>
    obtain ⟨ht, h⟩ := Option.ite_none_right_eq_some.mp h
    obtain rfl := Option.some.inj h
    exact hi.countOut ht
  | raise t noted =>
    simp only [WorkerState.step] at h
    split at h
    · next c ht =>
      obtain rfl := Option.some.inj h
      apply hi.raise ht
      cases c with
      | committed e => exact .inr ⟨e, rfl, rfl⟩
      | counted => exact .inl ⟨by simp, rfl⟩
      | registered => exact .inl ⟨by simp, rfl⟩
    · cases h
  | execute e =>
    obtain ⟨he, h⟩ := Option.ite_none_right_eq_some.mp h
    obtain rfl := Option.some.inj h
    exact hi.execute he
  | exit e recorded =>
    obtain ⟨⟨he, hrec⟩, h⟩ := Option.ite_none_right_eq_some.mp h
    obtain rfl := Option.some.inj h
    exact hi.exit he hrec
  | stuck e =>
    obtain ⟨he, h⟩ := Option.ite_none_right_eq_some.mp h
    obtain rfl := Option.some.inj h
    exact hi.stuck he
  | check l expired =>
    simp only [WorkerState.step] at h
    split at h
    · obtain ⟨hc, h⟩ := Option.ite_none_right_eq_some.mp h
      split_ifs at h
      · obtain rfl := Option.some.inj h
        exact hi.confirm false
      · obtain rfl := Option.some.inj h
        exact hi.setLook (hi.lookOk_check hc.1)
    · cases h
  | snapshot l =>
    simp only [WorkerState.step] at h
    split at h
    · next g hl =>
      obtain rfl := Option.some.inj h
      exact hi.setLook (hi.lookOk_snapshot (hl ▸ hi.looks l))
    · cases h
  | readRows l cutoff leaseNow =>
    simp only [WorkerState.step] at h
    split at h
    · next g known examined hl =>
      obtain rfl := Option.some.inj h
      exact hi.setLook (hi.lookOk_readRows (hl ▸ hi.looks l))
    · cases h
  | readUnseen l chunk =>
    simp only [WorkerState.step] at h
    split at h
    · next g known examined rows state pks hl =>
      obtain ⟨-, h⟩ := Option.ite_none_right_eq_some.mp h
      obtain rfl := Option.some.inj h
      exact hi.setLook (hi.lookOk_readUnseen (hl ▸ hi.looks l))
    · cases h
  | dropOver l =>
    simp only [WorkerState.step] at h
    split at h
    · next g known examined rows state hl =>
      obtain rfl := Option.some.inj h
      have hok : s.LookOk w (.examining g known examined rows state []) := hl ▸ hi.looks l
      have hnext : s.LookOk w (.comparing g known rows) := ⟨hok.1, hok.2.2.1, hok.2.2.2.1⟩
      exact (hi.dropOver hok).setLook hnext
    · cases h
  | compare l =>
    simp only [WorkerState.step] at h
    split at h
    · next g known rows hl =>
      have hok : s.LookOk w (.comparing g known rows) := hl ▸ hi.looks l
      split_ifs at h with hg
      · obtain rfl := Option.some.inj h
        exact hi.setLook (hok.compare hg)
      · obtain rfl := Option.some.inj h
        exact hi.setLook trivial
    · cases h
  | releaseNext l =>
    simp only [WorkerState.step] at h
    split at h
    · next g f rows hl =>
      obtain rfl := Option.some.inj h
      exact hi.releaseNext (hl ▸ hi.looks l)
    · cases h
  | clear l =>
    simp only [WorkerState.step] at h
    split at h
    · split_ifs at h
      · obtain rfl := Option.some.inj h
        have hidle : s.LookOk w .idle := trivial
        exact (hi.setLook hidle).confirm false
      · obtain rfl := Option.some.inj h
        exact hi.setLook trivial
    · cases h
  | fail l =>
    obtain rfl := Option.some.inj h
    exact hi.setLook trivial

theorem reachable_inv (h : (workerSystem w).Reachable s) : s.Inv w :=
  h.invariant (Inv w) (fun _ hs => inv_of_start hs) fun _ _ _ hi hs => step_inv hi hs

end WorkerState

/-- A row that a look's release changes was RUNNING under a claim that committed and raised, and
that claim returned to no caller. The row goes back to READY at a new epoch. -/
theorem look_releases_raised {w : Worker} {s s' : WorkerState} {l : ℕ} {pk : TaskId}
    {r r' : RowState} (hs : (workerSystem w).Reachable s)
    (h : (workerSystem w).step s (.releaseNext l) = some s')
    (hr : s.table.rows pk = some r) (hr' : s'.table.rows pk = some r') (hne : r' ≠ r) :
    r.row.RunningUnder w ∧ (pk, r.row.leaseEpoch) ∈ s.raised ∧
      (pk, r.row.leaseEpoch) ∉ s.returned ∧
      r'.row.status = .ready ∧ r'.row.leaseEpoch = r.row.leaseEpoch + 1 := by
  have hi := WorkerState.reachable_inv hs
  change WorkerState.step w s (.releaseNext l) = some s' at h
  simp only [WorkerState.step] at h
  split at h
  · next g f rows hl =>
    obtain rfl := Option.some.inj h
    have hok : s.LookOk w (.releasing g (f :: rows)) := hl ▸ hi.looks l
    obtain ⟨-, hra⟩ := hok f List.mem_cons_self
    simp only [Table.rows_update, hr, Option.map_some, Option.some.injEq] at hr'
    by_cases hpk : pk = f.pk
    · rw [if_pos hpk] at hr'
      cases hrel : WorkerState.releaseRow w f r with
      | none => exact absurd (by simpa [hrel] using hr'.symm) hne
      | some x =>
        obtain ⟨-, ⟨hrun, hep⟩, rfl⟩ := WorkerState.releaseRow_eq_some.mp hrel
        have hrx : r.commit .recovered (r.row.refunded f.row) = r' := by simpa [hrel] using hr'
        have hentry : (pk, r.row.leaseEpoch) ∈ s.raised := by rwa [hpk, hep]
        refine ⟨hrun, hentry, hi.disjoint _ hentry, ?_, ?_⟩
        · rw [← hrx]
          rfl
        · rw [← hrx, hep]
          rfl
    · rw [if_neg hpk] at hr'
      exact absurd hr'.symm hne
  · cases h

/-- A worker over one enqueued row, with nothing claimed. -/
def freshWorker : WorkerState where
  table := .single 7 (enqueuedState 3)
  claimsInFlight := 0
  claimGeneration := 0
  claimUnconfirmed := false
  handedOff := []
  inFlight := []
  unsettled := []
  claims _ := none
  looks _ := .idle
  returned := []
  raised := []

theorem freshWorker_start : freshWorker.Start (soloWorker "w1") := by
  refine ⟨fun pk r hr => ?_, rfl, fun _ => rfl, fun _ => rfl, rfl, rfl, rfl, rfl, rfl⟩
  have hrow : r = enqueuedState 3 := by
    simp only [freshWorker, Table.single, Option.ite_none_right_eq_some, Option.some.injEq] at hr
    exact hr.2.symm
  subst hrow
  exact ⟨.init (enqueuedState_fresh 3), by decide⟩

/-- A claim commits and raises, and the next look puts its row back. -/
theorem look_releases_raised_claim :
    ∃ s s', (workerSystem (soloWorker "w1")).run freshWorker
        [.countIn 0, .commit 0 7 (.claimPostgresql (soloWorker "w1") 5 5), .raise 0 true,
          .check 0 false, .snapshot 0, .readRows 0 (-90) 6, .dropOver 0, .compare 0] = some s ∧
      (workerSystem (soloWorker "w1")).step s (.releaseNext 0) = some s' ∧
      (7, 1) ∈ s.raised ∧ (7, 1) ∉ s.returned ∧
      (s'.table.rows 7).map (fun r => (r.row.status, r.row.leaseEpoch)) = some (.ready, 2) := by
  have released : ∀ s s' r r', (workerSystem (soloWorker "w1")).run freshWorker
        [.countIn 0, .commit 0 7 (.claimPostgresql (soloWorker "w1") 5 5), .raise 0 true,
          .check 0 false, .snapshot 0, .readRows 0 (-90) 6, .dropOver 0, .compare 0] = some s →
      (workerSystem (soloWorker "w1")).step s (.releaseNext 0) = some s' →
      s.table.rows 7 = some r → s'.table.rows 7 = some r' → r' ≠ r →
      (7, r.row.leaseEpoch) ∈ s.raised ∧ (7, r.row.leaseEpoch) ∉ s.returned := by
    intro s s' r r' hrun hstep hr hr' hne
    obtain ⟨-, hra, hret, -⟩ :=
      look_releases_raised (.of_run freshWorker_start hrun) hstep hr hr' hne
    exact ⟨hra, hret⟩
  have hdone := released _ _ _ _ rfl rfl rfl rfl (fun h => by
    have := congrArg (fun r => r.row.status) h
    cases this)
  exact ⟨_, _, rfl, rfl, hdone.1, hdone.2, rfl⟩

end DjangoOx
