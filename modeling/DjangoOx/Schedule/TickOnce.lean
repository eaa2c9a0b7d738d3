import DjangoOx.Schedule.TickLog

/-! When a due tick fires at most once, and the prune that makes it fire again. -/
namespace DjangoOx

open Machine

/-- The instant of a pass that has read the tick log and has not inserted its row. -/
def DispatchPass.awaits : DispatchPass → Option ℤ
  | .compared _ a | .cleared a | .refreshed a _ => some a.scheduledFor
  | .admitted d => some d.scheduledFor
  | _ => none

/-- The rows a prune is about to delete. -/
def TickPrune.doomedRows : TickPrune → List TickRow
  | .doomed _ _ _ _ ticks => ticks
  | _ => []

namespace DispatchState

variable {src : Source} {s s' : DispatchState}

/-- The instants that committed with a task. -/
def fired (s : DispatchState) : List ℤ :=
  instants (s.ever.filter fun r => r.task.isSome)

/-- The instant has fired, and its row has been pruned. -/
def Gone (s : DispatchState) (t : ℤ) : Prop := t ∈ s.fired ∧ t ∉ instants s.log

/-- No prune deletes a fired instant that a pass has read the log for and not yet inserted; and a
pass whose newest tick is in the future looks for an instant that has not been fired and pruned. -/
def PrunesApart (s : DispatchState) : DispatchAction → Prop
  | .check p => ∀ cached a, s.passes p = .compared cached a →
      (∃ l ∈ a.last, a.now < l) → ¬ s.Gone a.scheduledFor
  | .delete q => ∀ r ∈ s.log, r.pk ∈ (s.prunes q).doomedRows.map (·.pk) →
      ∀ p, (s.passes p).awaits = some r.scheduledFor → r.scheduledFor ∉ s.fired
  | _ => True

/-- What a run of such steps keeps. -/
structure OnceInv (s : DispatchState) : Prop where
  once : s.fired.Nodup
  waiting : ∀ p t, (s.passes p).awaits = some t → s.Gone t →
    ∃ cached a, s.passes p = .compared cached a ∧ ∃ l ∈ a.last, a.now < l
  claimed : ∀ p t pk, (s.passes p).claim = some (t, pk) → t ∉ s.fired

theorem fired_of_eq (h : s'.ever = s.ever) : s'.fired = s.fired := by
  unfold fired
  rw [h]

/-- A step that records nothing and deletes nothing. -/
theorem OnceInv.of_eq (hi : s.OnceInv) (hlog : s'.log = s.log) (hever : s'.ever = s.ever)
    (hwait : ∀ p t, (s'.passes p).awaits = some t → s.Gone t →
      ∃ cached a, s'.passes p = .compared cached a ∧ ∃ l ∈ a.last, a.now < l)
    (hclaim : ∀ p t pk, (s'.passes p).claim = some (t, pk) → t ∉ s.fired) : s'.OnceInv where
  once := fired_of_eq hever ▸ hi.once
  waiting p t h hg := by
    unfold Gone at hg
    rw [fired_of_eq hever, hlog] at hg
    exact hwait p t h hg
  claimed p t pk h := by
    rw [fired_of_eq hever]
    exact hclaim p t pk h

/-- One pass moves on. -/
theorem OnceInv.setPass {p : ℕ} {x : DispatchPass} (hi : s.OnceInv)
    (hwait : ∀ t, x.awaits = some t → s.Gone t →
      ∃ cached a, x = .compared cached a ∧ ∃ l ∈ a.last, a.now < l)
    (hclaim : ∀ t pk, x.claim = some (t, pk) → t ∉ s.fired) : (s.setPass p x).OnceInv := by
  refine hi.of_eq rfl rfl (fun q t h hg => ?_) fun q t pk h => ?_
  · rw [passes_setPass] at h ⊢
    by_cases hq : q = p
    · rw [if_pos hq] at h ⊢
      exact hwait t h hg
    · rw [if_neg hq] at h ⊢
      exact hi.waiting q t h hg
  · rw [passes_setPass] at h
    by_cases hq : q = p
    · rw [if_pos hq] at h
      exact hclaim t pk h
    · rw [if_neg hq] at h
      exact hi.claimed q t pk h

theorem OnceInv.release {p : ℕ} (hi : s.OnceInv) : (s.release p).OnceInv := by
  have hidle : (s.setPass p .idle).OnceInv := by
    apply hi.setPass <;> simp [DispatchPass.awaits, DispatchPass.claim]
  exact hidle.of_eq rfl rfl hidle.waiting hidle.claimed

theorem OnceInv.decide {p pk : ℕ} {d : Admission} {e : ℤ} (hi : s.OnceInv)
    (hd : d.scheduledFor ∉ s.fired) : (s.decide p d pk e).OnceInv := by
  unfold DispatchState.decide
  split_ifs
  · exact hi.release
  · refine hi.setPass (by simp [DispatchPass.awaits]) fun t k h => ?_
    obtain ⟨rfl, -⟩ := Prod.mk.inj (Option.some.inj h)
    exact hd

/-- After the read of the newest tick, an instant that has fired is in the log, unless the newest
tick is ahead of the pass's clock. -/
theorem LogInv.last_of_gone (hl : s.LogInv) {since t : ℤ} (hs : since ≤ t) (hg : s.Gone t) :
    ∃ l ∈ s.latestTick since, t ≤ l := by
  obtain ⟨e, he, rfl⟩ := mem_instants.mp hg.1
  obtain ⟨r, hr, hle⟩ := hl.top e (List.mem_filter.mp he).1
  have hmem : r.scheduledFor ∈ (instants s.log).filter (since ≤ ·) := by
    refine List.mem_filter.mpr ⟨mem_instants.mpr ⟨r, hr, rfl⟩, ?_⟩
    exact decide_eq_true (hs.trans hle)
  unfold latestTick
  cases hm : ((instants s.log).filter (since ≤ ·)).max? with
  | none =>
    rw [List.max?_eq_none_iff.mp hm] at hmem
    cases hmem
  | some l =>
    have hmax := (List.max?_eq_some_iff.mp hm).2 _ hmem
    exact ⟨l, rfl, hle.trans hmax⟩

theorem OnceInv.not_gone {p : ℕ} {t : ℤ} (hi : s.OnceInv) (ha : (s.passes p).awaits = some t)
    (hne : ∀ cached a, s.passes p ≠ .compared cached a) : ¬ s.Gone t := by
  intro hg
  obtain ⟨cached, a, hp, -⟩ := hi.waiting p t ha hg
  exact hne cached a hp

theorem fired_of_cons {r : TickRow} (h : s'.ever = r :: s.ever) :
    s'.fired = if r.task.isSome then r.scheduledFor :: s.fired else s.fired := by
  unfold fired
  rw [h]
  by_cases hr : r.task.isSome <;> simp [hr, instants]

/-- A tick commits: the instant was held by the pass, and had not fired. -/
theorem OnceInv.commit {p j : ℕ} {r : TickRow} (hi : s.OnceInv) (hl : s.LogInv)
    (hc : (s.passes p).claim = some (r.scheduledFor, j)) :
    OnceInv { s.release p with log := r :: s.log, ever := r :: s.ever } := by
  have hnew : r.scheduledFor ∉ s.fired := hi.claimed p _ j hc
  have hrel := hi.release (p := p)
  have hfired : fired { s.release p with log := r :: s.log, ever := r :: s.ever } =
      if r.task.isSome then r.scheduledFor :: s.fired else s.fired := fired_of_cons rfl
  have hcases : ∀ t, t ∈ fired { s.release p with log := r :: s.log, ever := r :: s.ever } →
      t = r.scheduledFor ∨ t ∈ s.fired := by
    intro t ht
    rw [hfired] at ht
    split_ifs at ht
    · exact List.mem_cons.mp ht
    · exact .inr ht
  refine ⟨?_, fun q t h hg => ?_, fun q t k h hm => ?_⟩
  · rw [hfired]
    split_ifs
    · exact List.nodup_cons.mpr ⟨hnew, hi.once⟩
    · exact hi.once
  · obtain ⟨ht, hlog⟩ := hg
    have hne : t ≠ r.scheduledFor := by
      rintro rfl
      exact hlog (mem_instants.mpr ⟨r, List.mem_cons_self, rfl⟩)
    refine hrel.waiting q t h ⟨(hcases t ht).resolve_left hne, fun hm => hlog ?_⟩
    obtain ⟨x, hx, hxt⟩ := mem_instants.mp hm
    exact mem_instants.mpr ⟨x, List.mem_cons_of_mem _ hx, hxt⟩
  · obtain ⟨hq, hold⟩ := claim_release.mp h
    rcases hcases t hm with rfl | hm
    · have hp := (hl.claims p _ j hc).1
      have hq' := (hl.claims q _ k hold).1
      exact hq (Option.some.inj (hq'.symm.trans hp))
    · exact hi.claimed q t k hold hm

/-- A prune deletes rows that no pass in flight is about to insert again. -/
theorem OnceInv.delete {q : ℕ} {x : TickPrune} {pks : List ℕ} (hi : s.OnceInv)
    (hapart : ∀ r ∈ s.log, r.pk ∈ pks → ∀ p, (s.passes p).awaits = some r.scheduledFor →
      r.scheduledFor ∉ s.fired) :
    OnceInv { s.setPrune q x with log := s.log.filter fun r => r.pk ∉ pks } := by
  refine ⟨hi.once, fun p t h hg => ?_, hi.claimed⟩
  obtain ⟨ht, hlog⟩ := hg
  refine hi.waiting p t h ⟨ht, fun hm => ?_⟩
  obtain ⟨r, hr, rfl⟩ := mem_instants.mp hm
  by_cases hpk : r.pk ∈ pks
  · exact hapart r hr hpk p h ht
  · refine hlog (mem_instants.mpr ⟨r, List.mem_filter.mpr ⟨hr, ?_⟩, rfl⟩)
    simpa using hpk

theorem once_of_start (h : s.Start) : s.OnceInv := by
  obtain ⟨-, -, -, -, -, hp, -, -, he⟩ := h
  refine ⟨by simp [fired, he, instants], fun p t h => ?_, fun p t pk h => ?_⟩
  · simp [hp p, DispatchPass.awaits] at h
  · simp [hp p, DispatchPass.claim] at h

theorem once_step {a : DispatchAction} (hi : s.OnceInv) (hl : s.LogInv) (hc : s.PrunesApart a)
    (h : step src s a = some s') : s'.OnceInv := by
  cases a with
  | plan p cached now =>
    simp only [step] at h
    split at h
    · obtain ⟨-, h⟩ := Option.ite_none_right_eq_some.mp h
      obtain ⟨t, -, rfl⟩ := Option.map_eq_some_iff.mp h
      have hread : (s.readClock p now).OnceInv := hi.of_eq rfl rfl hi.waiting hi.claimed
      apply hread.setPass <;> simp [DispatchPass.awaits, DispatchPass.claim]
    · cases h
  | compare p since =>
    simp only [step] at h
    split at h
    · next cached now t hp =>
      obtain ⟨hs, h⟩ := Option.ite_none_right_eq_some.mp h
      split_ifs at h with hsup
      · obtain rfl := Option.some.inj h
        apply hi.setPass <;> simp [DispatchPass.awaits, DispatchPass.claim]
      · obtain rfl := Option.some.inj h
        refine hi.setPass (fun u hu hg => ?_) (by simp [DispatchPass.claim])
        obtain rfl : t = u := Option.some.inj hu
        obtain ⟨l, hlast, hle⟩ := hl.last_of_gone hs hg
        refine ⟨_, _, rfl, l, hlast, ?_⟩
        by_contra hnow
        exact hsup (.inr ⟨l, hlast, hle, not_lt.mp hnow⟩)
    · cases h
  | check p =>
    simp only [step] at h
    split at h
    · next cached a hp =>
      split_ifs at h
      · obtain rfl := Option.some.inj h
        apply hi.setPass <;> simp [DispatchPass.awaits, DispatchPass.claim]
      · obtain rfl := Option.some.inj h
        apply hi.setPass <;> simp [DispatchPass.awaits, DispatchPass.claim]
      · obtain rfl := Option.some.inj h
        refine hi.setPass (fun u hu hg => ?_) (by simp [DispatchPass.claim])
        obtain rfl : a.scheduledFor = u := Option.some.inj hu
        obtain ⟨cached', a', hp', hlast⟩ := hi.waiting p _ (by rw [hp]; rfl) hg
        obtain ⟨-, rfl⟩ := DispatchPass.compared.inj (hp.symm.trans hp')
        exact absurd hg (hc cached a hp hlast)
    · cases h
  | refresh p registered =>
    have hmove : ∀ a c, s.passes p = .cleared a → (s.setPass p (.refreshed a c)).OnceInv := by
      intro a c hp
      refine hi.setPass (fun u hu hg => ?_) (by simp [DispatchPass.claim])
      exact absurd hg (hi.not_gone (by rw [hp]; exact hu) (by simp [hp]))
    simp only [step] at h
    split at h
    · next hp =>
      obtain rfl := Option.some.inj h
      exact hmove _ _ hp
    · next hp =>
      obtain ⟨-, h⟩ := Option.ite_none_right_eq_some.mp h
      split at h
      · next c _ =>
        obtain rfl := Option.some.inj h
        have hset := hmove _ c hp
        exact hset.of_eq rfl rfl hset.waiting hset.claimed
      · obtain rfl := Option.some.inj h
        apply hi.setPass <;> simp [DispatchPass.awaits, DispatchPass.claim]
    · cases h
  | recheckDue p now =>
    simp only [step] at h
    split at h
    · next a c hp =>
      obtain ⟨-, h⟩ := Option.ite_none_right_eq_some.mp h
      have hread : (s.readClock p now).OnceInv := hi.of_eq rfl rfl hi.waiting hi.claimed
      split_ifs at h
      · obtain rfl := Option.some.inj h
        refine hread.setPass (fun u hu hg => ?_) (by simp [DispatchPass.claim])
        exact absurd hg (hi.not_gone (by rw [hp]; exact hu) (by simp [hp]))
      · obtain rfl := Option.some.inj h
        exact hread.release
    · cases h
  | insert p =>
    simp only [step] at h
    split at h
    · next d hp =>
      split_ifs at h with hlog hins
      · obtain rfl := Option.some.inj h
        exact hi.release
      · obtain rfl := Option.some.inj h
        have hnot := hi.not_gone (p := p) (t := d.scheduledFor) (by rw [hp]; rfl) (by simp [hp])
        have hset : (s.setPass p (.claimed d s.nextPk)).OnceInv := by
          refine hi.setPass (by simp [DispatchPass.awaits]) fun t k h => ?_
          obtain ⟨rfl, -⟩ := Prod.mk.inj (Option.some.inj h)
          exact fun hf => hnot ⟨hf, hlog⟩
        exact hset.of_eq rfl rfl hset.waiting hset.claimed
    · cases h
  | anchor p =>
    simp only [step] at h
    split at h
    · next d pk hp =>
      have hd : d.scheduledFor ∉ s.fired := hi.claimed p _ pk (by rw [hp]; rfl)
      have hmove : ∀ x : DispatchPass, x.awaits = none → x.claim = some (d.scheduledFor, pk) →
          (s.setPass p x).OnceInv := by
        intro x hx hxc
        refine hi.setPass (by simp [hx]) fun t k h => ?_
        obtain ⟨rfl, -⟩ := Prod.mk.inj (Option.some.inj (hxc.symm.trans h))
        exact hd
      split_ifs at h
      · split at h
        · obtain rfl := Option.some.inj h
          exact hi.decide hd
        · obtain rfl := Option.some.inj h
          exact hmove _ rfl rfl
      · obtain rfl := Option.some.inj h
        exact hmove _ rfl rfl
    · cases h
  | latch p =>
    simp only [step] at h
    split at h
    · next d pk hp =>
      have hd : d.scheduledFor ∉ s.fired := hi.claimed p _ pk (by rw [hp]; rfl)
      obtain ⟨-, h⟩ := Option.ite_none_right_eq_some.mp h
      obtain rfl := Option.some.inj h
      have hset : (s.setPass p (.latched d pk)).OnceInv := by
        refine hi.setPass (by simp [DispatchPass.awaits]) fun t k h => ?_
        obtain ⟨rfl, -⟩ := Prod.mk.inj (Option.some.inj h)
        exact hd
      exact hset.of_eq rfl rfl hset.waiting hset.claimed
    · cases h
  | relook p =>
    simp only [step] at h
    split at h
    · next d pk hp =>
      have hd : d.scheduledFor ∉ s.fired := hi.claimed p _ pk (by rw [hp]; rfl)
      split at h
      · obtain rfl := Option.some.inj h
        exact hi.decide hd
      · obtain rfl := Option.some.inj h
        refine hi.setPass (by simp [DispatchPass.awaits]) fun t k h => ?_
        obtain ⟨rfl, -⟩ := Prod.mk.inj (Option.some.inj h)
        exact hd
    · cases h
  | commit p task =>
    simp only [step] at h
    split at h
    · next d pk fires hp =>
      obtain rfl := Option.some.inj h
      refine hi.commit (j := pk) hl ?_
      rw [hp]
      rfl
    · cases h
  | abort p =>
    obtain rfl := Option.some.inj h
    exact hi.release
  | delete q =>
    simp only [step] at h
    split at h
    · next cutoff size anchor rows doomed hq =>
      obtain rfl := Option.some.inj h
      refine hi.delete fun r hr hpk => hc r hr ?_
      rw [hq]
      exact hpk
    · cases h
  | _ =>
    simp only [step] at h
    repeat' split at h
    all_goals simp only [Option.map_eq_some_iff, Option.some.injEq, reduceCtorEq] at h
    all_goals
      obtain ⟨_, -, rfl⟩ := h
      exact hi.of_eq rfl rfl hi.waiting hi.claimed

end DispatchState

/-- Over any run whose prunes stay apart from the passes in flight, and whose passes never look for
a fired and pruned instant under a newest tick in their future, no instant fires twice. -/
theorem tick_fires_once {src : Source} {s : DispatchState}
    (h : (dispatchSystem src).ReachesBy DispatchState.PrunesApart s) : s.fired.Nodup := by
  have hi : s.LogInv ∧ s.OnceInv := h.invariant (fun s => s.LogInv ∧ s.OnceInv)
    (fun _ hs => ⟨DispatchState.log_of_start hs, DispatchState.once_of_start hs⟩)
    fun _ _ _ hi hc hs =>
      ⟨DispatchState.log_step hi.1 hs, DispatchState.once_step hi.2 hi.1 hc hs⟩
  exact hi.2.once

/-- A settings schedule that runs every ten microseconds. -/
def everyTenSource : Source := .settings .naive ⟨IntervalTrigger 10 0, none, none, none, true⟩

/-- A pass of `everyTenSource` from its plan to its insert, with nothing in its way. -/
def insertsAt (worker : ℕ) (now tick : ℤ) : List DispatchAction :=
  [.plan worker ⟨IntervalTrigger 10 0, none, none, none, true⟩ now, .compare worker tick,
    .check worker, .refresh worker fun _ _ => true, .recheckDue worker now, .insert worker,
    .anchor worker]

/-- The first sighting: an anchor at 0. -/
def anchorsAtZero (worker : ℕ) : List DispatchAction :=
  insertsAt worker 1 0 ++ [.latch worker, .relook worker, .commit worker 0]

/-- A prune of one batch, up to its delete. -/
def prunesBefore (cutoff : ℤ) : List DispatchAction :=
  [.startPrune 0 cutoff 1000, .readNewest 0, .page 0, .sort 0, .recheck 0]

/-- Worker 0 fires the tick at 10; worker 1, whose clock is ahead, fires the one at 100; a prune
deletes the ticks before 15; and worker 0, at 19, fires the tick at 10 again. -/
theorem tick_fires_twice :
    ∃ s, (dispatchSystem everyTenSource).run emptyDispatch
        (anchorsAtZero 0 ++ insertsAt 0 10 10 ++ [.commit 0 1] ++ insertsAt 1 100 100 ++
          [.commit 1 2] ++ prunesBefore 15 ++ [.delete 0] ++ insertsAt 0 19 10 ++
          [.commit 0 3]) = some s ∧
      s.fired = [10, 100, 10] ∧ ¬ s.fired.Nodup :=
  ⟨_, rfl, rfl, by decide⟩

namespace DispatchState

/-- Nothing is deleted, and no newest tick is in the future. -/
def calm (s : DispatchState) : DispatchAction → Bool
  | .delete _ => false
  | .check p =>
    match s.passes p with
    | .compared _ a => a.last.all (· ≤ a.now)
    | _ => true
  | _ => true

theorem prunesApart_of_calm {s : DispatchState} {a : DispatchAction} (h : s.calm a = true) :
    s.PrunesApart a := by
  cases a with
  | check p =>
    rintro cached a hp ⟨l, hl, hlt⟩
    simp only [calm, hp] at h
    have hle : l ≤ a.now := by
      rw [Option.mem_def.mp hl] at h
      exact of_decide_eq_true h
    omega
  | delete q => cases h
  | _ => trivial

end DispatchState

/-- The ticks at 10, 20 and 30 fire once each, around a prune of the anchor and the tick at 10. -/
theorem tick_fires_once_pruned :
    ∃ s s₁ s₂, ((dispatchSystem everyTenSource).only fun s a => s.calm a = true).run emptyDispatch
        (anchorsAtZero 0 ++ insertsAt 0 10 10 ++ [.commit 0 1] ++ insertsAt 0 20 20 ++
          [.commit 0 2] ++ prunesBefore 15) = some s ∧
      (dispatchSystem everyTenSource).step s (.delete 0) = some s₁ ∧
      ((dispatchSystem everyTenSource).only fun s a => s.calm a = true).run s₁
        (insertsAt 1 30 30 ++ [.commit 1 3]) = some s₂ ∧
      s₂.log.map (·.scheduledFor) = [30, 20] ∧ s₂.fired = [30, 20, 10] ∧ s₂.fired.Nodup := by
  have once : ∀ s s₁ s₂, ((dispatchSystem everyTenSource).only fun s a => s.calm a = true).run
        emptyDispatch (anchorsAtZero 0 ++ insertsAt 0 10 10 ++ [.commit 0 1] ++
          insertsAt 0 20 20 ++ [.commit 0 2] ++ prunesBefore 15) = some s →
      (∀ p, (s.passes p).awaits = none) →
      (dispatchSystem everyTenSource).step s (.delete 0) = some s₁ →
      ((dispatchSystem everyTenSource).only fun s a => s.calm a = true).run s₁
        (insertsAt 1 30 30 ++ [.commit 1 3]) = some s₂ → s₂.fired.Nodup := by
    intro s s₁ s₂ hr hidle hd hr'
    have hcalm := fun (s : DispatchState) a (h : s.calm a = true) =>
      DispatchState.prunesApart_of_calm h
    have hpruned : (dispatchSystem everyTenSource).ReachesBy DispatchState.PrunesApart s₁ := by
      refine (System.ReachesBy.run hcalm (.init emptyDispatch_start) hr).step ?_ hd
      intro r _ _ p hp
      simp [hidle p] at hp
    exact tick_fires_once (System.ReachesBy.run hcalm hpruned hr')
  refine ⟨_, _, _, rfl, rfl, rfl, rfl, rfl, once _ _ _ rfl (fun p => ?_) rfl rfl⟩
  cases p with
  | zero => rfl
  | succ p => rfl

end DjangoOx
