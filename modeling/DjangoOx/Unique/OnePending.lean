import DjangoOx.Task.Fencing
import DjangoOx.Unique.Statements

/-! When a key has one pending task at most, and the prune that lets it have two. -/
namespace DjangoOx

open Machine

namespace UniqueState

variable {rowLocks : Bool} {s s' : UniqueState} {x : ℕ} {n : ℕ} {t : TaskId}

/-- The lock row that a DELETE of `oxpull_prune` found stale and now removes. -/
def doomed (s : UniqueState) : UniqueAction → Option (Option TaskId)
  | .applyPrune q => s.prunes q
  | _ => none

/-- No DELETE of `oxpull_prune` removes the lock of a task that is READY or RUNNING by then. -/
def PrunesStale (s : UniqueState) (a : UniqueAction) : Prop :=
  ∀ gen ∈ s.doomed a, s.locks.committed () = some gen → s.Stale gen

instance (s : UniqueState) (a : UniqueAction) : Decidable (s.PrunesStale a) :=
  inferInstanceAs (Decidable (∀ gen ∈ s.doomed a, s.locks.committed () = some gen → s.Stale gen))

theorem quiet_nextPass : ((s.nextPass x n).calls x).Quiet := by
  unfold UniqueState.nextPass
  split_ifs <;> simp [UniqueCall.Quiet]

theorem endAtomic_nextPass : (s.endAtomic x).nextPass x n = (s.nextPass x n).endAtomic x := by
  have hambient : (s.nextPass x n).ambient x = s.ambient x := rfl
  unfold UniqueState.endAtomic
  rw [hambient]
  split_ifs <;> rfl

theorem UniqueInv.endPass (hi : s.UniqueInv rowLocks) (hx : (s.calls x).Plain) :
    ((s.endAtomic x).nextPass x n).UniqueInv rowLocks := by
  rw [endAtomic_nextPass]
  exact (hi.nextPass hx).endAtomic quiet_nextPass

theorem UniqueInv.deleteLock (hi : s.UniqueInv rowLocks) (hx : (s.calls x).Plain)
    (hown : s.locks.holder () ≠ some x) {gen : Option TaskId} {hit : Bool}
    (hfree : hit = true → s.locks.Free x ())
    (hdead : hit = true → s.locks.committed () = some gen → ∀ t ∈ gen, s.DeadTask rowLocks x t) :
    (s.deleteLock x n gen hit).UniqueInv rowLocks := by
  unfold UniqueState.deleteLock
  split_ifs with hcond
  · obtain ⟨hhit, hview⟩ := hcond
    rw [Store.view_of_not_held hown] at hview
    rw [endAtomic_nextPass]
    refine UniqueInv.endAtomic ?_ quiet_nextPass
    refine (hi.nextPass hx).dropLock quiet_nextPass (hfree hhit) (fun t ht => ?_) hown
    exact hdead hhit hview t (Option.some.inj (hview.symm.trans ht) ▸ rfl)
  · exact hi.endPass hx

theorem inv_of_start (h : s.Start) : s.UniqueInv rowLocks := by
  obtain ⟨hl, hlh, ht, hth, hc, -, -, -, hb, -⟩ := h
  refine ⟨by simp [ht], by simp [ht], by simp [ht], by simp [hb], by simp [hb], by simp [hl],
    fun x => ⟨by simp [hth], by simp [hlh], by simp [hlh], ?_⟩⟩
  simp [hc x, CallKnows]

/-- What the plain read of the lock row finds. -/
theorem UniqueInv.readLock (hi : s.UniqueInv rowLocks) {gen : Option TaskId}
    (hv : s.locks.view x () = some gen) : s.CallKnows rowLocks x (.lockRead n gen) := by
  simp only [CallKnows]
  split_ifs with hl
  · rw [← hv, Store.view_of_held hl]
  · rw [Store.view_of_not_held hl] at hv
    obtain ⟨t, rfl, hb⟩ := hi.names gen hv
    intro u hu
    exact Option.some.inj hu ▸ hb

/-- The lock row that a plain read found is another's, unless it names a pending task of the
transaction's own. -/
theorem UniqueInv.lockRead (hi : s.UniqueInv rowLocks) {gen : Option TaskId}
    (hx : s.calls x = .lockRead n gen) :
    (s.locks.holder () ≠ some x ∧ ∀ t ∈ gen, t ∈ s.born) ∨
      ∃ t, gen = some t ∧ ∃ r, s.tasks.view x t = some r ∧ r.row.Pending := by
  have h := hi.footing x
  have hk := h.call
  rw [hx] at hk
  simp only [CallKnows] at hk
  split_ifs at hk with hl
  · right
    have hd := h.drafted hl
    rw [hk] at hd
    cases gen with
    | none => simp [Drafted, hx, UniqueCall.Plain] at hd
    | some t =>
      obtain ⟨ht, hb, -⟩ := hd
      have hf := (h.rows t ht).resolve_left fun hr => hb hr.1
      obtain ⟨r, hr, -, hp⟩ := hf.draft
      exact ⟨t, rfl, r, (Store.view_of_held ht).trans hr, hp⟩
  · exact .inl ⟨hl, hk⟩

/-- A step that writes no row and moves no call. -/
theorem UniqueInv.of_eq (hi : s.UniqueInv rowLocks) (hl : s'.locks = s.locks)
    (ht : s'.tasks = s.tasks) (hc : s'.calls = s.calls) (hb : s'.born = s.born)
    (hu : s'.used = s.used) (hr : s'.returned = s.returned) : s'.UniqueInv rowLocks := by
  have hframe : ∀ y, Frame rowLocks y s s' := by
    intro y
    apply Frame.of_committed <;> simp [hl, ht, hc, hb, hu, hr]
  exact hi.of_committed (x := 0) (by rw [hl]) (by rw [ht]) hb (by simp [hu]) (by simp [hr])
    (fun y _ => hframe y) (.frame hi (hframe 0))

theorem step_inv {a : UniqueAction} (hi : s.UniqueInv rowLocks) (hc : s.PrunesStale a)
    (h : step rowLocks s a = some s') : s'.UniqueInv rowLocks := by
  cases a with
  | openTxn x =>
    obtain ⟨-, h⟩ := Option.ite_none_right_eq_some.mp h
    obtain rfl := Option.some.inj h
    exact hi.of_eq rfl rfl rfl rfl rfl rfl
  | commitTxn x =>
    obtain ⟨⟨-, hp⟩, h⟩ := Option.ite_none_right_eq_some.mp h
    obtain rfl := Option.some.inj h
    have hdone := hi.commit (UniqueCall.quiet_of_progress hp)
    exact hdone.of_eq rfl rfl rfl rfl rfl rfl
  | rollbackTxn x =>
    obtain ⟨⟨-, hp⟩, h⟩ := Option.ite_none_right_eq_some.mp h
    obtain rfl := Option.some.inj h
    have hdone := hi.rollback (x := x) (UniqueCall.quiet_of_progress hp)
    have hself : ((s.rollback x).setCall x (s.calls x)).calls = s.calls :=
      Function.update_eq_self x s.calls
    exact hdone.of_eq rfl rfl hself.symm rfl rfl rfl
  | begin x =>
    obtain ⟨hp, h⟩ := Option.ite_none_right_eq_some.mp h
    obtain rfl := Option.some.inj h
    exact hi.setCall (UniqueCall.quiet_of_progress hp).plain trivial
  | insertLock x =>
    simp only [step] at h
    split at h
    · next n hx =>
      split_ifs at h with hfree hview
      · obtain rfl := Option.some.inj h
        have hplain : (s.calls x).Plain := by simp [hx, UniqueCall.Plain]
        refine hi.setCall hplain fun hl => ?_
        rw [Store.view_of_held hl] at hview
        exact Option.isSome_iff_ne_none.mp hview
      · obtain rfl := Option.some.inj h
        exact hi.insertLock hx hfree (Option.not_isSome_iff_eq_none.mp hview) _
    · cases h
  | insertTask x t call inherited enqueuedAt =>
    simp only [step] at h
    split at h
    · next n held hx =>
      obtain ⟨hnew, h⟩ := Option.ite_none_right_eq_some.mp h
      obtain rfl := Option.some.inj h
      exact hi.insertTask hx hnew (RowState.aged_of_ready rfl rfl rfl) (.inl rfl)
    · cases h
  | nameLock x =>
    simp only [step] at h
    split at h
    · next n held t hx =>
      have hk := (hi.footing x).call
      rw [hx] at hk
      have hview : s.locks.view x () = some none := (Store.view_of_held hk.1).trans hk.2.1
      rw [if_pos hview] at h
      obtain rfl := Option.some.inj h
      exact hi.nameLock hx
    · cases h
  | finish x =>
    simp only [step] at h
    split at h
    · next n held t hx =>
      obtain rfl := Option.some.inj h
      refine (hi.finish hx).endAtomic ?_
      simp [UniqueCall.Quiet]
    · cases h
  | readLock x =>
    simp only [step] at h
    split at h
    · next n hx =>
      have hplain : (s.calls x).Plain := by simp [hx, UniqueCall.Plain]
      split at h
      · obtain rfl := Option.some.inj h
        exact hi.endPass hplain
      · next gen hv =>
        obtain rfl := Option.some.inj h
        exact hi.setCall hplain (hi.readLock hv)
    · cases h
  | readHolder x =>
    simp only [step] at h
    split at h
    · next n hx =>
      obtain rfl := Option.some.inj h
      have hplain : (s.calls x).Plain := by simp [hx, UniqueCall.Plain]
      refine hi.setCall hplain ?_
      obtain ⟨hown, hb⟩ := (hi.lockRead hx).resolve_right (by simp)
      exact ⟨hown, by simp⟩
    · next n t hx =>
      have hplain : (s.calls x).Plain := by simp [hx, UniqueCall.Plain]
      split at h
      · next hv =>
        obtain rfl := Option.some.inj h
        obtain ⟨hown, hb⟩ := (hi.lockRead hx).resolve_right (by simp [hv])
        refine hi.setCall hplain ⟨hown, fun u hu => ⟨hb u hu, fun _ r hr => ?_⟩⟩
        obtain rfl := Option.some.inj hu
        rw [(hi.footing x).view_of_born (hb _ hu)] at hv
        cases hv.symm.trans hr
      · next r hv =>
        split_ifs at h with hp hrl
        · obtain rfl := Option.some.inj h
          have hret := hi.setCall (c := .returned t true) hplain trivial
          refine hret.endAtomic ?_
          simp [UniqueCall.Quiet]
        · obtain rfl := Option.some.inj h
          obtain ⟨hown, hb⟩ := (hi.lockRead hx).resolve_right (by simp [hv, hp])
          exact hi.setCall hplain ⟨hown, hb t rfl⟩
        · obtain rfl := Option.some.inj h
          obtain ⟨hown, hb⟩ := (hi.lockRead hx).resolve_right (by simp [hv, hp])
          exact hi.setCall hplain ⟨hown, fun u hu => ⟨hb u hu, fun hl => absurd hl hrl⟩⟩
    · cases h
  | lockHolder x =>
    simp only [step] at h
    split at h
    · next n t hx =>
      have hplain : (s.calls x).Plain := by simp [hx, UniqueCall.Plain]
      have hk := (hi.footing x).call
      rw [hx] at hk
      obtain ⟨hown, hb⟩ := hk
      have hview := (hi.footing x).view_of_born hb
      obtain ⟨hfree, h⟩ := Option.ite_none_right_eq_some.mp h
      split at h
      · next hv =>
        obtain rfl := Option.some.inj h
        refine hi.setCall hplain ⟨hown, fun u hu => ?_⟩
        obtain rfl := Option.some.inj hu
        refine ⟨hb, fun _ r hr => ?_⟩
        rw [hview] at hv
        cases hv.symm.trans hr
      · next r hv =>
        split_ifs at h with hp
        · obtain rfl := Option.some.inj h
          have hret := hi.lockTask (c := .returned t true) hx hfree trivial
          refine hret.endAtomic ?_
          simp [UniqueCall.Quiet]
        · obtain rfl := Option.some.inj h
          refine hi.lockTask hx hfree ⟨hown, fun u hu => ?_⟩
          obtain rfl := Option.some.inj hu
          refine ⟨hb, fun _ r' hr' => ?_⟩
          rw [hview] at hv
          obtain rfl := Option.some.inj (hv.symm.trans hr')
          exact ⟨hp, fun _ => by simp⟩
    · cases h
  | release x =>
    simp only [step] at h
    split at h
    · next n gen hx =>
      have hplain : (s.calls x).Plain := by simp [hx, UniqueCall.Plain]
      have hk := (hi.footing x).call
      rw [hx] at hk
      split_ifs at h with hrl hfree
      · obtain rfl := Option.some.inj h
        exact hi.setCall hplain ⟨hrl, hk.1, fun t ht => ⟨(hk.2 t ht).1, (hk.2 t ht).2 hrl⟩⟩
      · obtain rfl := Option.some.inj h
        refine hi.deleteLock hplain hk.1 (fun _ => hfree) fun hhit _ t ht r hr => ?_
        have hsettled := (of_decide_eq_true hhit).2
        rw [← (hi.footing x).view_of_born (hk.2 t ht).1] at hr
        exact ⟨hsettled t ht r hr, fun hl => absurd hl hrl⟩
    · cases h
  | applyRelease x =>
    simp only [step] at h
    split at h
    · next n gen hit hx =>
      have hplain : (s.calls x).Plain := by simp [hx, UniqueCall.Plain]
      have hk := (hi.footing x).call
      rw [hx] at hk
      obtain ⟨hfree, h⟩ := Option.ite_none_right_eq_some.mp h
      obtain rfl := Option.some.inj h
      obtain ⟨-, hown, hdead⟩ := hk
      exact hi.deleteLock hplain hown hfree fun _ _ t ht => (hdead t ht).2
    · cases h
  | fail x =>
    obtain ⟨-, h⟩ := Option.ite_none_left_eq_some.mp h
    obtain rfl := Option.some.inj h
    split_ifs
    · exact hi.undo
    · exact hi.rollback trivial
  | deadlock x =>
    simp only [step] at h
    split at h
    · cases h
    · next n _ =>
      split_ifs at h
      · obtain rfl := Option.some.inj h
        exact hi.rollback trivial
      · obtain rfl := Option.some.inj h
        unfold UniqueState.nextPass
        split_ifs <;> exact hi.rollback trivial
  | row t a =>
    obtain ⟨⟨ha, hretry, hfree, hw⟩, h⟩ := Option.ite_none_right_eq_some.mp h
    obtain ⟨r, hr, h⟩ := Option.bind_eq_some_iff.mp h
    obtain ⟨r', hstep, rfl⟩ := Option.map_eq_some_iff.mp h
    have hold := hi.aged t r hr
    refine hi.putTask hfree hw hr (fun u hu => ?_) fun u hu hp => ?_
    · obtain rfl := Option.some.inj hu
      exact RowState.step_aged hold ha.takesSpent hstep
    · obtain rfl := Option.some.inj hu
      rcases RowState.step_pending hold ha hstep hp with hp' | hret
      · exact hi.named t r hr hp'
      · exact hretry hret
  | pruneTask t =>
    obtain ⟨⟨hfree, hw, hany⟩, h⟩ := Option.ite_none_right_eq_some.mp h
    obtain rfl := Option.some.inj h
    cases hr : s.tasks.committed t with
    | none => simp [hr] at hany
    | some r => exact hi.putTask hfree hw hr (by simp) (by simp)
  | prune =>
    simp only [step] at h
    split at h
    · next gen hg =>
      obtain ⟨⟨-, hfree, hstale⟩, h⟩ := Option.ite_none_right_eq_some.mp h
      obtain rfl := Option.some.inj h
      exact hi.deleteStale hfree hg hstale
    · cases h
  | startPrune q =>
    simp only [step] at h
    split at h
    · obtain ⟨-, h⟩ := Option.ite_none_right_eq_some.mp h
      obtain rfl := Option.some.inj h
      exact hi.of_eq rfl rfl rfl rfl rfl rfl
    · cases h
  | applyPrune q =>
    simp only [step] at h
    split at h
    · next gen hq =>
      obtain ⟨hfree, h⟩ := Option.ite_none_right_eq_some.mp h
      obtain rfl := Option.some.inj h
      split_ifs with hg
      · have hdone := hi.deleteStale hfree hg (hc gen hq hg)
        exact hdone.of_eq rfl rfl rfl rfl rfl rfl
      · exact hi.of_eq rfl rfl rfl rfl rfl rfl
    · cases h

/-- A committed row of the key is READY or RUNNING. -/
def PendingTask (s : UniqueState) (t : TaskId) : Prop :=
  ∃ r ∈ s.tasks.committed t, r.row.Pending

@[simp] theorem calls_endAtomic : (s.endAtomic x).calls = s.calls := by
  unfold UniqueState.endAtomic
  split_ifs <;> rfl

theorem calls_nextPass {y : ℕ} :
    (s.nextPass x n).calls y =
      if y = x then (if n ≤ 1 then .raised else .inserting (n - 1)) else s.calls y :=
  calls_setCall _ _ _ _

theorem calls_deleteLock {y : ℕ} {gen : Option TaskId} {hit : Bool} :
    (s.deleteLock x n gen hit).calls y = (s.nextPass x n).calls y := by
  unfold UniqueState.deleteLock
  rw [calls_nextPass, calls_nextPass, calls_endAtomic]
  split_ifs <;> rfl

@[simp] theorem calls_undo : (s.undo x).calls = s.calls := by
  unfold UniqueState.undo UniqueState.undoLock
  repeat' split
  all_goals rfl

/-- An existing result is returned by a read of it as pending. -/
theorem existing_pending {a : UniqueAction} (h : step rowLocks s a = some s')
    (hnew : s.calls x ≠ .returned t true) (hret : s'.calls x = .returned t true) :
    (s.calls x).progress ≠ none ∧ ∃ r, s.tasks.view x t = some r ∧ r.row.Pending := by
  cases a with
  | readHolder y =>
    simp only [step] at h
    split at h
    · obtain rfl := Option.some.inj h
      rw [calls_setCall] at hret
      split_ifs at hret
      exact absurd hret hnew
    · next n u hx =>
      split at h
      · obtain rfl := Option.some.inj h
        rw [calls_setCall] at hret
        split_ifs at hret
        exact absurd hret hnew
      · next r hv =>
        split_ifs at h with hp
        · obtain rfl := Option.some.inj h
          rw [calls_endAtomic, calls_setCall] at hret
          split_ifs at hret with hy
          · subst hy
            obtain ⟨rfl, -⟩ := UniqueCall.returned.inj hret
            exact ⟨by simp [hx, UniqueCall.progress], r, hv, hp⟩
          · exact absurd hret hnew
        all_goals
          obtain rfl := Option.some.inj h
          rw [calls_setCall] at hret
          split_ifs at hret
          exact absurd hret hnew
    · cases h
  | lockHolder y =>
    simp only [step] at h
    split at h
    · next n u hx =>
      obtain ⟨-, h⟩ := Option.ite_none_right_eq_some.mp h
      split at h
      · obtain rfl := Option.some.inj h
        rw [calls_setCall] at hret
        split_ifs at hret
        exact absurd hret hnew
      · next r hv =>
        split_ifs at h with hp
        · obtain rfl := Option.some.inj h
          rw [calls_endAtomic] at hret
          change (s.setCall y (.returned u true)).calls x = _ at hret
          rw [calls_setCall] at hret
          split_ifs at hret with hy
          · subst hy
            obtain ⟨rfl, -⟩ := UniqueCall.returned.inj hret
            exact ⟨by simp [hx, UniqueCall.progress], r, hv, hp⟩
          · exact absurd hret hnew
        · obtain rfl := Option.some.inj h
          change (s.setCall y (.stale n (some u))).calls x = _ at hret
          rw [calls_setCall] at hret
          split_ifs at hret
          exact absurd hret hnew
    · cases h
  | _ =>
    exfalso
    simp only [step] at h
    repeat' split at h
    all_goals
      simp only [Option.map_eq_some_iff, Option.bind_eq_some_iff, Option.some.injEq,
        reduceCtorEq] at h
    all_goals
      obtain ⟨_, -, _, -, rfl⟩ := h
      simp only [calls_deleteLock, calls_nextPass, calls_endAtomic, calls_undo, calls_setCall,
        UniqueState.commit, UniqueState.rollback] at hret
      grind

theorem UniqueInv.raised (hi : s.UniqueInv rowLocks) (hx : s.calls x = .raised) :
    (∀ t, s.tasks.view x t ≠ none → t ∈ s.returned) ∧
      ∀ gen, s.locks.view x () = some gen → ∃ t ∈ gen, t ∈ s.returned := by
  have h := hi.footing x
  have hplain : (s.calls x).Plain := by simp [hx, UniqueCall.Plain]
  have hdrafted : ∀ t, s.locks.holder () = some x → s.locks.draft () = some (some t) →
      t ∈ s.returned := by
    intro t hl hd
    have hdraft := h.drafted hl
    rw [hd] at hdraft
    refine hdraft.2.2.resolve_right ?_
    rintro ⟨n, held, hn⟩
    simp [hx] at hn
  refine ⟨fun t ht => ?_, fun gen hgen => ?_⟩
  · by_cases hh : s.tasks.holder t = some x
    · rcases h.rows t hh with ⟨hb, -⟩ | hf
      · exact hi.returned t hb
      · exact hdrafted t hf.locked (hf.draft_of_plain hplain)
    · rw [Store.view_of_not_held hh] at ht
      exact hi.returned t (hi.born t ht)
  · by_cases hl : s.locks.holder () = some x
    · rw [Store.view_of_held hl] at hgen
      have hdraft := h.drafted hl
      rw [hgen] at hdraft
      cases gen with
      | none => exact absurd hplain hdraft
      | some t => exact ⟨t, rfl, hdrafted t hl hgen⟩
    · rw [Store.view_of_not_held hl] at hgen
      obtain ⟨t, rfl, hb⟩ := hi.names gen hgen
      exact ⟨t, rfl, hi.returned t hb⟩

end UniqueState

/-- In any run whose prunes remove the locks of settled tasks only: the key has one READY or RUNNING
task at most; an enqueue that returns an existing result read it as READY or RUNNING; and what an
enqueue that raised can see, rows and lock, is the work of enqueues that returned. -/
theorem unique_while_pending {rowLocks : Bool} {s : UniqueState}
    (h : (uniqueSystem rowLocks).ReachesBy UniqueState.PrunesStale s) :
    (∀ t u, s.PendingTask t → s.PendingTask u → t = u) ∧
      (∀ a s' x t, (uniqueSystem rowLocks).step s a = some s' → s.calls x ≠ .returned t true →
        s'.calls x = .returned t true →
        (s.calls x).progress ≠ none ∧ ∃ r, s.tasks.view x t = some r ∧ r.row.Pending) ∧
      ∀ x, s.calls x = .raised → (∀ t, s.tasks.view x t ≠ none → t ∈ s.returned) ∧
        ∀ gen, s.locks.view x () = some gen → ∃ t ∈ gen, t ∈ s.returned := by
  have hi : s.UniqueInv rowLocks := h.invariant (fun s => s.UniqueInv rowLocks)
    (fun _ hs => UniqueState.inv_of_start hs)
    fun _ _ _ hi hc hs => UniqueState.step_inv hi hc hs
  refine ⟨?_, fun a s' x t hs hn hr => UniqueState.existing_pending hs hn hr,
    fun x hx => hi.raised hx⟩
  rintro t u ⟨r, hr, hp⟩ ⟨r', hr', hp'⟩
  have ht := hi.named t r hr hp
  have hu := hi.named u r' hr' hp'
  exact Option.some.inj (Option.some.inj (ht.symm.trans hu))

/-- Nothing of the key, and no transaction. -/
def noUnique : UniqueState where
  locks := .idle fun _ => none
  tasks := .idle fun _ => none
  calls _ := .idle
  ambient _ := false
  prunes _ := none
  used := []
  born := []
  returned := []

theorem noUnique_start : noUnique.Start := by
  refine ⟨?_, ?_, ?_, ?_, ?_, ?_, ?_, rfl, rfl, rfl⟩ <;> exact fun _ => rfl

/-- A task of one attempt. -/
def onceCall : Call := ⟨"app.tasks.send", "default", 0, none, some 1⟩

/-- An enqueue that finds the key free. -/
def enqueues (txn : ℕ) (task : TaskId) : List UniqueAction :=
  [.begin txn, .insertLock txn, .insertTask txn task onceCall 3 0, .nameLock txn, .finish txn]

/-- The row of `onceCall` as its claim leaves it. -/
def claimedOnce : OxTask :=
  { row onceCall 3 0 with
    status := .running
    attempts := 1
    workerIds := ["w1"]
    startedAt := some 5
    lastAttemptedAt := some 5
    lockedBy := some "w1"
    lockedAt := some 5
    leaseExpiresAt := some 15
    leaseEpoch := 1 }

/-- The task is claimed and fails. -/
def fails (task : TaskId) : List UniqueAction :=
  [.row task (.claimPostgresql (soloWorker "w1") 5 5),
    .row task (.writeOutcome ⟨1, 1⟩ claimedOnce 6 (.raised ⟨"ValueError", ""⟩ none))]

/-- A prune's DELETE starts on the lock of a failed task; the task is retried; the lock goes; and
another enqueue adds a second READY task. -/
theorem pruned_lock_of_retried :
    ∃ s, (uniqueSystem true).run noUnique
        (enqueues 0 1 ++ fails 1 ++ [.startPrune 0, .row 1 .retryMany, .applyPrune 0] ++
          enqueues 1 2) = some s ∧
      (s.tasks.committed 1).map (·.row.status) = some .ready ∧
      (s.tasks.committed 2).map (·.row.status) = some .ready ∧
      ¬ ∀ t u, s.PendingTask t → s.PendingTask u → t = u := by
  refine ⟨_, rfl, rfl, rfl, fun h => ?_⟩
  have heq := h 1 2 ⟨_, rfl, .inl rfl⟩ ⟨_, rfl, .inl rfl⟩
  cases heq

/-- A duplicate is suppressed; the task fails; a prune's DELETE starts; an enqueue in a caller's
transaction releases the lock, inserts a task and fails; the caller rolls back; the DELETE removes
the lock; and a third enqueue inserts its task. -/
theorem unique_while_pending_stolen :
    ∃ s, ((uniqueSystem true).only UniqueState.PrunesStale).run noUnique
        (enqueues 0 1 ++ [.begin 1, .insertLock 1, .readLock 1, .readHolder 1] ++ fails 1 ++
          [.startPrune 0, .openTxn 2, .begin 2, .insertLock 2, .readLock 2, .readHolder 2,
            .lockHolder 2, .release 2, .applyRelease 2, .insertLock 2,
            .insertTask 2 2 onceCall 3 0, .fail 2, .rollbackTxn 2, .applyPrune 0] ++
          enqueues 3 3) = some s ∧
      s.calls 1 = .returned 1 true ∧ s.calls 2 = .raised ∧ s.born = [3, 1] ∧
      s.locks.committed () = some (some 3) ∧
      (∀ t u, s.PendingTask t → s.PendingTask u → t = u) ∧
      ∀ t, s.tasks.view 2 t ≠ none → t ∈ s.returned := by
  have safe : ∀ s, ((uniqueSystem true).only UniqueState.PrunesStale).run noUnique
        (enqueues 0 1 ++ [.begin 1, .insertLock 1, .readLock 1, .readHolder 1] ++ fails 1 ++
          [.startPrune 0, .openTxn 2, .begin 2, .insertLock 2, .readLock 2, .readHolder 2,
            .lockHolder 2, .release 2, .applyRelease 2, .insertLock 2,
            .insertTask 2 2 onceCall 3 0, .fail 2, .rollbackTxn 2, .applyPrune 0] ++
          enqueues 3 3) = some s → s.calls 2 = .raised →
      (∀ t u, s.PendingTask t → s.PendingTask u → t = u) ∧
        ∀ t, s.tasks.view 2 t ≠ none → t ∈ s.returned := by
    intro s hrun hraised
    obtain ⟨hone, -, hraise⟩ := unique_while_pending (.of_run noUnique_start hrun)
    exact ⟨hone, (hraise 2 hraised).1⟩
  have hdone := safe _ rfl rfl
  exact ⟨_, rfl, rfl, rfl, rfl, rfl, hdone⟩

end DjangoOx
