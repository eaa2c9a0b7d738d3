import DjangoOx.Unique.Footing

/-! Each statement of a unique enqueue, and each other write of the key's rows, keeps what every
transaction relies on. -/
namespace DjangoOx

open Machine

namespace UniqueState

variable {rowLocks : Bool} {s s' : UniqueState} {x y : ℕ} {n : ℕ} {t : TaskId}

section frames

variable {c : UniqueCall} (hy : y ≠ x)
include hy

theorem frame_setCall : Frame rowLocks y s (s.setCall x c) := by
  apply Frame.of_committed <;> simp [setCall, Function.update_of_ne hy]

theorem frame_writeLock {v : Option (Option TaskId)} (hfree : s.locks.Free x ()) :
    Frame rowLocks y s { s with locks := s.locks.write x () v } := by
  have hold : s.locks.holder () ≠ some y := by
    rcases hfree with h | h <;> simp [h, hy.symm]
  apply Frame.of_committed <;> simp [hold, hy.symm]

theorem frame_unlockLock (hheld : s.locks.holder () = some x) :
    Frame rowLocks y s { s with locks := s.locks.unlock () } := by
  have hold : s.locks.holder () ≠ some y := by simp [hheld, hy.symm]
  apply Frame.of_committed <;> simp [hold]

theorem frame_writeTask {v : Option RowState} (hfree : s.tasks.Free x t) :
    Frame rowLocks y s { s with tasks := s.tasks.write x t v } := by
  have hold : s.tasks.holder t ≠ some y := by
    rcases hfree with h | h <;> simp [h, hy.symm]
  apply Frame.of_committed <;> simp
  · intro u
    by_cases hu : u = t <;> simp [hu, hold, hy.symm]
  · intro u hu ht
    exact absurd hu (ht ▸ hold)

theorem frame_unlockTask (hheld : s.tasks.holder t = some x) :
    Frame rowLocks y s { s with tasks := s.tasks.unlock t } := by
  have hold : s.tasks.holder t ≠ some y := by simp [hheld, hy.symm]
  apply Frame.of_committed <;> simp
  rintro u hu rfl
  exact hold hu

theorem frame_rollback : Frame rowLocks y s (s.rollback x) := by
  apply Frame.of_committed <;> simp [rollback]
  · intro h
    simp [h, hy]
  · intro u h
    simp [h, hy]

end frames

/-- A step that commits nothing, and leaves its own transaction a footing. -/
theorem UniqueInv.of_committed (hi : s.UniqueInv rowLocks)
    (hlocks : s'.locks.committed = s.locks.committed)
    (htasks : s'.tasks.committed = s.tasks.committed) (hborn : s'.born = s.born)
    (hused : ∀ t ∈ s.used, t ∈ s'.used) (hreturned : ∀ t ∈ s.returned, t ∈ s'.returned)
    (hframe : ∀ y, y ≠ x → Frame rowLocks y s s') (hfoot : s'.Footing rowLocks x) :
    s'.UniqueInv rowLocks where
  named := by simpa only [hlocks, htasks] using hi.named
  aged := by simpa only [htasks] using hi.aged
  born := by simpa only [htasks, hborn] using hi.born
  used t ht := hused t (hi.used t (hborn ▸ ht))
  returned t ht := hreturned t (hi.returned t (hborn ▸ ht))
  names := by simpa only [hlocks, hborn] using hi.names
  footing y := by
    by_cases hy : y = x
    · exact hy ▸ hfoot
    · exact .frame hi (hframe y hy)

theorem CallKnows.of_quiet {c : UniqueCall} (h : c.Quiet) : s.CallKnows rowLocks x c := by
  cases c <;> trivial

theorem Fresh.draft_of_plain (h : s.Fresh x t) (hx : (s.calls x).Plain) :
    s.locks.draft () = some (some t) := by
  rcases h.named with hd | ⟨n, held, hc⟩
  · exact hd
  · simp [hc, UniqueCall.Plain] at hx

/-- The call moves on between statements that write nothing. -/
theorem UniqueInv.setCall {c : UniqueCall} (hi : s.UniqueInv rowLocks)
    (hx : (s.calls x).Plain) (hk : s.CallKnows rowLocks x c) :
    (s.setCall x c).UniqueInv rowLocks := by
  have h := hi.footing x
  refine hi.of_committed rfl rfl rfl (fun _ h => h) (fun _ h => h)
    (fun y hy => frame_setCall hy) ⟨fun t ht => ?_, h.dead, fun hl => ?_, ?_⟩
  · refine (h.rows t ht).imp_right fun hf => ?_
    exact { hf with named := .inl (hf.draft_of_plain hx) }
  · have hd := h.drafted hl
    change (s.setCall x c).Drafted x (s.locks.draft ())
    cases hg : s.locks.draft () with
    | none => trivial
    | some g =>
      rw [hg] at hd
      cases g with
      | none => exact absurd hx hd
      | some t =>
        obtain ⟨ht, hb, hr⟩ := hd
        refine ⟨ht, hb, .inl (hr.resolve_right ?_)⟩
        rintro ⟨n, held, hn⟩
        simp [hn, UniqueCall.Plain] at hx
  · have hself : (s.setCall x c).calls x = c := by simp [UniqueState.setCall]
    rw [hself]
    exact hk

theorem UniqueInv.nextPass (hi : s.UniqueInv rowLocks) (hx : (s.calls x).Plain) :
    (s.nextPass x n).UniqueInv rowLocks := by
  unfold UniqueState.nextPass
  split_ifs <;> exact hi.setCall hx trivial

/-- The transaction rolls back. -/
theorem UniqueInv.rollback {c : UniqueCall} (hi : s.UniqueInv rowLocks) (hc : c.Quiet) :
    ((s.rollback x).setCall x c).UniqueInv rowLocks := by
  have hself : ((s.rollback x).setCall x c).calls x = c := by simp [UniqueState.setCall]
  refine hi.of_committed rfl rfl rfl (fun _ h => h) (fun _ h => h)
    (fun y hy => (frame_rollback hy).trans (frame_setCall hy)) ⟨fun t ht => ?_, fun hl => ?_,
      fun hl => ?_, ?_⟩
  · simp [UniqueState.setCall, UniqueState.rollback] at ht
  · simp [UniqueState.setCall, UniqueState.rollback] at hl
  · simp [UniqueState.setCall, UniqueState.rollback] at hl
  · rw [hself]
    exact .of_quiet hc

section commit

theorem Footing.draft_of_born (h : s.Footing rowLocks x)
    (ht : s.tasks.holder t = some x) (hb : t ∈ s.born) : s.tasks.draft t = s.tasks.committed t := by
  rcases h.rows t ht with ⟨-, hd⟩ | hf
  · exact hd
  · exact absurd hb hf.unborn

/-- A row that was there is after the commit what it was. -/
theorem Footing.view_of_born (h : s.Footing rowLocks x) (hb : t ∈ s.born) :
    s.tasks.view x t = s.tasks.committed t := by
  by_cases ht : s.tasks.holder t = some x
  · rw [Store.view_of_held ht, h.draft_of_born ht hb]
  · exact Store.view_of_not_held ht

theorem mem_born_commit :
    t ∈ (s.commit x).born ↔ (t ∈ s.used ∧ s.tasks.holder t = some x) ∨ t ∈ s.born := by
  simp [UniqueState.commit]

theorem frame_commit (hi : s.UniqueInv rowLocks) (hy : y ≠ x) :
    Frame rowLocks y s (s.commit x) where
  call := rfl
  lock := by
    change (s.locks.commit x).holder () = some y ↔ _
    rw [Store.holder_commit]
    by_cases h : s.locks.holder () = some x <;> simp [h, hy.symm]
  lockRow h := by
    refine ⟨rfl, Store.view_of_not_held ?_⟩
    simp [h, hy]
  holder t := by
    change (s.tasks.commit x).holder t = some y ↔ _
    rw [Store.holder_commit]
    by_cases h : s.tasks.holder t = some x <;> simp [h, hy.symm]
  row t h := by
    have hne : s.tasks.holder t ≠ some x := by simp [h, hy]
    refine ⟨rfl, Store.view_of_not_held hne, fun hm => ?_⟩
    rcases mem_born_commit.mp hm with ⟨-, hx⟩ | hb
    · exact absurd hx hne
    · exact hb
  born t h := mem_born_commit.mpr (.inr h)
  used t h := h
  returned t h := h
  dead t hb hl hd r hr := by
    have hcommit : s.tasks.committed t = some r := by
      rw [← (hi.footing x).view_of_born hb]
      exact hr
    obtain ⟨hp, hh⟩ := hd r hcommit
    refine ⟨hp, fun hrl => ?_⟩
    change (s.tasks.commit x).holder t = some y
    rw [Store.holder_commit, hh hrl]
    simp [hy]

/-- The transaction commits. -/
theorem UniqueInv.commit (hi : s.UniqueInv rowLocks) (hq : (s.calls x).Quiet) :
    (s.commit x).UniqueInv rowLocks := by
  have h := hi.footing x
  have hplain := hq.plain
  have hview : ∀ t, s.tasks.view x t = s.tasks.committed t ∨
      (s.tasks.holder t = some x ∧ s.Fresh x t) := by
    intro t
    by_cases ht : s.tasks.holder t = some x
    · rcases h.rows t ht with ⟨-, hd⟩ | hf
      · exact .inl ((Store.view_of_held ht).trans hd)
      · exact .inr ⟨ht, hf⟩
    · exact .inl (Store.view_of_not_held ht)
  refine ⟨fun t r hr hp => ?_, fun t r hr => ?_, fun t ht => ?_, fun t ht => ?_, fun t ht => ?_,
    fun g hg => ?_, fun y => ?_⟩
  · change s.locks.view x () = _
    change s.tasks.view x t = some r at hr
    rcases hview t with hc | ⟨-, hf⟩
    · rw [hc] at hr
      have hlock := hi.named t r hr hp
      by_cases hl : s.locks.holder () = some x
      · exact absurd hp (h.dead hl t hlock r hr).1
      · rw [Store.view_of_not_held hl, hlock]
    · rw [Store.view_of_held hf.locked, hf.draft_of_plain hplain]
  · change s.tasks.view x t = some r at hr
    rcases hview t with hc | ⟨ht, hf⟩
    · exact hi.aged t r (hc ▸ hr)
    · obtain ⟨r', hd, ha, -⟩ := hf.draft
      rw [Store.view_of_held ht, hd] at hr
      exact Option.some.inj hr ▸ ha
  · change s.tasks.view x t ≠ none at ht
    rcases hview t with hc | ⟨hh, hf⟩
    · exact mem_born_commit.mpr (.inr (hi.born t (hc ▸ ht)))
    · exact mem_born_commit.mpr (.inl ⟨hf.used, hh⟩)
  · rcases mem_born_commit.mp ht with ⟨hu, -⟩ | hb
    · exact hu
    · exact hi.used t hb
  · rcases mem_born_commit.mp ht with ⟨-, hh⟩ | hb
    · rcases h.rows t hh with ⟨hb, -⟩ | hf
      · exact hi.returned t hb
      · have hd := h.drafted hf.locked
        rw [hf.draft_of_plain hplain] at hd
        refine hd.2.2.resolve_right ?_
        rintro ⟨n, held, hn⟩
        simp [hn, UniqueCall.Plain] at hplain
    · exact hi.returned t hb
  · change s.locks.view x () = some g at hg
    by_cases hl : s.locks.holder () = some x
    · rw [Store.view_of_held hl] at hg
      have hd := h.drafted hl
      rw [hg] at hd
      cases g with
      | none => exact absurd hplain hd
      | some t =>
        obtain ⟨ht, hb, -⟩ := hd
        have hfresh := (h.rows t ht).resolve_left fun hr => hb hr.1
        exact ⟨t, rfl, mem_born_commit.mpr (.inl ⟨hfresh.used, ht⟩)⟩
    · rw [Store.view_of_not_held hl] at hg
      obtain ⟨t, rfl, hb⟩ := hi.names g hg
      exact ⟨t, rfl, mem_born_commit.mpr (.inr hb)⟩
  · by_cases hy : y = x
    · subst hy
      refine ⟨fun t ht => ?_, fun hl => ?_, fun hl => ?_, .of_quiet hq⟩
      · simp [UniqueState.commit] at ht
      · simp [UniqueState.commit] at hl
      · simp [UniqueState.commit] at hl
    · exact .frame hi (frame_commit hi hy)

theorem UniqueInv.endAtomic (hi : s.UniqueInv rowLocks) (hq : (s.calls x).Quiet) :
    (s.endAtomic x).UniqueInv rowLocks := by
  unfold UniqueState.endAtomic
  split_ifs
  · exact hi
  · exact hi.commit hq

end commit

/-- A holder of the lock row with no draft of a task has no task of its own in the transaction. -/
theorem Footing.born_of_drafted (h : s.Footing rowLocks x)
    (hd : s.locks.holder () = some x → ∀ t, s.locks.draft () ≠ some (some t))
    (hp : (s.calls x).Plain) (ht : s.tasks.holder t = some x) :
    t ∈ s.born ∧ s.tasks.draft t = s.tasks.committed t := by
  refine (h.rows t ht).resolve_right fun hf => ?_
  exact hd hf.locked t (hf.draft_of_plain hp)

theorem UniqueInv.insertLock (hi : s.UniqueInv rowLocks) (hx : s.calls x = .inserting n)
    (hfree : s.locks.Free x ()) (hv : s.locks.view x () = none) (held : Bool) :
    UniqueInv rowLocks { s.setCall x (.locked n held) with
      locks := s.locks.write x () (some none) } := by
  have h := hi.footing x
  have hplain : (s.calls x).Plain := by simp [hx, UniqueCall.Plain]
  have hnone : s.locks.holder () = some x → s.locks.draft () = none := by
    intro hl
    rw [← hv, Store.view_of_held hl]
  refine hi.of_committed rfl rfl rfl (fun _ h => h) (fun _ h => h)
    (fun y hy => (frame_setCall hy).trans (frame_writeLock hy hfree)) ⟨fun t ht => ?_,
      fun _ t ht => ?_, fun _ => ?_, ?_⟩
  · exact .inl (h.born_of_drafted (fun hl t => by simp [hnone hl]) hplain ht)
  · rcases hfree with hl | hl
    · have hc : s.locks.committed () = none := by
        rw [← hv, Store.view_of_not_held (by simp [hl])]
      rw [Store.committed_write] at ht
      cases hc.symm.trans ht
    · exact h.dead hl t ht
  · simp [Drafted, UniqueCall.Plain]
  · simp [CallKnows]

theorem UniqueInv.insertTask (hi : s.UniqueInv rowLocks) {held : Bool} {r : RowState}
    (hx : s.calls x = .locked n held) (hnew : t ∉ s.used) (ha : r.Aged) (hr : r.row.Pending) :
    UniqueInv rowLocks { s.setCall x (.tasked n held t) with
      tasks := s.tasks.write x t (some r)
      used := t :: s.used } := by
  have h := hi.footing x
  have hk := h.call
  rw [hx] at hk
  obtain ⟨hl, hd⟩ := hk
  have hunborn : t ∉ s.born := fun hb => hnew (hi.used t hb)
  have hnone : s.tasks.committed t = none := by
    by_contra hc
    exact hunborn (hi.born t hc)
  have hfree : s.tasks.Free x t := by
    cases hh : s.tasks.holder t with
    | none => exact .inl hh
    | some y =>
      exfalso
      rcases (hi.footing y).rows t hh with ⟨hb, -⟩ | hf
      · exact hunborn hb
      · exact hnew hf.used
  have hframe : ∀ y, y ≠ x → Frame rowLocks y s { s.setCall x (.tasked n held t) with
      tasks := s.tasks.write x t (some r)
      used := t :: s.used } := by
    intro y hy
    have hcall : Frame rowLocks y s (s.setCall x (.tasked n held t)) := frame_setCall hy
    refine (hcall.trans (frame_writeTask hy hfree (v := some r))).trans ?_
    apply Frame.of_committed <;> simp +contextual
  refine hi.of_committed rfl rfl rfl (fun _ h => List.mem_cons_of_mem _ h) (fun _ h => h) hframe
    ⟨fun u hu => ?_, fun _ u hu => ?_, fun _ => ?_, ?_⟩
  · by_cases he : u = t
    · subst he
      right
      refine ⟨hunborn, List.mem_cons_self, hnone, ⟨r, ?_, ha, hr⟩, hl, .inr ⟨n, held, ?_⟩⟩
      · simp
      · simp
    · left
      have hold : s.tasks.holder u = some x := by simpa [he] using hu
      obtain ⟨hb, hd'⟩ := (h.rows u hold).resolve_right fun hf => by
        rcases hf.named with hn | ⟨m, k, hn⟩
        · simp [hd] at hn
        · simp [hx] at hn
      exact ⟨hb, by simpa [he] using hd'⟩
  · intro r' hr'
    obtain ⟨hp, hh⟩ := h.dead hl u hu r' hr'
    refine ⟨hp, fun hrl => ?_⟩
    simp [hh hrl]
  · change Drafted _ _ (s.locks.draft ())
    rw [hd]
    simp [Drafted, UniqueCall.Plain]
  · have hself : (s.setCall x (.tasked n held t)).calls x = .tasked n held t := by
      simp
    change CallKnows rowLocks _ x ((s.setCall x (.tasked n held t)).calls x)
    rw [hself]
    refine ⟨hl, hd, ?_, hunborn⟩
    simp

theorem UniqueInv.nameLock (hi : s.UniqueInv rowLocks) {held : Bool}
    (hx : s.calls x = .tasked n held t) :
    UniqueInv rowLocks { s.setCall x (.named n held t) with
      locks := s.locks.write x () (some (some t)) } := by
  have h := hi.footing x
  have hk := h.call
  rw [hx] at hk
  obtain ⟨hl, hd, ht, hb⟩ := hk
  refine hi.of_committed rfl rfl rfl (fun _ h => h) (fun _ h => h)
    (fun y hy => (frame_setCall hy).trans (frame_writeLock hy (.inr hl))) ⟨fun u hu => ?_,
      fun _ u hu => ?_, fun _ => ?_, ?_⟩
  · refine (h.rows u hu).imp_right fun hf => ?_
    have he : u = t := by
      rcases hf.named with hn | ⟨m, k, hn⟩
      · simp [hd] at hn
      · simp only [hx, UniqueCall.tasked.injEq] at hn
        exact hn.2.2.symm
    refine { hf with locked := ?_, named := .inl ?_ }
    · simp
    · simp [he]
  · exact h.dead hl u hu
  · refine ⟨ht, hb, .inr ⟨n, held, ?_⟩⟩
    simp
  · have hself : (s.setCall x (.named n held t)).calls x = .named n held t := by
      simp
    change CallKnows rowLocks _ x ((s.setCall x (.named n held t)).calls x)
    rw [hself]
    constructor <;> simp

theorem UniqueInv.finish (hi : s.UniqueInv rowLocks) {held : Bool}
    (hx : s.calls x = .named n held t) :
    UniqueInv rowLocks { s.setCall x (.returned t false) with returned := t :: s.returned } := by
  have h := hi.footing x
  have hk := h.call
  rw [hx] at hk
  obtain ⟨hl, hd⟩ := hk
  have hframe : ∀ y, y ≠ x → Frame rowLocks y s
      { s.setCall x (.returned t false) with returned := t :: s.returned } := by
    intro y hy
    have hcall : Frame rowLocks y s (s.setCall x (.returned t false)) := frame_setCall hy
    refine hcall.trans ?_
    apply Frame.of_committed <;> simp +contextual
  refine hi.of_committed rfl rfl rfl (fun _ h => h) (fun _ h => List.mem_cons_of_mem _ h) hframe
    ⟨fun u hu => ?_, h.dead, fun _ => ?_, ?_⟩
  · refine (h.rows u hu).imp_right fun hf => { hf with named := .inl ?_ }
    rcases hf.named with hn | ⟨m, k, hn⟩
    · exact hn
    · simp [hx] at hn
  · have hold := h.drafted hl
    change Drafted _ _ (s.locks.draft ())
    rw [hd] at hold ⊢
    exact ⟨hold.1, hold.2.1, .inl List.mem_cons_self⟩
  · refine .of_quiet ?_
    simp [UniqueCall.Quiet]

/-- `SELECT .. FOR UPDATE` of the holder that was found settled. -/
theorem UniqueInv.lockTask (hi : s.UniqueInv rowLocks) (hx : s.calls x = .settled n t)
    (hfree : s.tasks.Free x t) {c : UniqueCall}
    (hk : CallKnows rowLocks { s with tasks := s.tasks.lock x t } x c) :
    UniqueInv rowLocks { s.setCall x c with tasks := s.tasks.lock x t } := by
  have h := hi.footing x
  have hsettled := h.call
  rw [hx] at hsettled
  obtain ⟨hown, hb⟩ := hsettled
  refine hi.of_committed rfl rfl rfl (fun _ h => h) (fun _ h => h)
    (fun y hy => (frame_setCall hy).trans (frame_writeTask hy hfree)) ⟨fun u hu => .inl ?_,
      fun hl => absurd hl hown, fun hl => absurd hl hown, ?_⟩
  · change u ∈ s.born ∧ (s.tasks.lock x t).draft u = s.tasks.committed u
    unfold Store.lock
    rw [Store.draft_write]
    split_ifs with he
    · subst he
      exact ⟨hb, h.view_of_born hb⟩
    · have hold : s.tasks.holder u = some x := by simpa [he] using hu
      exact (h.rows u hold).resolve_right fun hf => hown hf.locked
  · change CallKnows rowLocks _ x ((s.setCall x c).calls x)
    rw [calls_setCall_self]
    exact hk

/-- The lock row of a dead task is deleted. -/
theorem UniqueInv.dropLock (hi : s.UniqueInv rowLocks) (hx : (s.calls x).Quiet)
    (hfree : s.locks.Free x ())
    (hdead : ∀ t, s.locks.committed () = some (some t) → s.DeadTask rowLocks x t)
    (hown : s.locks.holder () ≠ some x) :
    UniqueInv rowLocks { s with locks := s.locks.write x () none } := by
  have h := hi.footing x
  refine hi.of_committed rfl rfl rfl (fun _ h => h) (fun _ h => h)
    (fun y hy => frame_writeLock hy hfree) ⟨fun u hu => ?_, fun _ u hu => hdead u hu, fun _ => ?_,
      .of_quiet hx⟩
  · exact .inl (h.born_of_drafted (fun hl => absurd hl hown) hx.plain hu)
  · simp [Drafted]

/-- The INSERT of the lock row is undone, and with it that of the task. -/
theorem UniqueInv.undoInsert (hi : s.UniqueInv rowLocks) (hl : s.locks.holder () = some x)
    (held : Bool) {T : Store TaskId RowState ℕ}
    (hframe : ∀ y, y ≠ x → Frame rowLocks y s { s with tasks := T })
    (hc : T.committed = s.tasks.committed)
    (hrows : ∀ u, T.holder u = some x → u ∈ s.born ∧ T.draft u = T.committed u)
    (hkept : ∀ u ∈ s.born, s.tasks.holder u = some x → T.holder u = some x) :
    UniqueInv rowLocks (UniqueState.setCall { s.undoLock x held with tasks := T } x .raised) := by
  have h := hi.footing x
  have hlocks : (s.undoLock x held).locks.committed = s.locks.committed := by
    unfold UniqueState.undoLock
    cases held <;> rfl
  have hunlock : ∀ y, y ≠ x →
      Frame rowLocks y { s with tasks := T } { s.undoLock x held with tasks := T } := by
    intro y hy
    cases held with
    | false => exact frame_unlockLock hy hl
    | true => exact frame_writeLock hy (.inr hl)
  refine hi.of_committed hlocks hc (by cases held <;> rfl) (fun _ h => ?_) (fun _ h => ?_)
    (fun y hy => ((hframe y hy).trans (hunlock y hy)).trans (frame_setCall hy)) ⟨fun u hu => ?_,
      fun _ u hu => ?_, fun hx => ?_, ?_⟩
  · cases held <;> exact h
  · cases held <;> exact h
  · cases held <;> exact .inl (hrows u hu)
  · rw [locks_setCall] at hu
    change (s.undoLock x held).locks.committed () = _ at hu
    rw [hlocks] at hu
    obtain ⟨v, hv, hb⟩ := hi.names _ hu
    obtain rfl := Option.some.inj hv
    intro r hr
    obtain ⟨hp, hh⟩ := h.dead hl u hu r (hc ▸ hr)
    exact ⟨hp, fun hrl => hkept u hb (hh hrl)⟩
  · cases held with
    | false => simp [UniqueState.undoLock] at hx
    | true => simp [UniqueState.undoLock, Drafted]
  · refine .of_quiet ?_
    simp [UniqueCall.Quiet]

/-- The lock on a settled task is dropped. -/
theorem UniqueInv.unlockTask (hi : s.UniqueInv rowLocks) (hown : s.locks.holder () ≠ some x)
    (ht : s.tasks.holder t = some x) :
    (UniqueState.setCall { s with tasks := s.tasks.unlock t } x .raised).UniqueInv rowLocks := by
  have h := hi.footing x
  refine hi.of_committed rfl rfl rfl (fun _ h => h) (fun _ h => h)
    (fun y hy => (frame_unlockTask hy ht).trans (frame_setCall hy)) ⟨fun u hu => ?_,
      fun hl => absurd hl hown, fun hl => absurd hl hown, ?_⟩
  · have hold : s.tasks.holder u = some x := by
      have hu' : (s.tasks.unlock t).holder u = some x := hu
      rw [Store.holder_unlock] at hu'
      split_ifs at hu'
      exact hu'
    exact .inl ((h.rows u hold).resolve_right fun hf => hown hf.locked)
  · refine .of_quiet ?_
    simp [UniqueCall.Quiet]

theorem UniqueInv.undo (hi : s.UniqueInv rowLocks) :
    ((s.undo x).setCall x .raised).UniqueInv rowLocks := by
  have h := hi.footing x
  have hk := h.call
  -- The task of the call is its only one in the transaction.
  have hrows : ∀ t, s.locks.draft () = some (some t) ∨
      (s.locks.draft () = some none ∧ ∃ n held, s.calls x = .tasked n held t) →
      ∀ u, (s.tasks.unlock t).holder u = some x →
        u ∈ s.born ∧ s.tasks.draft u = s.tasks.committed u := by
    intro t ht u hu
    rw [Store.holder_unlock] at hu
    split_ifs at hu with he
    refine (h.rows u hu).resolve_right fun hf => he ?_
    rcases ht with hd | ⟨hd, n, held, hn⟩ <;> rcases hf.named with hd' | ⟨m, k, hm⟩
    · exact (Option.some.inj (Option.some.inj (hd.symm.trans hd'))).symm
    · rw [hm] at hk
      simp [hk.2.1] at hd
    · simp [hd] at hd'
    · exact (UniqueCall.tasked.inj (hn.symm.trans hm)).2.2.symm
  have hkept : ∀ t, t ∉ s.born → ∀ u ∈ s.born, s.tasks.holder u = some x →
      (s.tasks.unlock t).holder u = some x := by
    intro t hb u hu hh
    have he : u ≠ t := by
      rintro rfl
      exact hb hu
    simp [he, hh]
  unfold UniqueState.undo
  cases hx : s.calls x with
  | locked n held =>
    rw [hx] at hk
    obtain ⟨hl, hd⟩ := hk
    refine hi.undoInsert hl held (T := s.tasks) (fun y hy => ?_) rfl (fun u hu => ?_)
      fun u _ hu => hu
    · apply Frame.of_committed <;> simp
    · refine (h.rows u hu).resolve_right fun hf => ?_
      rcases hf.named with hd' | ⟨m, k, hm⟩
      · simp [hd] at hd'
      · simp [hx] at hm
  | tasked n held t =>
    rw [hx] at hk
    obtain ⟨hl, hd, ht, hb⟩ := hk
    exact hi.undoInsert hl held (fun y hy => frame_unlockTask hy ht) rfl
      (hrows t (.inr ⟨hd, n, held, hx⟩)) (hkept t hb)
  | named n held t =>
    rw [hx] at hk
    obtain ⟨hl, hd⟩ := hk
    have hdraft := h.drafted hl
    rw [hd] at hdraft
    exact hi.undoInsert hl held (fun y hy => frame_unlockTask hy hdraft.1) rfl (hrows t (.inl hd))
      (hkept t hdraft.2.1)
  | stale n gen | releasing n gen hit =>
    have hplain : (s.calls x).Plain := by simp [hx, UniqueCall.Plain]
    have hown : s.locks.holder () ≠ some x := by
      rw [hx] at hk
      first
        | exact hk.1
        | exact hk.2.1
    cases gen with
    | none => exact hi.setCall hplain trivial
    | some t =>
      simp only
      split_ifs with ht
      · exact hi.unlockTask hown ht
      · exact hi.setCall hplain trivial
  | _ =>
    refine hi.setCall ?_ trivial
    simp [hx, UniqueCall.Plain]

/-- A task row nobody holds is written, or deleted. -/
theorem UniqueInv.putTask (hi : s.UniqueInv rowLocks) {r : RowState} {v : Option RowState}
    (hfree : s.tasks.holder t = none) (hw : s.Writable rowLocks)
    (hr : s.tasks.committed t = some r) (ha : ∀ r' ∈ v, r'.Aged)
    (hp : ∀ r' ∈ v, r'.row.Pending → s.locks.committed () = some (some t)) :
    UniqueInv rowLocks { s with tasks := s.tasks.put t v } := by
  have hframe : ∀ y, Frame rowLocks y s { s with tasks := s.tasks.put t v } := by
    intro y
    refine ⟨rfl, .rfl, fun _ => ⟨rfl, rfl⟩, fun _ => .rfl, fun u hu => ⟨rfl, ?_, id⟩,
      fun _ h => h, fun _ h => h, fun _ h => h, fun u _ hy hd => ?_⟩
    · have he : u ≠ t := by
        rintro rfl
        simp [hfree] at hu
      simp [he]
    · intro r' hr'
      by_cases he : u = t
      · exfalso
        subst he
        rcases hy with hrl | hl
        · simp [(hd r hr).2 hrl] at hfree
        · rcases hw with hrl | hnone
          · simp [(hd r hr).2 hrl] at hfree
          · simp [hl] at hnone
      · rw [Store.committed_put, if_neg he] at hr'
        exact hd r' hr'
  have hcases : ∀ u, ∀ r' ∈ (s.tasks.put t v).committed u,
      (u = t ∧ r' ∈ v) ∨ r' ∈ s.tasks.committed u := by
    intro u r' hr'
    rw [Store.committed_put] at hr'
    split_ifs at hr' with he
    · exact .inl ⟨he, hr'⟩
    · exact .inr hr'
  refine ⟨fun u r' hr' hpend => ?_, fun u r' hr' => ?_, fun u hu => ?_, hi.used, hi.returned,
    hi.names, fun y => .frame hi (hframe y)⟩
  · rcases hcases u r' hr' with ⟨rfl, hv⟩ | hold
    · exact hp r' hv hpend
    · exact hi.named u r' hold hpend
  · rcases hcases u r' hr' with ⟨-, hv⟩ | hold
    · exact ha r' hv
    · exact hi.aged u r' hold
  · apply hi.born u
    change (s.tasks.put t v).committed u ≠ none at hu
    by_cases he : u = t
    · subst he
      simp [hr]
    · simpa [he] using hu

/-- The lock row is deleted in a transaction of one statement. -/
theorem UniqueInv.deleteStale (hi : s.UniqueInv rowLocks) {gen : Option TaskId}
    (hfree : s.locks.holder () = none) (hc : s.locks.committed () = some gen)
    (hstale : s.Stale gen) :
    UniqueInv rowLocks { s with locks := s.locks.put () none } := by
  have hframe : ∀ y, Frame rowLocks y s { s with locks := s.locks.put () none } := by
    intro y
    exact ⟨rfl, .rfl, fun hy => by simp [hfree] at hy, fun _ => .rfl,
      fun u hu => ⟨rfl, rfl, id⟩, fun _ h => h, fun _ h => h, fun _ h => h, fun _ _ _ hd => hd⟩
  refine ⟨fun u r hr hp => ?_, hi.aged, hi.born, hi.used, hi.returned, fun g hg => ?_,
    fun y => .frame hi (hframe y)⟩
  · exfalso
    obtain rfl := Option.some.inj (hc.symm.trans (hi.named u r hr hp))
    exact hstale u rfl r hr hp
  · simp at hg

end UniqueState

end DjangoOx
