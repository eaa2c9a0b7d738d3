import DjangoOx.Schedule.TickOnce

/-! The anchor of a settings schedule as its boundary: which passes fire before it, and that the
others do not. -/
namespace DjangoOx

open Machine

namespace DispatchState

variable {src : Source} {s s' : DispatchState} {p : ℕ} {t : ℤ}

/-- The first tick that was recorded is at or before the instant. -/
def AfterFirst (s : DispatchState) (t : ℤ) : Prop :=
  ∃ r, s.ever.getLast? = some r ∧ r.scheduledFor ≤ t

/-- What a pass may rely on: with a tick read, its own is not before the first one, and it decides to
fire under the same. A first sighting is decided under the latch. -/
def SightOk (s : DispatchState) (p : ℕ) : DispatchPass → Prop
  | .compared _ a | .cleared a => a.last ≠ none → s.AfterFirst a.scheduledFor
  | .refreshed a c => c.anchors = true ∧ (a.last ≠ none → s.AfterFirst a.scheduledFor)
  | .admitted d | .claimed d _ =>
    d.current.anchors = true ∧ (d.last ≠ none → s.AfterFirst d.scheduledFor)
  | .latched _ _ => s.latch = some p
  | .decided d _ true => s.AfterFirst d.scheduledFor
  | .decided _ _ false => s.latch = some p ∧ s.ever = []
  | _ => True

structure FirstInv (s : DispatchState) : Prop where
  kept : s.log = s.ever
  /-- The first tick is an anchor, and what follows it fires, at or after it. -/
  first : ∀ rest r, s.ever = rest ++ [r] → r.task = none ∧
    ∀ x ∈ rest, x.task.isSome ∧ r.scheduledFor ≤ x.scheduledFor
  passes : ∀ p, s.SightOk p (s.passes p)

/-- Nothing is deleted, and no pass that finds the newest tick ahead of its clock has a due tick
before the first one. -/
def SightsFirst (s : DispatchState) : DispatchAction → Prop
  | .delete _ => False
  | .compare p since => ∀ cached now t, s.passes p = .planned cached now t →
      (∃ l ∈ s.latestTick since, now < l) → ∀ e ∈ s.earliestTick, e ≤ t
  | _ => True

theorem SightOk.mono {x : DispatchPass} (h : s.SightOk p x)
    (hafter : ∀ t, s.AfterFirst t → s'.AfterFirst t)
    (hlatch : s.latch = some p → s'.latch = some p)
    (hever : s.latch = some p → s.ever = [] → s'.ever = []) : s'.SightOk p x := by
  cases x with
  | compared cached a => exact fun hl => hafter _ (h hl)
  | cleared a => exact fun hl => hafter _ (h hl)
  | refreshed a c => exact ⟨h.1, fun hl => hafter _ (h.2 hl)⟩
  | admitted d => exact ⟨h.1, fun hl => hafter _ (h.2 hl)⟩
  | claimed d pk => exact ⟨h.1, fun hl => hafter _ (h.2 hl)⟩
  | latched d pk => exact hlatch h
  | decided d pk fires =>
    cases fires with
    | true => exact hafter _ h
    | false => exact ⟨hlatch h.1, hever h.1 h.2⟩
  | _ => trivial

/-- The ticks of a log that began with an anchor. -/
theorem FirstInv.afterFirst (hi : s.FirstInv) (ht : t ∈ instants s.log) : s.AfterFirst t := by
  obtain ⟨x, hx, rfl⟩ := mem_instants.mp ht
  rw [hi.kept] at hx
  obtain ⟨rest, r, heq⟩ : ∃ rest r, s.ever = rest ++ [r] :=
    ⟨_, _, (List.dropLast_append_getLast (List.ne_nil_of_mem hx)).symm⟩
  refine ⟨r, by simp [heq], ?_⟩
  rw [heq] at hx
  rcases List.mem_append.mp hx with hrest | hlast
  · exact ((hi.first rest r heq).2 x hrest).2
  · exact (List.mem_singleton.mp hlast) ▸ le_rfl

theorem AfterFirst.mono {u : ℤ} (h : s.AfterFirst t) (hle : t ≤ u) : s.AfterFirst u := by
  obtain ⟨r, hr, hrt⟩ := h
  exact ⟨r, hr, hrt.trans hle⟩

theorem FirstInv.afterFirst_latest (hi : s.FirstInv) {since l : ℤ} (hl : l ∈ s.latestTick since) :
    s.AfterFirst l := by
  have hmem := List.max?_mem hl
  exact hi.afterFirst (List.mem_filter.mp hmem).1

theorem FirstInv.afterFirst_earliest (hi : s.FirstInv) {e : ℤ} (he : s.earliestTick = some e) :
    s.AfterFirst e :=
  hi.afterFirst (List.min?_mem he)

theorem FirstInv.ever_of_earliest (hi : s.FirstInv) (h : s.earliestTick = none) : s.ever = [] := by
  have hnil : instants s.log = [] := List.min?_eq_none_iff.mp h
  rw [← hi.kept]
  exact List.map_eq_nil_iff.mp hnil

/-- A step that records nothing. -/
theorem FirstInv.of_eq (hi : s.FirstInv) (hlog : s'.log = s.log) (hever : s'.ever = s.ever)
    (hpass : ∀ p, s'.SightOk p (s'.passes p)) : s'.FirstInv where
  kept := by
    rw [hlog, hever]
    exact hi.kept
  first := by
    rw [hever]
    exact hi.first
  passes := hpass

theorem afterFirst_of_eq (h : s'.ever = s.ever) : s'.AfterFirst t ↔ s.AfterFirst t := by
  unfold AfterFirst
  rw [h]

/-- One pass moves on, in a state with the same log and the same latch for the others. -/
theorem FirstInv.move {x : DispatchPass} (hi : s.FirstInv) (hlog : s'.log = s.log)
    (hever : s'.ever = s.ever) (hp : ∀ q, q ≠ p → s'.passes q = s.passes q)
    (hlatch : ∀ q, q ≠ p → s.latch = some q → s'.latch = some q) (hx : s'.passes p = x)
    (hok : s'.SightOk p x) : s'.FirstInv := by
  refine hi.of_eq hlog hever fun q => ?_
  by_cases hq : q = p
  · rw [hq, hx]
    exact hok
  · rw [hp q hq]
    refine (hi.passes q).mono (fun u => (afterFirst_of_eq hever).mpr) (hlatch q hq) fun _ h => ?_
    rw [hever]
    exact h

theorem FirstInv.setPass {x : DispatchPass} (hi : s.FirstInv) (hx : s.SightOk p x) :
    (s.setPass p x).FirstInv := by
  refine hi.move rfl rfl (fun q hq => ?_) (fun _ _ h => h) (x := x) ?_ (hx.mono ?_ ?_ ?_)
  · rw [passes_setPass, if_neg hq]
  · rw [passes_setPass, if_pos rfl]
  · exact fun _ h => h
  · exact fun h => h
  · exact fun _ h => h

theorem FirstInv.release (hi : s.FirstInv) : (s.release p).FirstInv := by
  refine hi.move (p := p) (x := .idle) rfl rfl (fun q hq => ?_) (fun q hq h => ?_) ?_ trivial
  · change (s.setPass p .idle).passes q = s.passes q
    rw [passes_setPass, if_neg hq]
  · have hne : s.latch ≠ some p := by
      rw [h]
      simpa using hq
    change (if s.latch = some p then none else s.latch) = some q
    rw [if_neg hne]
    exact h
  · change (s.setPass p .idle).passes p = .idle
    rw [passes_setPass, if_pos rfl]

/-- A pass that finds another tick recorded fires at or after the first one. -/
theorem FirstInv.decide {pk : ℕ} {d : Admission} {e : ℤ} (hi : s.FirstInv)
    (he : s.earliestTick = some e) : (s.decide p d pk e).FirstInv := by
  unfold DispatchState.decide
  split_ifs with hlt
  · exact hi.release
  · refine hi.setPass ?_
    exact (hi.afterFirst_earliest he).mono (not_lt.mp hlt)

/-- A tick commits: the first one without a task, by the one pass that holds the latch. -/
theorem FirstInv.commit {pk : ℕ} {d : Admission} {fires : Bool} {task : TaskId} (hi : s.FirstInv)
    (hp : s.passes p = .decided d pk fires) :
    FirstInv { s.release p with
      log := ⟨pk, d.scheduledFor, if fires then some task else none⟩ :: s.log
      ever := ⟨pk, d.scheduledFor, if fires then some task else none⟩ :: s.ever } := by
  have hok : s.SightOk p (.decided d pk fires) := hp ▸ hi.passes p
  have hlast : ∀ (x r : TickRow), s.ever.getLast? = some r → (x :: s.ever).getLast? = some r := by
    intro x r hr
    rw [List.getLast?_cons, hr]
    rfl
  refine ⟨congrArg _ hi.kept, fun rest r heq => ?_, fun q => ?_⟩
  · change _ :: s.ever = rest ++ [r] at heq
    cases rest with
    | nil =>
      obtain ⟨rfl, hnil⟩ := List.cons.inj heq
      refine ⟨?_, by simp⟩
      cases fires with
      | false => rfl
      | true =>
        obtain ⟨r', hr', -⟩ := hok
        simp [hnil] at hr'
    | cons y rest =>
      obtain ⟨rfl, hrest⟩ := List.cons.inj heq
      obtain ⟨htask, hall⟩ := hi.first rest r hrest
      refine ⟨htask, fun x hx => ?_⟩
      rcases List.mem_cons.mp hx with rfl | hx
      · cases fires with
        | false => simp [hok.2] at hrest
        | true =>
          obtain ⟨r', hr', hle⟩ := hok
          rw [hrest] at hr'
          obtain rfl := Option.some.inj ((List.getLast?_concat (l := rest)).symm.trans hr')
          exact ⟨rfl, hle⟩
      · exact hall x hx
  · change SightOk _ q ((s.setPass p .idle).passes q)
    rw [passes_setPass]
    by_cases hq : q = p
    · rw [if_pos hq]
      trivial
    · rw [if_neg hq]
      refine (hi.passes q).mono (fun u hu => ?_) (fun h => ?_) fun h hnil => ?_
      · obtain ⟨r, hr, hle⟩ := hu
        exact ⟨r, hlast _ r hr, hle⟩
      · have hne : s.latch ≠ some p := by
          rw [h]
          simpa using hq
        change (if s.latch = some p then none else s.latch) = some q
        rw [if_neg hne]
        exact h
      · -- with nothing recorded, the tick is an anchor, and its pass holds the latch
        exfalso
        cases fires with
        | false => exact hq (Option.some.inj (h.symm.trans hok.1))
        | true =>
          obtain ⟨r, hr, -⟩ := hok
          simp [hnil] at hr

theorem first_of_start (h : s.Start) : s.FirstInv := by
  obtain ⟨-, -, hl, -, -, hp, -, -, he⟩ := h
  refine ⟨hl.trans he.symm, by simp [he], fun p => ?_⟩
  rw [hp p]
  trivial

theorem first_step {z : Zone} {schedule : Schedule} {a : DispatchAction}
    (hanchors : schedule.anchors = true) (hi : s.FirstInv) (hc : s.SightsFirst a)
    (h : step (.settings z schedule) s a = some s') : s'.FirstInv := by
  cases a with
  | plan p cached now =>
    simp only [step] at h
    split at h
    · obtain ⟨-, h⟩ := Option.ite_none_right_eq_some.mp h
      obtain ⟨t, -, rfl⟩ := Option.map_eq_some_iff.mp h
      have hread : (s.readClock p now).FirstInv := hi.of_eq rfl rfl hi.passes
      exact hread.setPass trivial
    · cases h
  | compare p since =>
    simp only [step] at h
    split at h
    · next cached now t hp =>
      obtain ⟨-, h⟩ := Option.ite_none_right_eq_some.mp h
      split_ifs at h with hsup
      · obtain rfl := Option.some.inj h
        exact hi.setPass trivial
      · obtain rfl := Option.some.inj h
        refine hi.setPass fun hl => ?_
        obtain ⟨l, hlast⟩ := Option.ne_none_iff_exists'.mp hl
        have hafter := hi.afterFirst_latest hlast
        by_cases hlt : l < t
        · exact hafter.mono hlt.le
        · -- the newest tick is ahead of the clock
          have hahead : now < l := by
            by_contra hnow
            exact hsup (.inr ⟨l, hlast, not_lt.mp hlt, not_lt.mp hnow⟩)
          have hle := hc cached now t hp ⟨l, hlast, hahead⟩
          cases he : s.earliestTick with
          | none =>
            obtain ⟨r, hr, -⟩ := hafter
            simp [hi.ever_of_earliest he] at hr
          | some e => exact (hi.afterFirst_earliest he).mono (hle e he)
    · cases h
  | check p =>
    simp only [step] at h
    split at h
    · next cached a hp =>
      have hok : s.SightOk p (.compared cached a) := hp ▸ hi.passes p
      split_ifs at h
      · obtain rfl := Option.some.inj h
        exact hi.setPass trivial
      · obtain rfl := Option.some.inj h
        exact hi.setPass trivial
      · obtain rfl := Option.some.inj h
        exact hi.setPass hok
    · cases h
  | refresh p registered =>
    simp only [step] at h
    split at h
    · next a z' schedule' hp hsrc =>
      obtain ⟨-, rfl⟩ := Source.settings.inj hsrc
      have hok : s.SightOk p (.cleared a) := hp ▸ hi.passes p
      obtain rfl := Option.some.inj h
      exact hi.setPass ⟨hanchors, hok⟩
    · next hsrc => cases hsrc
    · cases h
  | recheckDue p now =>
    simp only [step] at h
    split at h
    · next a c hp =>
      have hok : s.SightOk p (.refreshed a c) := hp ▸ hi.passes p
      obtain ⟨-, h⟩ := Option.ite_none_right_eq_some.mp h
      have hread : (s.readClock p now).FirstInv := hi.of_eq rfl rfl hi.passes
      split_ifs at h
      · obtain rfl := Option.some.inj h
        exact hread.setPass hok
      · obtain rfl := Option.some.inj h
        exact hread.release
    · cases h
  | insert p =>
    simp only [step] at h
    split at h
    · next d hp =>
      have hok : s.SightOk p (.admitted d) := hp ▸ hi.passes p
      split_ifs at h
      · obtain rfl := Option.some.inj h
        exact hi.release
      · obtain rfl := Option.some.inj h
        have hset : (s.setPass p (.claimed d s.nextPk)).FirstInv := hi.setPass hok
        exact hset.of_eq rfl rfl hset.passes
    · cases h
  | anchor p =>
    simp only [step] at h
    split at h
    · next d pk hp =>
      have hok : s.SightOk p (.claimed d pk) := hp ▸ hi.passes p
      split_ifs at h with hlook
      · split at h
        · next e he =>
          obtain rfl := Option.some.inj h
          exact hi.decide he
        · obtain rfl := Option.some.inj h
          exact hi.setPass trivial
      · obtain rfl := Option.some.inj h
        refine hi.setPass ?_
        exact hok.2 fun hnone => hlook ⟨hnone, hok.1⟩
    · cases h
  | latch p =>
    simp only [step] at h
    split at h
    · next d pk hp =>
      obtain ⟨hnone, h⟩ := Option.ite_none_right_eq_some.mp h
      obtain rfl := Option.some.inj h
      refine hi.move (p := p) (x := .latched d pk) rfl rfl (fun q hq => ?_) (fun q hq h => ?_) ?_ rfl
      · exact Function.update_of_ne hq _ _
      · simp [hnone] at h
      · exact Function.update_self ..
    · cases h
  | relook p =>
    simp only [step] at h
    split at h
    · next d pk hp =>
      have hok : s.SightOk p (.latched d pk) := hp ▸ hi.passes p
      split at h
      · next e he =>
        obtain rfl := Option.some.inj h
        exact hi.decide he
      · next he =>
        obtain rfl := Option.some.inj h
        refine hi.setPass ?_
        exact ⟨hok, hi.ever_of_earliest he⟩
    · cases h
  | commit p task =>
    simp only [step] at h
    split at h
    · next d pk fires hp =>
      obtain rfl := Option.some.inj h
      exact hi.commit hp
    · cases h
  | abort p =>
    obtain rfl := Option.some.inj h
    exact hi.release
  | delete q => exact hc.elim
  | _ =>
    simp only [step] at h
    repeat' split at h
    all_goals simp only [Option.some.injEq, reduceCtorEq] at h
    all_goals
      subst h
      exact hi.of_eq rfl rfl hi.passes

end DispatchState

/-- With nothing deleting ticks, and no pass that finds the newest tick ahead of its clock due before
the first one, no tick that fires is before the schedule's anchor. -/
theorem nothing_fires_before_anchor {z : Zone} {schedule : Schedule}
    (hanchors : schedule.anchors = true) {s : DispatchState}
    (h : (dispatchSystem (.settings z schedule)).ReachesBy DispatchState.SightsFirst s) :
    ∀ r ∈ s.ever, r.task = none → ∀ x ∈ s.ever, x.task.isSome → r.scheduledFor ≤ x.scheduledFor := by
  have hi : s.FirstInv := h.invariant DispatchState.FirstInv
    (fun _ hs => DispatchState.first_of_start hs)
    fun _ _ _ hi hc hs => DispatchState.first_step hanchors hi hc hs
  intro r hr hnone x hx hsome
  obtain ⟨rest, f, heq⟩ : ∃ rest f, s.ever = rest ++ [f] :=
    ⟨_, _, (List.dropLast_append_getLast (List.ne_nil_of_mem hr)).symm⟩
  obtain ⟨hf, hrest⟩ := hi.first rest f heq
  rw [heq] at hr hx
  -- the anchor is the first tick, and a tick that fires is not
  have hrf : r = f := by
    rcases List.mem_append.mp hr with hr | hr
    · have hfires := (hrest r hr).1
      simp [hnone] at hfires
    · exact List.mem_singleton.mp hr
  rcases List.mem_append.mp hx with hx | hx
  · rw [hrf]
    exact (hrest x hx).2
  · rw [List.mem_singleton.mp hx, hf] at hsome
    cases hsome

namespace DispatchState

/-- Nothing is deleted, and no newest tick is ahead of the clock of the pass that reads it. -/
def present (s : DispatchState) : DispatchAction → Bool
  | .delete _ => false
  | .compare p since =>
    match s.passes p with
    | .planned _ now _ => (s.latestTick since).all (· ≤ now)
    | _ => true
  | _ => true

theorem sightsFirst_of_present {s : DispatchState} {a : DispatchAction} (h : s.present a = true) :
    s.SightsFirst a := by
  cases a with
  | compare p since =>
    rintro cached now t hp ⟨l, hl, hlt⟩
    simp only [present, hp] at h
    have hle : l ≤ now := by
      rw [Option.mem_def.mp hl] at h
      exact of_decide_eq_true h
    omega
  | delete q => cases h
  | _ => trivial

end DispatchState

/-- Worker 0 anchors at 0 and fires at 10. -/
theorem nothing_fires_before_anchor_ten :
    ∃ s, (dispatchSystem everyTenSource).run emptyDispatch
        (anchorsAtZero 0 ++ insertsAt 0 10 10 ++ [.commit 0 1]) = some s ∧
      s.ever = [⟨2, 10, some 1⟩, ⟨1, 0, none⟩] ∧
      ∀ x ∈ s.ever, x.task.isSome → 0 ≤ x.scheduledFor := by
  have after : ∀ s, ((dispatchSystem everyTenSource).only fun s a => s.present a = true).run
        emptyDispatch (anchorsAtZero 0 ++ insertsAt 0 10 10 ++ [.commit 0 1]) = some s →
      (⟨1, 0, none⟩ : TickRow) ∈ s.ever → ∀ x ∈ s.ever, x.task.isSome → 0 ≤ x.scheduledFor := by
    intro s hr hmem
    have hreach : (dispatchSystem everyTenSource).ReachesBy DispatchState.SightsFirst s :=
      System.ReachesBy.run (fun _ _ h => DispatchState.sightsFirst_of_present h)
        (.init emptyDispatch_start) hr
    exact nothing_fires_before_anchor rfl hreach _ hmem rfl
  exact ⟨_, rfl, rfl, after _ rfl (by decide)⟩

/-- Worker 0 anchors at 20; the clock of worker 1 is at 15, so it finds the anchor in its future, and
fires the tick at 10. -/
theorem fires_before_anchor :
    ∃ s, (dispatchSystem everyTenSource).run emptyDispatch
        (insertsAt 0 20 20 ++ [.latch 0, .relook 0, .commit 0 0] ++ insertsAt 1 15 10 ++
          [.commit 1 1]) = some s ∧
      s.ever = [⟨2, 10, some 1⟩, ⟨1, 20, none⟩] ∧
      ¬ ∀ r ∈ s.ever, r.task = none → ∀ x ∈ s.ever, x.task.isSome →
        r.scheduledFor ≤ x.scheduledFor :=
  ⟨_, rfl, rfl, by decide⟩

end DjangoOx
