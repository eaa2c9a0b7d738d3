import DjangoOx.Cron.Exact
import DjangoOx.Schedule.Dispatch

/-! A stored schedule's activation boundary: no tick from before a retiming or a resumption. -/
namespace DjangoOx

open Machine

namespace DispatchState

variable {d : Deployment} {s s' : DispatchState}

/-- The pass holds the row's lock, and `c` is what the row says. -/
def Held (d : Deployment) (s : DispatchState) (p : ℕ) (c : Schedule) : Prop :=
  s.lock = some (.pass p) ∧ ∃ row registered, s.row = some row ∧ row.current d registered = some c

/-- What a pass over a stored row may rely on. -/
def PassOk (d : Deployment) (s : DispatchState) (p : ℕ) : DispatchPass → Prop
  | .idle => True
  | .planned _ now t => t ≤ now
  | .compared _ a | .cleared a => a.scheduledFor ≤ a.now
  | .refreshed a c => a.scheduledFor ≤ a.now ∧ s.Held d p c
  | .admitted m | .claimed m _ | .seeking m _ | .latched m _ | .decided m _ _ =>
    m.scheduledFor ≤ m.now ∧ s.Held d p m.current ∧
      m.current.StillDue d.zone m.scheduledFor (d.zone.localtime m.now) m.admittedAt

/-- What a writer of the row may rely on. -/
def WriterOk (d : Deployment) (s : DispatchState) (u : ℕ) : ScheduleWriter → Prop
  | .idle => True
  | .locked row => s.lock = some (.writer u) ∧ s.row = some row
  | .written row changed now =>
    s.lock = some (.writer u) ∧ s.row = some row ∧ now ≤ s.reading ∧
      (∀ m ∈ s.activations, m ≤ now) ∧
      ∃ f valid, row.updateSchedule d valid f now = some changed

/-- What a run under one clock keeps: nothing activates the row after its boundary. -/
structure BoundaryInv (d : Deployment) (s : DispatchState) : Prop where
  passes : ∀ p, s.PassOk d p (s.passes p)
  writers : ∀ u, s.WriterOk d u (s.writers u)
  read : ∀ m ∈ s.activations, m ≤ s.reading
  unborn : s.row = none → s.activations = []
  boundary : ∀ row, s.row = some row → ∀ m ∈ s.activations, m ≤ row.startTime

theorem PassOk.frame {p : ℕ} {x : DispatchPass} (h : s.PassOk d p x)
    (hf : s.lock = some (.pass p) → s'.lock = s.lock ∧ s'.row = s.row) : s'.PassOk d p x := by
  have hheld : ∀ {c}, s.Held d p c → s'.Held d p c := by
    rintro c ⟨hl, row, registered, hrow, hc⟩
    obtain ⟨hl', hr'⟩ := hf hl
    exact ⟨hl'.trans hl, row, registered, hr'.trans hrow, hc⟩
  cases x with
  | idle => trivial
  | planned => exact h
  | compared => exact h
  | cleared => exact h
  | refreshed => exact ⟨h.1, hheld h.2⟩
  | admitted => exact ⟨h.1, hheld h.2.1, h.2.2⟩
  | claimed => exact ⟨h.1, hheld h.2.1, h.2.2⟩
  | seeking => exact ⟨h.1, hheld h.2.1, h.2.2⟩
  | latched => exact ⟨h.1, hheld h.2.1, h.2.2⟩
  | decided => exact ⟨h.1, hheld h.2.1, h.2.2⟩

theorem WriterOk.frame {u : ℕ} {x : ScheduleWriter} (h : s.WriterOk d u x)
    (hf : s.lock = some (.writer u) → s'.lock = s.lock ∧ s'.row = s.row ∧
      s'.activations = s.activations) (hread : s.reading ≤ s'.reading) : s'.WriterOk d u x := by
  cases x with
  | idle => trivial
  | locked row =>
    obtain ⟨hl, hr⟩ := h
    obtain ⟨hl', hr', -⟩ := hf hl
    exact ⟨hl'.trans hl, hr'.trans hr⟩
  | written row changed now =>
    obtain ⟨hl, hr, hnow, hact, hup⟩ := h
    obtain ⟨hl', hr', ha'⟩ := hf hl
    exact ⟨hl'.trans hl, hr'.trans hr, hnow.trans hread, ha' ▸ hact, hup⟩

theorem BoundaryInv.setPass {p : ℕ} {x : DispatchPass} (hi : s.BoundaryInv d) (hx : s.PassOk d p x) :
    (s.setPass p x).BoundaryInv d := by
  refine { hi with
    passes := fun q => ?_
    writers := fun u => (hi.writers u).frame (fun _ => ⟨rfl, rfl, rfl⟩) le_rfl }
  rw [passes_setPass]
  by_cases hq : q = p
  · subst hq
    rw [if_pos rfl]
    exact hx.frame fun _ => ⟨rfl, rfl⟩
  · rw [if_neg hq]
    exact (hi.passes q).frame fun _ => ⟨rfl, rfl⟩

theorem BoundaryInv.readClock {p : ℕ} {now : ℤ} (hi : s.BoundaryInv d) :
    (s.readClock p now).BoundaryInv d :=
  { hi with
    passes := fun q => (hi.passes q).frame fun _ => ⟨rfl, rfl⟩
    writers := fun u => (hi.writers u).frame (fun _ => ⟨rfl, rfl, rfl⟩) (le_max_left _ _)
    read := fun m hm => (hi.read m hm).trans (le_max_left _ _) }

/-- The tick log and its locks are no part of the invariant. -/
theorem BoundaryInv.of_eq (hi : s.BoundaryInv d) (hrow : s'.row = s.row) (hlock : s'.lock = s.lock)
    (hpass : s'.passes = s.passes) (hwriters : s'.writers = s.writers)
    (hread : s'.reading = s.reading) (hact : s'.activations = s.activations) :
    s'.BoundaryInv d where
  passes p := hpass ▸ (hi.passes p).frame fun _ => ⟨hlock, hrow⟩
  writers u := hwriters ▸ (hi.writers u).frame (fun _ => ⟨hlock, hrow, hact⟩) hread.ge
  read := by
    rw [hact, hread]
    exact hi.read
  unborn h := hact.trans (hi.unborn (hrow.symm.trans h))
  boundary row h := by
    rw [hact]
    exact hi.boundary row (hrow.symm.trans h)

theorem BoundaryInv.release {p : ℕ} (hi : s.BoundaryInv d) : (s.release p).BoundaryInv d := by
  have hlock : ∀ x : RowHolder, x ≠ .pass p → s.lock = some x → (s.release p).lock = s.lock := by
    intro x hx hl
    have hne : s.lock ≠ some (.pass p) := by
      rw [hl]
      intro h
      exact hx (Option.some.inj h)
    exact if_neg hne
  refine { hi with
    passes := fun q => ?_
    writers := fun u => (hi.writers u).frame (fun hl => ⟨hlock _ (by simp) hl, rfl, rfl⟩) le_rfl }
  change (s.release p).PassOk d q ((s.setPass p .idle).passes q)
  rw [passes_setPass]
  by_cases hq : q = p
  · rw [if_pos hq]
    trivial
  · rw [if_neg hq]
    exact (hi.passes q).frame fun hl => ⟨hlock _ (by simpa using hq) hl, rfl⟩

/-- The pass takes the row's lock and reads it. -/
theorem BoundaryInv.refresh {p : ℕ} {a : Attempt} {c : Schedule} {row : OxSchedule}
    {registered : String → String → Bool} (hi : s.BoundaryInv d) (hlock : s.lock = none)
    (ht : a.scheduledFor ≤ a.now) (hrow : s.row = some row)
    (hc : row.current d registered = some c) :
    BoundaryInv d { s.setPass p (.refreshed a c) with lock := some (.pass p) } := by
  refine { hi with
    passes := fun q => ?_
    writers := fun u => (hi.writers u).frame (by simp [hlock]) le_rfl }
  change PassOk d { s.setPass p (.refreshed a c) with lock := some (.pass p) } q
    ((s.setPass p (.refreshed a c)).passes q)
  rw [passes_setPass]
  by_cases hq : q = p
  · subst hq
    rw [if_pos rfl]
    exact ⟨ht, rfl, row, registered, hrow, hc⟩
  · rw [if_neg hq]
    exact (hi.passes q).frame (by simp [hlock])

theorem BoundaryInv.decide {p pk : ℕ} {m : Admission} {e : ℤ} (hi : s.BoundaryInv d)
    (hm : s.PassOk d p (.admitted m)) : (s.decide p m pk e).BoundaryInv d := by
  unfold DispatchState.decide
  split_ifs
  · exact hi.release
  · exact hi.setPass hm

/-- All clocks are one clock that never goes back. -/
def OneClock (s : DispatchState) (a : DispatchAction) : Prop :=
  ∀ now ∈ a.reads, s.reading ≤ now

instance (s : DispatchState) (a : DispatchAction) : Decidable (s.OneClock a) :=
  inferInstanceAs (Decidable (∀ now ∈ a.reads, s.reading ≤ now))

theorem BoundaryInv.lockRow {u : ℕ} {row : OxSchedule} (hi : s.BoundaryInv d)
    (hlock : s.lock = none) (hrow : s.row = some row) :
    BoundaryInv d { s.setWriter u (.locked row) with lock := some (.writer u) } := by
  refine { hi with
    passes := fun q => (hi.passes q).frame (by simp [hlock])
    writers := fun v => ?_ }
  change WriterOk d { s.setWriter u (.locked row) with lock := some (.writer u) } v
    ((s.setWriter u (.locked row)).writers v)
  rw [writers_setWriter]
  by_cases hv : v = u
  · subst hv
    rw [if_pos rfl]
    exact ⟨rfl, hrow⟩
  · rw [if_neg hv]
    exact (hi.writers v).frame (by simp [hlock]) le_rfl

theorem BoundaryInv.write {u : ℕ} {row changed : OxSchedule} {f : Fields}
    {valid : OxSchedule → Bool} {now : ℤ} (hi : s.BoundaryInv d)
    (hw : s.writers u = .locked row) (hnow : s.reading ≤ now)
    (hup : row.updateSchedule d valid f now = some changed) :
    BoundaryInv d { s.setWriter u (.written row changed now) with
      reading := max s.reading now } := by
  have hle : s.reading ≤ max s.reading now := le_max_left _ _
  refine { hi with
    passes := fun q => (hi.passes q).frame fun _ => ⟨rfl, rfl⟩
    writers := fun v => ?_
    read := fun m hm => (hi.read m hm).trans hle }
  change WriterOk d { s.setWriter u (.written row changed now) with reading := max s.reading now } v
    ((s.setWriter u (.written row changed now)).writers v)
  rw [writers_setWriter]
  by_cases hv : v = u
  · subst hv
    rw [if_pos rfl]
    have hl := hi.writers v
    rw [hw] at hl
    exact ⟨hl.1, hl.2, le_max_right _ _, fun m hm => (hi.read m hm).trans hnow, f, valid, hup⟩
  · rw [if_neg hv]
    exact (hi.writers v).frame (fun _ => ⟨rfl, rfl, rfl⟩) hle

/-- A write commits: an activation it makes moves the boundary to its own clock. -/
theorem BoundaryInv.commitRow {u : ℕ} {row changed : OxSchedule} {now : ℤ} (hi : s.BoundaryInv d)
    (hw : s.writers u = .written row changed now) :
    BoundaryInv d { s.setWriter u .idle with
      row := some changed
      lock := none
      activations := if row.Activates changed then now :: s.activations else s.activations } := by
  have hok := hi.writers u
  rw [hw] at hok
  obtain ⟨hlock, hrow, hnow, hact, f, valid, hup⟩ := hok
  obtain ⟨hstart, hmoves⟩ := OxSchedule.updateSchedule_boundary hup
  have hold : ∀ m ∈ s.activations, m ≤ changed.startTime := by
    intro m hm
    rcases hstart with h | h
    · exact h ▸ hi.boundary row hrow m hm
    · exact h ▸ hact m hm
  refine ⟨fun q => ?_, fun v => ?_, fun m hm => ?_, fun h => (by cases h), fun r hr m hm => ?_⟩
  · exact (hi.passes q).frame (by simp [hlock])
  · change WriterOk d _ v ((s.setWriter u .idle).writers v)
    rw [writers_setWriter]
    by_cases hv : v = u
    · rw [if_pos hv]
      trivial
    · rw [if_neg hv]
      refine (hi.writers v).frame (fun hl => ?_) le_rfl
      rw [hlock] at hl
      exact absurd (RowHolder.writer.inj (Option.some.inj hl)).symm hv
  · change m ≤ s.reading
    split_ifs at hm with ha
    · rcases List.mem_cons.mp hm with rfl | hm
      · exact hnow
      · exact hi.read m hm
    · exact hi.read m hm
  · obtain rfl : changed = r := Option.some.inj hr
    split_ifs at hm with ha
    · rcases List.mem_cons.mp hm with rfl | hm
      · exact (hmoves ha).ge
      · exact hold m hm
    · exact hold m hm

theorem BoundaryInv.rollbackRow {u : ℕ} (hi : s.BoundaryInv d) (hw : s.writers u ≠ .idle) :
    BoundaryInv d { s.setWriter u .idle with lock := none } := by
  have hlock : s.lock = some (.writer u) := by
    have hok := hi.writers u
    cases hx : s.writers u with
    | idle => exact absurd hx hw
    | locked row =>
      rw [hx] at hok
      exact hok.1
    | written row changed now =>
      rw [hx] at hok
      exact hok.1
  refine { hi with
    passes := fun q => (hi.passes q).frame (by simp [hlock])
    writers := fun v => ?_ }
  change WriterOk d _ v ((s.setWriter u .idle).writers v)
  rw [writers_setWriter]
  by_cases hv : v = u
  · rw [if_pos hv]
    trivial
  · rw [if_neg hv]
    refine (hi.writers v).frame (fun hl => ?_) le_rfl
    rw [hlock] at hl
    exact absurd (RowHolder.writer.inj (Option.some.inj hl)).symm hv

theorem BoundaryInv.create {row : OxSchedule} {now : ℤ} (hi : s.BoundaryInv d)
    (hrow : s.row = none) :
    BoundaryInv d { s with row := some row, reading := max s.reading now } := by
  have hle : s.reading ≤ max s.reading now := le_max_left _ _
  refine { hi with
    passes := fun q => ?_
    writers := fun v => ?_
    read := fun m hm => (hi.read m hm).trans hle
    unborn := fun h => by cases h
    boundary := fun r _ m hm => ?_ }
  · -- nobody holds the lock of a row that is not there
    have hok := hi.passes q
    cases hx : s.passes q <;> rw [hx] at hok
    case idle => trivial
    case planned => exact hok
    case compared => exact hok
    case cleared => exact hok
    case refreshed =>
      obtain ⟨-, -, r, _, hr, -⟩ := hok
      simp [hrow] at hr
    all_goals
      obtain ⟨-, ⟨-, r, _, hr, -⟩, -⟩ := hok
      simp [hrow] at hr
  · have hok := hi.writers v
    cases hx : s.writers v <;> rw [hx] at hok
    case idle => trivial
    case locked =>
      obtain ⟨-, hr⟩ := hok
      simp [hrow] at hr
    case written =>
      obtain ⟨-, hr, -⟩ := hok
      simp [hrow] at hr
  · change m ∈ s.activations at hm
    rw [hi.unborn hrow] at hm
    cases hm

theorem boundary_of_start (h : s.Start) : s.BoundaryInv d := by
  obtain ⟨-, hw, -, -, -, hp, -, ha, -⟩ := h
  refine ⟨fun p => ?_, fun u => ?_, by simp [ha], fun _ => ha, by simp [ha]⟩
  · rw [hp p]
    trivial
  · rw [hw u]
    trivial

theorem boundary_step {a : DispatchAction} (hi : s.BoundaryInv d) (hc : s.OneClock a)
    (h : step (.stored d) s a = some s') : s'.BoundaryInv d := by
  cases a with
  | plan p cached now =>
    simp only [step] at h
    split at h
    · obtain ⟨-, h⟩ := Option.ite_none_right_eq_some.mp h
      obtain ⟨t, ht, rfl⟩ := Option.map_eq_some_iff.mp h
      have hle : t ≤ now := Schedule.due_le ht
      exact hi.readClock.setPass hle
    · cases h
  | compare p since =>
    simp only [step] at h
    split at h
    · next cached now t hp =>
      obtain ⟨-, h⟩ := Option.ite_none_right_eq_some.mp h
      have hok : t ≤ now := by
        have := hi.passes p
        rwa [hp] at this
      split_ifs at h
      · obtain rfl := Option.some.inj h
        exact hi.setPass trivial
      · obtain rfl := Option.some.inj h
        exact hi.setPass hok
    · cases h
  | check p =>
    simp only [step] at h
    split at h
    · next cached a hp =>
      have hok : a.scheduledFor ≤ a.now := by
        have := hi.passes p
        rwa [hp] at this
      split_ifs at h
      · obtain rfl := Option.some.inj h
        exact hi.setPass trivial
      · obtain rfl := Option.some.inj h
        exact hi.setPass trivial
      · obtain rfl := Option.some.inj h
        exact hi.setPass hok
    · cases h
  | refresh p registered =>
    simp only [step] at h
    split at h
    · next hsrc => cases hsrc
    · next a d' hp hsrc =>
      obtain rfl := Source.stored.inj hsrc
      obtain ⟨hlock, h⟩ := Option.ite_none_right_eq_some.mp h
      have hok : a.scheduledFor ≤ a.now := by
        have := hi.passes p
        rwa [hp] at this
      split at h
      · next c hc =>
        obtain rfl := Option.some.inj h
        obtain ⟨row, hrow, hcur⟩ := Option.bind_eq_some_iff.mp hc
        exact hi.refresh hlock hok hrow hcur
      · obtain rfl := Option.some.inj h
        exact hi.setPass trivial
    · cases h
  | recheckDue p now =>
    simp only [step] at h
    split at h
    · next a c hp =>
      obtain ⟨-, h⟩ := Option.ite_none_right_eq_some.mp h
      have hok := hi.passes p
      rw [hp] at hok
      split_ifs at h with hdue
      · obtain rfl := Option.some.inj h
        exact hi.readClock.setPass ⟨hok.1, hok.2, hdue⟩
      · obtain rfl := Option.some.inj h
        exact hi.readClock.release
    · cases h
  | insert p =>
    simp only [step] at h
    split at h
    · next m hp =>
      have hok := hi.passes p
      rw [hp] at hok
      split_ifs at h
      · obtain rfl := Option.some.inj h
        exact hi.release
      · obtain rfl := Option.some.inj h
        have hset : (s.setPass p (.claimed m s.nextPk)).BoundaryInv d := hi.setPass hok
        exact hset.of_eq rfl rfl rfl rfl rfl rfl
    · cases h
  | anchor p =>
    simp only [step] at h
    split at h
    · next m pk hp =>
      have hok := hi.passes p
      rw [hp] at hok
      split_ifs at h
      · split at h
        · obtain rfl := Option.some.inj h
          exact hi.decide hok
        · obtain rfl := Option.some.inj h
          exact hi.setPass hok
      · obtain rfl := Option.some.inj h
        exact hi.setPass hok
    · cases h
  | latch p =>
    simp only [step] at h
    split at h
    · next m pk hp =>
      obtain ⟨-, h⟩ := Option.ite_none_right_eq_some.mp h
      obtain rfl := Option.some.inj h
      have hok := hi.passes p
      rw [hp] at hok
      have hset : (s.setPass p (.latched m pk)).BoundaryInv d := hi.setPass hok
      exact hset.of_eq rfl rfl rfl rfl rfl rfl
    · cases h
  | relook p =>
    simp only [step] at h
    split at h
    · next m pk hp =>
      have hok := hi.passes p
      rw [hp] at hok
      split at h
      · obtain rfl := Option.some.inj h
        exact hi.decide hok
      · obtain rfl := Option.some.inj h
        exact hi.setPass hok
    · cases h
  | commit p task =>
    simp only [step] at h
    split at h
    · obtain rfl := Option.some.inj h
      exact (hi.release (p := p)).of_eq rfl rfl rfl rfl rfl rfl
    · cases h
  | abort p =>
    obtain rfl := Option.some.inj h
    exact hi.release
  | create fields startTime valid now =>
    simp only [step] at h
    split at h
    · next hrow =>
      obtain ⟨row, -, rfl⟩ := Option.map_eq_some_iff.mp h
      exact hi.create hrow
    · cases h
  | lockRow u =>
    simp only [step] at h
    split at h
    · next row _ hrow =>
      obtain ⟨hlock, h⟩ := Option.ite_none_right_eq_some.mp h
      obtain rfl := Option.some.inj h
      exact hi.lockRow hlock hrow
    · cases h
  | write u f valid now =>
    simp only [step] at h
    split at h
    · next d' row hsrc hw =>
      obtain rfl := Source.stored.inj hsrc
      obtain ⟨changed, hup, rfl⟩ := Option.map_eq_some_iff.mp h
      exact hi.write hw (hc now rfl) hup
    · cases h
  | commitRow u =>
    simp only [step] at h
    split at h
    · next row changed now hw =>
      obtain rfl := Option.some.inj h
      exact hi.commitRow hw
    · cases h
  | rollbackRow u =>
    simp only [step] at h
    split at h
    · cases h
    · next hw =>
      obtain rfl := Option.some.inj h
      exact hi.rollbackRow hw
  | _ =>
    -- a prune reads and shortens the tick log alone
    simp only [step] at h
    repeat' split at h
    all_goals cases h
    all_goals exact hi.of_eq rfl rfl rfl rfl rfl rfl

end DispatchState

/-- What the row as it stands says of a tick that commits with a task. -/
structure DispatchState.Wanted (d : Deployment) (s : DispatchState) (m : Admission)
    (row : OxSchedule) (trigger : Trigger) : Prop where
  stands : s.row = some row
  enabled : row.enabled = true
  built : row.buildTrigger d = some trigger
  tick : (trigger.previous (d.zone.localtime m.now)).map d.zone.makeAware = some m.scheduledFor
  now : m.scheduledFor ≤ m.now
  started : row.startTime ≤ m.scheduledFor
  ended : ∀ e ∈ row.endTime, m.scheduledFor ≤ e
  deadline : ∀ n ∈ row.startingDeadlineSeconds, m.admittedAt - m.scheduledFor ≤ seconds n
  fresh : ∀ t ∈ s.activations, t ≤ m.scheduledFor

/-- Under one clock, a pass that has decided for its tick has decided by the row as it stands. -/
theorem DispatchState.wanted_of_decided {d : Deployment} {s : DispatchState} {p pk : ℕ}
    {m : Admission} (hs : (dispatchSystem (.stored d)).ReachesBy DispatchState.OneClock s)
    (hp : s.passes p = .decided m pk true) :
    ∃ row trigger, s.Wanted d m row trigger := by
  have hi : s.BoundaryInv d := hs.invariant (DispatchState.BoundaryInv d)
    (fun _ hs => DispatchState.boundary_of_start hs) fun _ _ _ hi hc hs =>
      DispatchState.boundary_step hi hc hs
  have hok := hi.passes p
  rw [hp] at hok
  obtain ⟨hnow, ⟨-, row, registered, hrow, hcur⟩, htick, ⟨hstart, hend⟩, hlate⟩ := hok
  obtain ⟨hen, htr, hst, hen', hdl, -⟩ := OxSchedule.current_eq_some hcur
  have hbound : row.startTime ≤ m.scheduledFor := hstart _ hst
  refine ⟨row, m.current.trigger, hrow, hen, htr, htick, hnow, hbound, ?_, ?_, ?_⟩
  · rwa [hen'] at hend
  · intro n hn
    by_contra hlt
    refine hlate ⟨seconds n, ?_, by omega⟩
    rw [hdl, Option.mem_def.mp hn]
    rfl
  · exact fun t ht => (hi.boundary row hrow t ht).trans hbound

/-- The tick of an interval row is its latest one at or before the pass's snapshot. -/
theorem DispatchState.Wanted.interval {d : Deployment} {s : DispatchState} {m : Admission}
    {row : OxSchedule} {trigger : Trigger} (h : s.Wanted d m row trigger)
    (hkind : row.timing.trigger = .interval) :
    ∃ every t, row.timing.everySeconds = some every ∧ m.scheduledFor = d.zone.makeAware t ∧
      IsGreatest {x | x ∈ intervalTicks (seconds every) (seconds row.timing.phaseSeconds) ∧
        x ≤ (d.zone.localtime m.now).clock} t.clock := by
  obtain ⟨every, he, hpos, rfl⟩ := OxSchedule.buildTrigger_interval h.built hkind
  have hmicros : 0 < seconds every := by
    unfold seconds
    omega
  obtain ⟨t, ht, hgreatest⟩ := @intervalTrigger_isGreatest _ (seconds row.timing.phaseSeconds)
    hmicros (d.zone.localtime m.now)
  have htick := h.tick
  rw [ht, Option.map_some, Option.some.injEq] at htick
  exact ⟨every, t, he, htick.symm, hgreatest⟩

/-- The tick of a cron row is the latest minute at or before the pass's snapshot that its
expression matches, where a datetime has room for the walk. -/
theorem DispatchState.Wanted.cron {d : Deployment} {s : DispatchState} {m : Admission}
    {row : OxSchedule} {trigger : Trigger} (h : s.Wanted d m row trigger)
    (hkind : row.timing.trigger = .cron)
    (hread : ∀ text, d.cronExpression text =
      (CronExpression.parse text.toList).map fun e => ⟨e.previous⟩)
    (hlow : Sayable ((d.zone.localtime m.now).minute - searchMinutes))
    (hcur : Sayable (d.zone.localtime m.now).minute) :
    ∃ e t fold, CronExpression.parse row.timing.cron.toList = some e ∧
      m.scheduledFor = d.zone.makeAware (.ofMinute t fold) ∧
      IsGreatest {u | e.Matches u ∧ u ≤ (d.zone.localtime m.now).minute} t := by
  have hbuilt := h.built
  unfold OxSchedule.buildTrigger at hbuilt
  rw [hkind, hread] at hbuilt
  obtain ⟨e, he, rfl⟩ := Option.map_eq_some_iff.mp hbuilt
  obtain ⟨t, fold, ht, hgreatest⟩ :=
    CronExpression.previous_exact he (d.zone.localtime m.now) hlow hcur
  have htick := h.tick
  rw [show (Trigger.mk e.previous).previous = e.previous from rfl, ht, Option.map_some,
    Option.some.injEq] at htick
  exact ⟨e, t, fold, he, htick.symm, hgreatest⟩

/-- Over any run under one clock, a tick that commits with a task is one the row as it stands wants:
the row is enabled, the tick is its trigger's at the pass's snapshot, the latest one of an interval,
inside its bounds and its starting deadline, and no retiming and no resumption committed so far is
later than it. -/
theorem dispatched_tick_current {d : Deployment} {s s' : DispatchState} {p pk : ℕ} {m : Admission}
    {task : TaskId} (hs : (dispatchSystem (.stored d)).ReachesBy DispatchState.OneClock s)
    (hp : s.passes p = .decided m pk true)
    (h : (dispatchSystem (.stored d)).step s (.commit p task) = some s') :
    s'.log = ⟨pk, m.scheduledFor, some task⟩ :: s.log ∧
      ∃ row trigger, s.row = some row ∧ s'.row = some row ∧ row.enabled = true ∧
        row.buildTrigger d = some trigger ∧
        (trigger.previous (d.zone.localtime m.now)).map d.zone.makeAware = some m.scheduledFor ∧
        (row.timing.trigger = .interval → ∃ every t, row.timing.everySeconds = some every ∧
          m.scheduledFor = d.zone.makeAware t ∧
          IsGreatest {x | x ∈ intervalTicks (seconds every) (seconds row.timing.phaseSeconds) ∧
            x ≤ (d.zone.localtime m.now).clock} t.clock) ∧
        m.scheduledFor ≤ m.now ∧
        row.startTime ≤ m.scheduledFor ∧ (∀ e ∈ row.endTime, m.scheduledFor ≤ e) ∧
        (∀ n ∈ row.startingDeadlineSeconds, m.admittedAt - m.scheduledFor ≤ seconds n) ∧
        ∀ t ∈ s.activations, t ≤ m.scheduledFor := by
  obtain ⟨row, trigger, hw⟩ := DispatchState.wanted_of_decided hs hp
  change DispatchState.step (.stored d) s (.commit p task) = some s' at h
  simp only [DispatchState.step, hp] at h
  obtain rfl := Option.some.inj h
  exact ⟨rfl, row, trigger, hw.stands, hw.stands, hw.enabled, hw.built, hw.tick, hw.interval, hw.now,
    hw.started, hw.ended, hw.deadline, hw.fresh⟩

/-- And of a cron row whose text is read as `CronExpression` reads it, the latest minute that
matches. -/
theorem dispatched_cron_tick {d : Deployment} {s : DispatchState} {p pk : ℕ} {m : Admission}
    {row : OxSchedule} (hs : (dispatchSystem (.stored d)).ReachesBy DispatchState.OneClock s)
    (hp : s.passes p = .decided m pk true) (hrow : s.row = some row)
    (hkind : row.timing.trigger = .cron)
    (hread : ∀ text, d.cronExpression text =
      (CronExpression.parse text.toList).map fun e => ⟨e.previous⟩)
    (hlow : Sayable ((d.zone.localtime m.now).minute - searchMinutes))
    (hcur : Sayable (d.zone.localtime m.now).minute) :
    ∃ e t fold, CronExpression.parse row.timing.cron.toList = some e ∧
      m.scheduledFor = d.zone.makeAware (.ofMinute t fold) ∧
      IsGreatest {u | e.Matches u ∧ u ≤ (d.zone.localtime m.now).minute} t := by
  obtain ⟨row', trigger, hw⟩ := DispatchState.wanted_of_decided hs hp
  obtain rfl := Option.some.inj (hrow.symm.trans hw.stands)
  exact hw.cron hkind hread hlow hcur

/-- A deployment of interval rows, for concrete runs. -/
def intervalDeployment : Deployment where
  zone := .naive
  cronExpression _ := none
  boundaryDigest t enabled :=
    if enabled = false then "paused" else if t.everySeconds = some 10 then "ten" else "other"

/-- A row that runs every ten seconds. -/
def everyTen : OxSchedule where
  name := "report"
  taskKey := "report"
  arguments := "\x7b\x7d"
  timing := ⟨.interval, "", some 10, 0⟩
  enabled := true
  startTime := 0
  boundaryFor := ""
  boundaryGeneration := 0
  endTime := none
  startingDeadlineSeconds := none

/-- What a worker cached of `everyTen`. -/
def everyTenCached : Schedule := ⟨IntervalTrigger 10000000 0, some 0, none, none, false⟩

/-- The row is created, retimed to every five seconds at 1, and dispatched at 12 s by a worker that
has the ten-second timing cached: the tick at 10 s is one of the new timing too. -/
theorem dispatched_tick_current_retimed :
    ∃ s s' m, ((dispatchSystem (.stored intervalDeployment)).only DispatchState.OneClock).run
        emptyDispatch
        [.create everyTen none (fun _ => true) 0, .lockRow 0,
          .write 0 { everySeconds := some (some 5) } (fun _ => true) 1, .commitRow 0,
          .plan 0 everyTenCached 12000000, .compare 0 10000000, .check 0,
          .refresh 0 fun _ _ => true, .recheckDue 0 13000000, .insert 0, .anchor 0] = some s ∧
      s.passes 0 = .decided m 1 true ∧
      (dispatchSystem (.stored intervalDeployment)).step s (.commit 0 42) = some s' ∧
      s.activations = [1] ∧ s'.log = [⟨1, 10000000, some 42⟩] ∧ ∀ t ∈ s.activations, t ≤ 10000000 := by
  have current : ∀ s s' m, ((dispatchSystem (.stored intervalDeployment)).only
        DispatchState.OneClock).run emptyDispatch
        [.create everyTen none (fun _ => true) 0, .lockRow 0,
          .write 0 { everySeconds := some (some 5) } (fun _ => true) 1, .commitRow 0,
          .plan 0 everyTenCached 12000000, .compare 0 10000000, .check 0,
          .refresh 0 fun _ _ => true, .recheckDue 0 13000000, .insert 0, .anchor 0] = some s →
      s.passes 0 = .decided m 1 true →
      (dispatchSystem (.stored intervalDeployment)).step s (.commit 0 42) = some s' →
      ∀ t ∈ s.activations, t ≤ m.scheduledFor := by
    intro s s' m hr hp hs
    obtain ⟨-, _, _, -, -, -, -, -, -, -, -, -, -, h⟩ :=
      dispatched_tick_current (.of_run emptyDispatch_start hr) hp hs
    exact h
  exact ⟨_, _, _, rfl, rfl, rfl, rfl, rfl, current _ _ _ rfl rfl rfl⟩

end DjangoOx
