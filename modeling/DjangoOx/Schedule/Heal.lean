import DjangoOx.Schedule.Boundary
import DjangoOx.Schedule.Unread

/-! One stored schedule under its writers and the workers that heal its boundary: a heal is fenced
off by any boundary write since its observation. -/
namespace DjangoOx

open Machine

/-- What happened with the row, as a worker's clock had it. -/
inductive SightEvent
  /-- The worker met the row with a boundary that was not set for it. -/
  | met (worker : ℕ) (instant : ℤ)
  | fired (worker : ℕ) (scheduledFor : ℤ)
  deriving DecidableEq, Repr

structure HealState where
  row : Option StoredRow
  lock : Option RowHolder
  /-- What the holder of the lock wrote, and the clock it read under the lock. -/
  staged : Option (RowWrite × ℤ)
  /-- Each worker's `_needs_heal`. -/
  sightings : ℕ → Option Sighting
  log : List ℤ
  /-- Latest first. -/
  history : List SightEvent

inductive HealAction
  /-- The full read meets the row. -/
  | build (worker : ℕ) (now : ℤ)
  | lockHeal (worker : ℕ) (now : ℤ)
  | commitHeal (worker : ℕ)
  /-- The database refuses a statement of the heal, or its commit. -/
  | failHeal (worker : ℕ)
  /-- A due tick, planned at `planned` and decided under the row's lock at `now`. -/
  | dispatch (worker : ℕ) (scheduledFor planned now : ℤ) (registered : String → String → Bool)
  | lockRow (writer : ℕ)
  | write (writer : ℕ) (fields : Fields) (may : Bool) (valid : OxSchedule → Bool) (now : ℤ)
  | commitRow (writer : ℕ)
  | rollbackRow (writer : ℕ)
  | delete
  /-- A write around this package: it leaves the digest and the count behind. -/
  | raw (row : StoredRow)

namespace HealState

def setSighting (s : HealState) (x : ℕ) (o : Option Sighting) : HealState :=
  { s with sightings := Function.update s.sightings x o }

/-- The worker meets a row. -/
def meet (d : Reader) (s : HealState) (x : ℕ) (now : ℤ) (r : StoredRow) : HealState :=
  match r.sight d with
  | some o => { s.setSighting x (some o) with history := .met x now :: s.history }
  | none => s

def unlock (s : HealState) : HealState := { s with lock := none, staged := none }

/-- The staged write commits. -/
def commit (s : HealState) (w : RowWrite) : HealState := { s.unlock with row := some w.row }

def step (d : Reader) (s : HealState) : HealAction → Option HealState
  | .build x now =>
    match s.row with
    | some r => some (s.meet d x now r)
    | none => some s
  | .lockHeal x now =>
    if s.lock = none then
      match s.sightings x, s.row with
      | none, _ => none
      | some _, none => some (s.setSighting x none)
      | some observed, some r =>
        match r.heal d observed now with
        | .dropped | .superseded => some (s.setSighting x none)
        | .moved w => some { s with lock := some (.pass x), staged := some (w, now) }
    else none
  | .commitHeal x =>
    match s.staged with
    | some (w, _) =>
      if s.lock = some (.pass x) then some ((s.commit w).setSighting x none) else none
    | none => none
  | .failHeal x => if s.lock = some (.pass x) then some s.unlock else none
  | .dispatch x t planned now registered =>
    if s.lock = none then
      match s.row with
      | none => some s
      | some r =>
        match r.current d registered with
        | none => some (s.meet d x now r)
        | some c =>
          if t ≤ planned ∧ t ∉ s.log ∧ c.StillDue d.zone t (d.zone.localtime planned) now then
            some { s with log := t :: s.log, history := .fired x t :: s.history }
          else some s
    else none
  | .lockRow u =>
    if s.lock = none ∧ s.row.isSome then some { s with lock := some (.writer u) } else none
  | .write u f may valid now =>
    match s.row, s.staged with
    | some r, none =>
      if s.lock = some (.writer u) then
        (r.updateSchedule d may valid f now).map fun w => { s with staged := some (w, now) }
      else none
    | _, _ => none
  | .commitRow u =>
    match s.staged with
    | some (w, _) => if s.lock = some (.writer u) then some (s.commit w) else none
    | none => none
  | .rollbackRow u => if s.lock = some (.writer u) then some s.unlock else none
  | .delete => if s.lock = none then some { s with row := none } else none
  | .raw r' =>
    match s.row with
    | some r =>
      if s.lock = none ∧ r'.values.boundaryFor = r.values.boundaryFor ∧
          r'.values.boundaryGeneration = r.values.boundaryGeneration then
        some { s with row := some r' }
      else none
    | none => none

/-- No transaction is open, and no worker has met the row. -/
def Start (s : HealState) : Prop :=
  s.lock = none ∧ s.staged = none ∧ (∀ x, s.sightings x = none) ∧ s.history = []

end HealState

def healSystem (d : Reader) : System HealState HealAction where
  init := HealState.Start
  step := HealState.step d

namespace HealState

variable {d : Reader} {s s' : HealState} {x : ℕ} {o : Sighting} {a : HealAction}

/-- The count of boundary writes, while the row is there. -/
def count (s : HealState) : Option ℕ := s.row.map (·.values.boundaryGeneration)

/-- A commit of a write of the boundary. -/
def WritesBoundary (s : HealState) : HealAction → Prop
  | .commitHeal _ | .commitRow _ => ∃ w now, s.staged = some (w, now) ∧ Column.startTime ∈ w.written
  | _ => False

/-- What the workers and the open transaction know of the row. -/
structure FenceInv (d : Reader) (s : HealState) : Prop where
  staged : ∀ w now, s.staged = some (w, now) → ∃ r, s.row = some r ∧ r.Counts w now
  healing : ∀ w now x, s.staged = some (w, now) → s.lock = some (.pass x) →
    Column.startTime ∈ w.written ∧ ∃ r, s.row = some r ∧ s.sightings x = some r.values.boundary
  locked : s.staged ≠ none → s.lock ≠ none
  seen : ∀ x o, s.sightings x = some o → ∀ n ∈ s.count, o.boundaryGeneration ≤ n

/-- The count never falls, and a row that is gone stays gone. -/
def Counting (s s' : HealState) : Prop :=
  ∀ n' ∈ s'.count, ∃ n ∈ s.count, n ≤ n'

theorem Counting.refl (s : HealState) : s.Counting s := fun n h => ⟨n, h, le_rfl⟩

theorem Counting.of_eq (h : s'.row = s.row) : s.Counting s' := by
  intro n hn
  unfold count at hn
  rw [h] at hn
  exact ⟨n, hn, le_rfl⟩

theorem commit_counting {w : RowWrite} {now : ℤ} (hi : s.FenceInv d)
    (hw : s.staged = some (w, now)) : s.Counting (s.commit w) := by
  obtain ⟨r, hr, hc⟩ := hi.staged w now hw
  intro n hn
  obtain rfl : w.row.values.boundaryGeneration = n := Option.some.inj hn
  refine ⟨r.values.boundaryGeneration, by simp [count, hr], ?_⟩
  unfold StoredRow.Counts at hc
  split_ifs at hc
  · exact hc.2.le
  · exact hc.2

theorem FenceInv.unlock (hi : s.FenceInv d) : s.unlock.FenceInv d where
  staged w now h := by cases h
  healing w now x h := by cases h
  locked h := absurd rfl h
  seen := hi.seen

/-- A sighting is forgotten, or is the boundary as the row has it. -/
theorem FenceInv.setSighting (hi : s.FenceInv d) {o : Option Sighting}
    (hfree : o = none → s.lock ≠ some (.pass x))
    (ho : ∀ b ∈ o, ∃ r, s.row = some r ∧ b = r.values.boundary) : (s.setSighting x o).FenceInv d := by
  refine { hi with healing := fun w now y hw hl => ?_, seen := fun y b hb n hn => ?_ }
  · obtain ⟨hwritten, r, hr, hy⟩ := hi.healing w now y hw hl
    refine ⟨hwritten, r, hr, ?_⟩
    by_cases hyx : y = x
    · subst hyx
      cases o with
      | none => exact absurd hl (hfree rfl)
      | some b =>
        obtain ⟨r', hr', rfl⟩ := ho b rfl
        obtain rfl : r = r' := Option.some.inj (hr.symm.trans hr')
        exact Function.update_self ..
    · exact (Function.update_of_ne hyx _ _).trans hy
  · by_cases hyx : y = x
    · subst hyx
      have hb' : o = some b := by simpa [setSighting] using hb
      obtain ⟨r, hr, rfl⟩ := ho b hb'
      have hn' : s.row.map (·.values.boundaryGeneration) = some n := hn
      rw [hr] at hn'
      exact (Option.some.inj hn').le
    · exact hi.seen y b ((Function.update_of_ne hyx _ _).symm.trans hb) n hn

theorem FenceInv.of_eq (hi : s.FenceInv d) (hr : s'.row = s.row) (hl : s'.lock = s.lock)
    (hw : s'.staged = s.staged) (ho : s'.sightings = s.sightings) : s'.FenceInv d where
  staged := by simpa only [hr, hw] using hi.staged
  healing := by simpa only [hr, hl, hw, ho] using hi.healing
  locked := by simpa only [hl, hw] using hi.locked
  seen := by simpa only [ho, count, hr] using hi.seen

theorem FenceInv.meet (hi : s.FenceInv d) {r : StoredRow} (hr : s.row = some r) (now : ℤ) :
    (s.meet d x now r).FenceInv d := by
  unfold HealState.meet
  split
  · next b hb =>
    refine FenceInv.of_eq (s := s.setSighting x (some b)) ?_ rfl rfl rfl rfl
    refine hi.setSighting (by simp) fun b' hb' => ⟨r, hr, ?_⟩
    obtain rfl := Option.some.inj hb'
    unfold StoredRow.sight at hb
    exact (Option.some.inj (Option.ite_none_right_eq_some.mp hb).2).symm
  · exact hi

theorem FenceInv.commit (hi : s.FenceInv d) {w : RowWrite} {now : ℤ}
    (hw : s.staged = some (w, now)) : (s.commit w).FenceInv d where
  staged w' now' h := by cases h
  healing w' now' y h := by cases h
  locked h := absurd rfl h
  seen y b hb n hn := by
    obtain ⟨n', hn', hle⟩ := commit_counting hi hw n hn
    exact (hi.seen y b hb n' hn').trans hle

/-- The holder of the lock stages what it computed from the row. -/
theorem FenceInv.stage (hi : s.FenceInv d) {l : RowHolder} {w : RowWrite} {now : ℤ} {r : StoredRow}
    (hr : s.row = some r) (hc : r.Counts w now)
    (hheal : ∀ x, l = .pass x → Column.startTime ∈ w.written ∧
      s.sightings x = some r.values.boundary) :
    FenceInv d { s with lock := some l, staged := some (w, now) } where
  staged w' now' h := by
    obtain ⟨rfl, rfl⟩ := Prod.mk.inj (Option.some.inj h)
    exact ⟨r, hr, hc⟩
  healing w' now' x h hl := by
    obtain ⟨rfl, rfl⟩ := Prod.mk.inj (Option.some.inj h)
    obtain ⟨hwritten, hx⟩ := hheal x (Option.some.inj hl)
    exact ⟨hwritten, r, hr, hx⟩
  locked _ := by simp
  seen := hi.seen

theorem fence_of_start (h : s.Start) : s.FenceInv d := by
  obtain ⟨-, hw, ho, -⟩ := h
  exact ⟨by simp [hw], by simp [hw], by simp [hw], by simp [ho]⟩

theorem step_fence (hi : s.FenceInv d) (h : step d s a = some s') :
    s'.FenceInv d ∧ s.Counting s' := by
  cases a with
  | build x now =>
    simp only [step] at h
    split at h
    · next r hr =>
      obtain rfl := Option.some.inj h
      refine ⟨hi.meet hr now, .of_eq ?_⟩
      unfold HealState.meet
      split <;> rfl
    · obtain rfl := Option.some.inj h
      exact ⟨hi, .refl s⟩
  | lockHeal x now =>
    obtain ⟨hfree, h⟩ := Option.ite_none_right_eq_some.mp h
    have hnot : s.lock ≠ some (.pass x) := by simp [hfree]
    have hdrop : (s.setSighting x none).FenceInv d := hi.setSighting (fun _ => hnot) (by simp)
    split at h
    · cases h
    · obtain rfl := Option.some.inj h
      exact ⟨hdrop, .of_eq rfl⟩
    · next observed r ho hr =>
      split at h
      · obtain rfl := Option.some.inj h
        exact ⟨hdrop, .of_eq rfl⟩
      · obtain rfl := Option.some.inj h
        exact ⟨hdrop, .of_eq rfl⟩
      · next w hheal =>
        obtain rfl := Option.some.inj h
        obtain ⟨-, hobs, hcounts, hwritten⟩ := StoredRow.heal_moved hheal
        refine ⟨hi.stage hr hcounts fun y hy => ?_, .of_eq rfl⟩
        obtain rfl : x = y := by simpa using hy
        exact ⟨hwritten, hobs ▸ ho⟩
  | commitHeal x =>
    simp only [step] at h
    split at h
    · next w now hw =>
      obtain ⟨-, h⟩ := Option.ite_none_right_eq_some.mp h
      obtain rfl := Option.some.inj h
      refine ⟨(hi.commit hw).setSighting (fun _ => ?_) (by simp), commit_counting hi hw⟩
      simp [HealState.commit, HealState.unlock]
    · cases h
  | failHeal x | rollbackRow u =>
    obtain ⟨-, h⟩ := Option.ite_none_right_eq_some.mp h
    obtain rfl := Option.some.inj h
    exact ⟨hi.unlock, .of_eq rfl⟩
  | dispatch x t planned now registered =>
    obtain ⟨-, h⟩ := Option.ite_none_right_eq_some.mp h
    split at h
    · obtain rfl := Option.some.inj h
      exact ⟨hi, .refl s⟩
    · next r hr =>
      split at h
      · obtain rfl := Option.some.inj h
        refine ⟨hi.meet hr now, .of_eq ?_⟩
        unfold HealState.meet
        split <;> rfl
      · split_ifs at h <;> obtain rfl := Option.some.inj h
        · exact ⟨hi.of_eq rfl rfl rfl rfl, .of_eq rfl⟩
        · exact ⟨hi, .refl s⟩
  | lockRow u =>
    obtain ⟨⟨hfree, -⟩, h⟩ := Option.ite_none_right_eq_some.mp h
    obtain rfl := Option.some.inj h
    have hnone : s.staged = none := by
      by_contra hne
      exact hi.locked hne hfree
    exact ⟨⟨by simp [hnone], by simp [hnone], by simp [hnone], hi.seen⟩, .of_eq rfl⟩
  | write u f may valid now =>
    simp only [step] at h
    split at h
    · next r hr hnone =>
      obtain ⟨hlock, h⟩ := Option.ite_none_right_eq_some.mp h
      obtain ⟨w, hup, rfl⟩ := Option.map_eq_some_iff.mp h
      refine ⟨?_, .of_eq rfl⟩
      rw [hlock]
      exact hi.stage hr (StoredRow.updateSchedule_counts hup) (by simp)
    · cases h
  | commitRow u =>
    simp only [step] at h
    split at h
    · next w now hw =>
      obtain ⟨-, h⟩ := Option.ite_none_right_eq_some.mp h
      obtain rfl := Option.some.inj h
      exact ⟨hi.commit hw, commit_counting hi hw⟩
    · cases h
  | delete =>
    obtain ⟨hfree, h⟩ := Option.ite_none_right_eq_some.mp h
    obtain rfl := Option.some.inj h
    have hnone : s.staged = none := by
      by_contra hne
      exact hi.locked hne hfree
    exact ⟨⟨by simp [hnone], by simp [hnone], by simp [hnone], by simp [count]⟩, by simp [Counting, count]⟩
  | raw r' =>
    simp only [step] at h
    split at h
    · next r hr =>
      obtain ⟨⟨hfree, -, hgen⟩, h⟩ := Option.ite_none_right_eq_some.mp h
      obtain rfl := Option.some.inj h
      have hnone : s.staged = none := by
        by_contra hne
        exact hi.locked hne hfree
      have hcount : s.count = some r.values.boundaryGeneration := by simp [count, hr]
      refine ⟨⟨by simp [hnone], by simp [hnone], by simp [hnone], fun y b hb n hn => ?_⟩, ?_⟩
      · obtain rfl : r'.values.boundaryGeneration = n := Option.some.inj hn
        exact hi.seen y b hb _ (hcount ▸ hgen ▸ rfl)
      · intro n hn
        obtain rfl : r'.values.boundaryGeneration = n := Option.some.inj hn
        exact ⟨_, hcount, hgen.ge⟩
    · cases h

theorem run_fence {as : List HealAction} (hi : s.FenceInv d)
    (h : (healSystem d).run s as = some s') : s'.FenceInv d ∧ s.Counting s' := by
  induction as generalizing s with
  | nil =>
    obtain rfl := Option.some.inj h
    exact ⟨hi, .refl s⟩
  | cons a as ih =>
    obtain ⟨m, hm, hrun⟩ := Option.bind_eq_some_iff.mp h
    obtain ⟨hi', hstep⟩ := step_fence hi hm
    obtain ⟨hend, hcount⟩ := ih hi' hrun
    refine ⟨hend, fun n hn => ?_⟩
    obtain ⟨n', hn', hle⟩ := hcount n hn
    obtain ⟨n'', hn'', hle'⟩ := hstep n' hn'
    exact ⟨n'', hn'', hle'.trans hle⟩

/-- No heal of the worker writes the row. -/
def HealsNothing (d : Reader) (s : HealState) (x : ℕ) : Prop :=
  step d s (.commitHeal x) = none ∧
    ∀ now s', step d s (.lockHeal x now) = some s' → s'.row = s.row ∧ s'.staged = none

/-- A write of the boundary moves the count. -/
theorem count_lt_of_writesBoundary (hi : s.FenceInv d) (hw : s.WritesBoundary a)
    (h : step d s a = some s') : ∀ n' ∈ s'.count, ∃ n ∈ s.count, n < n' := by
  have hcommit : ∀ w now, s.staged = some (w, now) → Column.startTime ∈ w.written →
      ∃ n ∈ s.count, n < w.row.values.boundaryGeneration := by
    intro w now hst hwritten
    obtain ⟨r, hr, hc⟩ := hi.staged w now hst
    unfold StoredRow.Counts at hc
    rw [if_pos hwritten] at hc
    exact ⟨_, by simp [count, hr], hc.2⟩
  cases a with
  | commitHeal x | commitRow u =>
    obtain ⟨w, now, hst, hwritten⟩ := hw
    simp only [step, hst] at h
    obtain ⟨-, h⟩ := Option.ite_none_right_eq_some.mp h
    obtain rfl := Option.some.inj h
    intro n' hn'
    obtain rfl : w.row.values.boundaryGeneration = n' := Option.some.inj hn'
    exact hcommit w now hst hwritten
  | _ => exact hw.elim

/-- An observation older than the count heals nothing. -/
theorem healsNothing_of_lt (hi : s.FenceInv d) (ho : s.sightings x = some o)
    (hlt : ∀ n ∈ s.count, o.boundaryGeneration < n) : s.HealsNothing d x := by
  have hne : ∀ r, s.row = some r → r.values.boundary ≠ o := by
    rintro r hr rfl
    exact lt_irrefl _ (hlt r.values.boundaryGeneration (by simp [count, hr]))
  refine ⟨?_, fun now s' h => ?_⟩
  · simp only [step]
    split
    · next w now hw =>
      apply if_neg
      intro hlock
      obtain ⟨-, r, hr, hx⟩ := hi.healing w now x hw hlock
      exact hne r hr (Option.some.inj (hx.symm.trans ho))
    · rfl
  · obtain ⟨hfree, h⟩ := Option.ite_none_right_eq_some.mp h
    have hnone : s.staged = none := by
      by_contra hstaged
      exact hi.locked hstaged hfree
    split at h
    · cases h
    · obtain rfl := Option.some.inj h
      exact ⟨rfl, hnone⟩
    · next observed r ho' hr =>
      obtain rfl : o = observed := Option.some.inj (ho.symm.trans ho')
      split at h
      · obtain rfl := Option.some.inj h
        exact ⟨rfl, hnone⟩
      · obtain rfl := Option.some.inj h
        exact ⟨rfl, hnone⟩
      · next w hheal => exact absurd (StoredRow.heal_moved hheal).2.1 (hne r hr)

/-- A step of this package that moves the boundary writes it. -/
theorem writesBoundary_of_ne (hi : s.FenceInv d) (hraw : ∀ r, a ≠ .raw r) (h : step d s a = some s')
    {r r' : StoredRow} (hr : s.row = some r) (hr' : s'.row = some r')
    (hne : r'.values.startTime ≠ r.values.startTime) : s.WritesBoundary a := by
  have hsame : s'.row = s.row → False := by
    intro heq
    rw [heq, hr] at hr'
    exact hne (by rw [Option.some.inj hr'])
  have hcommit : ∀ w now, s.staged = some (w, now) → s'.row = some w.row →
      Column.startTime ∈ w.written := by
    intro w now hst hrow
    obtain ⟨r₀, hr₀, hc⟩ := hi.staged w now hst
    obtain rfl : r = r₀ := Option.some.inj (hr.symm.trans hr₀)
    obtain rfl : r' = w.row := Option.some.inj (hr'.symm.trans hrow)
    by_contra hnot
    unfold StoredRow.Counts at hc
    rw [if_neg hnot] at hc
    exact hne hc.1
  cases a with
  | commitHeal x | commitRow u =>
    simp only [step] at h
    split at h
    · next w now hst =>
      obtain ⟨-, h⟩ := Option.ite_none_right_eq_some.mp h
      obtain rfl := Option.some.inj h
      exact ⟨w, now, hst, hcommit w now hst rfl⟩
    · cases h
  | build x now =>
    simp only [step] at h
    unfold HealState.meet at h
    repeat' split at h
    all_goals exact (hsame (Option.some.inj h ▸ rfl)).elim
  | raw r' => exact absurd rfl (hraw r')
  | delete =>
    obtain ⟨-, h⟩ := Option.ite_none_right_eq_some.mp h
    obtain rfl := Option.some.inj h
    cases hr'
  | dispatch x t planned now registered =>
    obtain ⟨-, h⟩ := Option.ite_none_right_eq_some.mp h
    unfold HealState.meet at h
    repeat' split at h
    all_goals exact (hsame (Option.some.inj h ▸ rfl)).elim
  | write u f may valid now =>
    simp only [step] at h
    split at h
    · obtain ⟨-, h⟩ := Option.ite_none_right_eq_some.mp h
      obtain ⟨w, -, rfl⟩ := Option.map_eq_some_iff.mp h
      exact (hsame rfl).elim
    · cases h
  | lockHeal x now =>
    obtain ⟨-, h⟩ := Option.ite_none_right_eq_some.mp h
    repeat' split at h
    all_goals cases h
    all_goals exact (hsame rfl).elim
  | failHeal x | lockRow u | rollbackRow u =>
    obtain ⟨-, h⟩ := Option.ite_none_right_eq_some.mp h
    obtain rfl := Option.some.inj h
    exact (hsame rfl).elim

end HealState

/-- Every write of the boundary moves its count, whoever makes it. Once one has committed, a worker
that observed the row before it heals nothing with that observation, and so of the workers with one
observation at most one changes the row. -/
theorem boundary_fenced {d : Reader} {s : HealState} (hs : (healSystem d).Reachable s) :
    (∀ a s', (healSystem d).step s a = some s' → ∀ r r', s.row = some r → s'.row = some r' →
      (s.WritesBoundary a ∨ (∀ x, a ≠ .raw x) ∧ r'.values.startTime ≠ r.values.startTime) →
        r.values.boundaryGeneration < r'.values.boundaryGeneration) ∧
    (∀ a s' x o as t, (healSystem d).step s a = some s' → s.WritesBoundary a →
      s.sightings x = some o → (healSystem d).run s' as = some t → t.sightings x = some o →
        t.HealsNothing d x) ∧
    ∀ x o s' y as t, (healSystem d).step s (.commitHeal x) = some s' → s.sightings x = some o →
      (healSystem d).run s' as = some t → t.sightings y = some o → t.HealsNothing d y := by
  have hi : s.FenceInv d := hs.invariant (HealState.FenceInv d)
    (fun _ hs => HealState.fence_of_start hs) fun _ _ _ hi hs => (HealState.step_fence hi hs).1
  have hnothing : ∀ a s' o as t y, (healSystem d).step s a = some s' → s.WritesBoundary a →
      (∀ n ∈ s.count, o.boundaryGeneration ≤ n) → (healSystem d).run s' as = some t →
      t.sightings y = some o → t.HealsNothing d y := by
    intro a s' o as t y hstep hw hle hrun ho
    obtain ⟨ht, hcount⟩ := HealState.run_fence (HealState.step_fence hi hstep).1 hrun
    refine HealState.healsNothing_of_lt ht ho fun n hn => ?_
    obtain ⟨n', hn', hle'⟩ := hcount n hn
    obtain ⟨m, hm, hlt⟩ := HealState.count_lt_of_writesBoundary hi hw hstep n' hn'
    have := hle m hm
    omega
  refine ⟨fun a s' hstep r r' hr hr' hw => ?_, fun a s' x o as t hstep hw ho hrun ht => ?_,
    fun x o s' y as t hstep ho hrun ht => ?_⟩
  · have hw : s.WritesBoundary a := by
      rcases hw with hw | ⟨hraw, hne⟩
      · exact hw
      · exact HealState.writesBoundary_of_ne hi hraw hstep hr hr' hne
    obtain ⟨n, hn, hlt⟩ := HealState.count_lt_of_writesBoundary hi hw hstep
      r'.values.boundaryGeneration (by simp [HealState.count, hr'])
    obtain rfl : r.values.boundaryGeneration = n := by simpa [HealState.count, hr] using hn
    exact hlt
  · exact hnothing a s' o as t x hstep hw (hi.seen x o ho) hrun ht
  · refine hnothing (.commitHeal x) s' o as t y hstep ?_ (hi.seen x o ho) hrun ht
    change HealState.step d s (.commitHeal x) = some s' at hstep
    simp only [HealState.step] at hstep
    split at hstep
    · next w now hst =>
      obtain ⟨hlock, -⟩ := Option.ite_none_right_eq_some.mp hstep
      exact ⟨w, now, hst, (hi.healing w now x hst hlock).1⟩
    · cases hstep

/-- `intervalDeployment` with the maximum of PostgreSQL's column. -/
def intervalReader : Reader := { intervalDeployment with countMax := 2147483647 }

/-- `everyTen` stored around this package, with no digest. -/
def rawEveryTen : HealState where
  row := some ⟨everyTen, [], []⟩
  lock := none
  staged := none
  sightings _ := none
  log := []
  history := []

/-- Two workers find the row stale, and the first one's clock reads the instant the boundary was at:
its heal leaves the start time as it was, and the second still heals nothing. -/
theorem boundary_fenced_same_start :
    ∃ s s', (healSystem intervalReader).run rawEveryTen
        [.build 0 5, .build 1 6, .lockHeal 0 0] = some s ∧
      s.sightings 0 = s.sightings 1 ∧
      (healSystem intervalReader).step s (.commitHeal 0) = some s' ∧
      (s'.row.map (·.values.startTime)) = s.row.map (·.values.startTime) ∧
      s'.HealsNothing intervalReader 1 := by
  have fenced : ∀ s s', (healSystem intervalReader).run rawEveryTen
        [.build 0 5, .build 1 6, .lockHeal 0 0] = some s →
      (healSystem intervalReader).step s (.commitHeal 0) = some s' →
      s.sightings 0 = some ⟨"", 0, 0⟩ → s'.sightings 1 = some ⟨"", 0, 0⟩ →
      s'.HealsNothing intervalReader 1 := by
    intro s s' hr hs ho ho'
    have hstart : rawEveryTen.Start := ⟨rfl, rfl, fun _ => rfl, rfl⟩
    exact (boundary_fenced (.of_run hstart hr)).2.2 0 _ s' 1 [] s' hs ho rfl ho'
  exact ⟨_, _, rfl, rfl, rfl, rfl, fenced _ _ rfl rfl rfl rfl⟩

end DjangoOx
