import DjangoOx.Schedule.Heal

/-! A worker that has met a row with a stale boundary: when it fires nothing from before the
sighting, and when it does. -/
namespace DjangoOx

open Machine

namespace StoredRow

variable {d : Reader} {may : Bool} {valid : OxSchedule → Bool} {r : StoredRow} {f : Fields}
  {w : RowWrite} {now : ℤ}

/-- The digest is of a paused row. -/
def ForPaused (d : Deployment) (row : OxSchedule) : Prop :=
  ∃ timing, row.boundaryFor = d.boundaryDigest timing false

/-- What a write that does not move the boundary does with the rest of it: it keeps it, or sets it
for a paused row, or counts a write and nothing more. -/
def Leaves (d : Reader) (r : StoredRow) (w : RowWrite) : Prop :=
  w.row.values.boundary = r.values.boundary ∨ ForPaused d.toDeployment w.row.values ∨
    w.row.values.boundaryFor = r.values.boundaryFor ∧ Column.boundaryGeneration ∈ w.written ∧
      Column.boundaryFor ∉ w.written

theorem change_leaves (h : r.change d may valid f now = some w)
    (hstart : Column.startTime ∉ w.written) : r.Leaves d w := by
  unfold change at h
  obtain ⟨-, h⟩ := Option.ite_none_left_eq_some.mp h
  obtain ⟨-, h⟩ := Option.ite_none_right_eq_some.mp h
  obtain rfl := Option.some.inj h
  by_cases hfresh : r.unreadFields d ≠ [] ∨ (r.values.setFields f).timing ≠ r.values.timing ∨
      ((r.values.setFields f).enabled = true ∧ r.values.enabled = false) ∨
      r.values.boundaryFor ≠ r.values.digest d.toDeployment
  · simp [save, hfresh] at hstart
  · simp only [if_neg hfresh]
    push Not at hfresh
    obtain ⟨-, htiming, hresumed, hcurrent⟩ := hfresh
    cases hen : (r.values.setFields f).enabled with
    | false =>
      right
      left
      exact ⟨r.values.timing, by simp [save, OxSchedule.digest, hen, htiming]⟩
    | true =>
      left
      have hrow : r.values.enabled = true := by
        have := hresumed hen
        simpa using this
      have hdigest : (r.values.setFields f).digest d.toDeployment = r.values.boundaryFor := by
        rw [hcurrent]
        unfold OxSchedule.digest
        rw [htiming, hen, hrow]
      simp only [save, OxSchedule.boundary, hdigest]
      rfl

theorem disable_leaves (h : r.disable d may now = some w)
    (hstart : Column.startTime ∉ w.written) : r.Leaves d w := by
  have hpaused : ∀ n, ForPaused d.toDeployment
      { digested d.toDeployment r.values with boundaryGeneration := n } :=
    fun n => ⟨r.values.timing, rfl⟩
  unfold disable at h
  obtain ⟨-, h⟩ := Option.ite_none_left_eq_some.mp h
  split_ifs at h with hstale hcounted htiming hcount hcount
  · obtain rfl := Option.some.inj h
    simp [save] at hstart
  · obtain rfl := Option.some.inj h
    exact .inl rfl
  · obtain rfl := Option.some.inj h
    exact .inr (.inl (hpaused _))
  · obtain rfl := Option.some.inj h
    exact .inr (.inl (hpaused _))
  · obtain rfl := Option.some.inj h
    exact .inr (.inr ⟨rfl, by simp [save], by simp [save]⟩)
  · obtain rfl := Option.some.inj h
    exact .inl rfl

theorem updateSchedule_leaves (h : r.updateSchedule d may valid f now = some w)
    (hstart : Column.startTime ∉ w.written) : r.Leaves d w := by
  unfold updateSchedule at h
  split_ifs at h with hf
  · exact disable_leaves h hstart
  · exact change_leaves h hstart

/-- A row that is dispatched reads, and its digest is of an enabled row. -/
theorem current_spec {registered : String → String → Bool} {c : Schedule}
    (h : r.current d registered = some c) :
    c.startTime = some r.values.startTime ∧
      r.values.boundaryFor = d.boundaryDigest r.values.timing true := by
  obtain ⟨-, h⟩ := Option.ite_none_right_eq_some.mp h
  obtain ⟨-, -, hstart, -⟩ := OxSchedule.current_eq_some h
  obtain ⟨⟨hen, hdigest⟩, -⟩ := Option.ite_none_right_eq_some.mp h
  refine ⟨hstart, hdigest.trans ?_⟩
  unfold OxSchedule.digest
  rw [hen]

end StoredRow

namespace HealState

variable {d : Reader} {s s' : HealState} {x : ℕ} {a : HealAction}

/-- The instants of the worker's sightings. -/
def met (s : HealState) (x : ℕ) : List ℤ :=
  s.history.filterMap fun
    | .met y m => if y = x then some m else none
    | .fired _ _ => none

theorem mem_met {m : ℤ} : m ∈ s.met x ↔ .met x m ∈ s.history := by
  unfold met
  rw [List.mem_filterMap]
  constructor
  · rintro ⟨e, he, h⟩
    cases e with
    | met y m' =>
      simp only [Option.ite_none_right_eq_some, Option.some.injEq] at h
      obtain ⟨rfl, rfl⟩ := h
      exact he
    | fired y t => cases h
  · exact fun h => ⟨_, h, if_pos rfl⟩

/-- A write may commit: it sets no boundary to before a sighting, and moves no count alone while the
worker holds one. -/
def MayCommit (s : HealState) (x : ℕ) (w : RowWrite) (now : ℤ) : Prop :=
  if Column.startTime ∈ w.written then ∀ m ∈ s.met x, m ≤ now
  else Column.boundaryGeneration ∈ w.written → Column.boundaryFor ∉ w.written →
    s.sightings x = none

instance (s : HealState) (x : ℕ) (w : RowWrite) (now : ℤ) : Decidable (s.MayCommit x w now) :=
  inferInstanceAs (Decidable (if Column.startTime ∈ w.written then _ else _))

/-- What a step has to heed for the worker's sightings to hold. -/
def Heeds (d : Reader) (x : ℕ) (s : HealState) : HealAction → Prop
  -- no dispatch finds the row current while the worker holds a sighting of it
  | .dispatch y _ _ _ registered =>
    y = x → s.sightings x ≠ none → ∀ r ∈ s.row, (r.current d registered).isNone
  -- no heal of the worker finds that the row does not read
  | .lockHeal y _ => y = x → ∀ r ∈ s.row, r.Reads d
  | .commitHeal _ | .commitRow _ => ∀ p ∈ s.staged, s.MayCommit x p.1 p.2
  -- no write around this package sets the boundary itself to before a sighting
  | .raw r' => ∀ r ∈ s.row, r'.values.startTime = r.values.startTime ∨
      ∀ m ∈ s.met x, m ≤ r'.values.startTime
  | _ => True

instance (d : Reader) (x : ℕ) (s : HealState) (a : HealAction) : Decidable (s.Heeds d x a) := by
  cases a <;> unfold Heeds <;> infer_instance

/-- No tick that the worker committed is earlier than a sighting it had had by then. -/
def FiresAfter (x : ℕ) (history : List SightEvent) : Prop :=
  ∀ post pre t m, history = post ++ .fired x t :: pre → .met x m ∈ pre → m ≤ t

theorem FiresAfter.cons {e : SightEvent} {history : List SightEvent} (h : FiresAfter x history)
    (he : ∀ t m, e = .fired x t → .met x m ∈ history → m ≤ t) : FiresAfter x (e :: history) := by
  intro post pre t m heq hm
  cases post with
  | nil =>
    obtain ⟨rfl, rfl⟩ := List.cons.inj heq
    exact he t m rfl hm
  | cons e' post => exact h post pre t m (List.cons.inj heq).2 hm

/-- The boundary of the row is past the sighting, or the worker still holds the sighting of it as it
is, or it is not for a row that fires. -/
def Guarded (d : Reader) (s : HealState) (x : ℕ) (m : ℤ) (r : StoredRow) : Prop :=
  m ≤ r.values.startTime ∨ s.sightings x = some r.values.boundary ∨
    StoredRow.ForPaused d.toDeployment r.values

structure SightedInv (d : Reader) (x : ℕ) (s : HealState) : Prop where
  fence : s.FenceInv d
  fires : FiresAfter x s.history
  guarded : ∀ m, .met x m ∈ s.history → ∀ r, s.row = some r → s.Guarded d x m r
  leaves : ∀ w now, s.staged = some (w, now) → ∃ r, s.row = some r ∧ r.Counts w now ∧
    (Column.startTime ∉ w.written → r.Leaves d w)

theorem meet_cases (d : Reader) (s : HealState) (y : ℕ) (now : ℤ) (r : StoredRow) :
    s.meet d y now r = s ∨ s.meet d y now r =
      { s.setSighting y (some r.values.boundary) with history := .met y now :: s.history } := by
  unfold HealState.meet StoredRow.sight
  split_ifs
  · exact .inr rfl
  · exact .inl rfl

/-- A step that keeps the row, and the worker's sightings unless it meets the row again. -/
theorem SightedInv.meet (hi : s.SightedInv d x) (y : ℕ) (now : ℤ) {r : StoredRow}
    (hr : s.row = some r) : (s.meet d y now r).SightedInv d x := by
  have hfence := hi.fence.meet (x := y) hr now
  rcases meet_cases d s y now r with h | h
  · rw [h]
    exact hi
  · rw [h] at hfence ⊢
    refine ⟨hfence, hi.fires.cons (by simp), fun m hm r' hr' => ?_, hi.leaves⟩
    obtain rfl : r = r' := Option.some.inj (hr.symm.trans hr')
    by_cases hy : x = y
    · exact .inr (.inl (hy ▸ Function.update_self ..))
    · rcases List.mem_cons.mp hm with hm | hm
      · cases hm
        exact absurd rfl hy
      · rcases hi.guarded m hm r hr with hg | hg | hg
        · exact .inl hg
        · exact .inr (.inl ((Function.update_of_ne hy _ _).trans hg))
        · exact .inr (.inr hg)

/-- Nothing but locks changes, or nothing that the worker's own sightings rest on. -/
theorem SightedInv.of_eq (hi : s.SightedInv d x) (hf : s'.FenceInv d) (hr : s'.row = s.row)
    (hh : s'.history = s.history) (ho : s'.sightings x = s.sightings x)
    (hw : ∀ w now, s'.staged = some (w, now) → ∃ r, s.row = some r ∧ r.Counts w now ∧
      (Column.startTime ∉ w.written → r.Leaves d w)) : s'.SightedInv d x where
  fence := hf
  fires := hh ▸ hi.fires
  guarded m hm r hrow := by
    rw [hh] at hm
    rw [hr] at hrow
    unfold Guarded
    rw [ho]
    exact hi.guarded m hm r hrow
  leaves w now h := by
    rw [hr]
    exact hw w now h

/-- A write that keeps the guards commits. -/
theorem Guarded.commit {m : ℤ} {r : StoredRow} {w : RowWrite} {now : ℤ} (hg : s.Guarded d x m r)
    (hm : .met x m ∈ s.history) (hcounts : r.Counts w now)
    (hleaves : Column.startTime ∉ w.written → r.Leaves d w)
    (hc : s.MayCommit x w now) : (s.commit w).Guarded d x m w.row := by
  unfold StoredRow.Counts at hcounts
  unfold MayCommit at hc
  split_ifs at hc hcounts with hwritten
  · left
    rw [hcounts.1]
    exact hc m (mem_met.mpr hm)
  · rcases hg with hle | hheld | hpaused
    · left
      rw [hcounts.1]
      exact hle
    · rcases hleaves hwritten with hsame | hpaused | ⟨-, hgen, hfor⟩
      · right
        left
        rw [hsame]
        exact hheld
      · exact .inr (.inr hpaused)
      · rw [hc hgen hfor] at hheld
        cases hheld
    · right
      right
      obtain ⟨timing, htiming⟩ := hpaused
      rcases hleaves hwritten with hsame | hpaused | ⟨hfor, -, -⟩
      · exact ⟨timing, (congrArg Sighting.boundaryFor hsame).trans htiming⟩
      · exact hpaused
      · exact ⟨timing, hfor.trans htiming⟩

theorem SightedInv.commit (hi : s.SightedInv d x) {w : RowWrite} {now : ℤ}
    (hw : s.staged = some (w, now)) (hc : s.MayCommit x w now) : (s.commit w).SightedInv d x where
  fence := hi.fence.commit hw
  fires := hi.fires
  guarded m hm r hr := by
    obtain rfl : w.row = r := Option.some.inj hr
    obtain ⟨r₀, hr₀, hcounts, hleaves⟩ := hi.leaves w now hw
    exact (hi.guarded m hm r₀ hr₀).commit hm hcounts hleaves hc
  leaves w' now' h := by cases h

theorem sighted_of_start (h : s.Start) : s.SightedInv d x := by
  refine ⟨fence_of_start h, ?_, ?_, ?_⟩
  all_goals obtain ⟨-, hw, -, hh⟩ := h
  · intro post pre t m heq
    rw [hh] at heq
    simp at heq
  · simp [hh]
  · simp [hw]

theorem step_sighted (hd : ∀ t t', d.boundaryDigest t true ≠ d.boundaryDigest t' false)
    (hi : s.SightedInv d x) (hc : s.Heeds d x a) (h : step d s a = some s') :
    s'.SightedInv d x := by
  have hf := (step_fence hi.fence h).1
  cases a with
  | build y now =>
    simp only [step] at h
    split at h
    · next r hr =>
      obtain rfl := Option.some.inj h
      exact hi.meet y now hr
    · obtain rfl := Option.some.inj h
      exact hi
  | lockHeal y now =>
    obtain ⟨hfree, h⟩ := Option.ite_none_right_eq_some.mp h
    have hnone : s.staged = none := by
      by_contra hne
      exact hi.fence.locked hne hfree
    have hother : y ≠ x → (s.setSighting y none).sightings x = s.sightings x :=
      fun hy => Function.update_of_ne (Ne.symm hy) _ _
    split at h
    · cases h
    · next hr =>
      obtain rfl := Option.some.inj h
      refine ⟨hf, hi.fires, fun m _ r hr' => ?_, hi.leaves⟩
      have hsome : s.row = some r := hr'
      rw [hr] at hsome
      cases hsome
    · next observed r ho hr =>
      split at h
      · next hheal =>
        obtain rfl := Option.some.inj h
        -- the row reads for the worker itself, and then nothing is dropped
        have hy : y ≠ x := by
          rintro rfl
          obtain ⟨hun, href⟩ := hc rfl r hr
          unfold StoredRow.heal at hheal
          split_ifs at hheal <;> simp_all
        exact hi.of_eq hf rfl rfl (hother hy) hi.leaves
      · next hheal =>
        obtain rfl := Option.some.inj h
        by_cases hy : y = x
        · subst hy
          refine ⟨hf, hi.fires, fun m hm r' hr' => ?_, hi.leaves⟩
          obtain rfl : r = r' := Option.some.inj (hr.symm.trans hr')
          rcases hi.guarded m hm r hr with hle | hheld | hpaused
          · exact .inl hle
          · obtain rfl : observed = r.values.boundary := Option.some.inj (ho.symm.trans hheld)
            unfold StoredRow.heal at hheal
            split_ifs at hheal with _ hne
            exact absurd rfl hne
          · exact .inr (.inr hpaused)
        · exact hi.of_eq hf rfl rfl (hother hy) hi.leaves
      · next w hheal =>
        obtain rfl := Option.some.inj h
        obtain ⟨-, -, hcounts, hwritten⟩ := StoredRow.heal_moved hheal
        refine hi.of_eq hf rfl rfl rfl fun w' now' hw' => ?_
        obtain ⟨rfl, rfl⟩ := Prod.mk.inj (Option.some.inj hw')
        exact ⟨r, hr, hcounts, fun hnot => absurd hwritten hnot⟩
  | commitHeal y =>
    simp only [step] at h
    split at h
    · next w now hw =>
      obtain ⟨hlock, h⟩ := Option.ite_none_right_eq_some.mp h
      obtain rfl := Option.some.inj h
      have hcommit := hi.commit hw (hc (w, now) hw)
      obtain ⟨hwritten, -⟩ := hi.fence.healing w now y hw hlock
      refine ⟨hf, hcommit.fires, fun m hm r hr => ?_, hcommit.leaves⟩
      -- the boundary moved to the heal's own clock
      obtain rfl : w.row = r := Option.some.inj hr
      obtain ⟨r₀, -, hcounts, -⟩ := hi.leaves w now hw
      have hle := hc (w, now) hw
      unfold StoredRow.Counts at hcounts
      unfold MayCommit at hle
      rw [if_pos hwritten] at hcounts hle
      left
      rw [hcounts.1]
      exact hle m (mem_met.mpr hm)
    · cases h
  | failHeal y | rollbackRow u =>
    obtain ⟨-, h⟩ := Option.ite_none_right_eq_some.mp h
    obtain rfl := Option.some.inj h
    refine hi.of_eq hf rfl rfl rfl fun w now hw => ?_
    cases hw
  | dispatch y t planned now registered =>
    obtain ⟨-, h⟩ := Option.ite_none_right_eq_some.mp h
    split at h
    · obtain rfl := Option.some.inj h
      exact hi
    · next r hr =>
      split at h
      · obtain rfl := Option.some.inj h
        exact hi.meet y now hr
      · next c hcur =>
        split_ifs at h with hdue
        · obtain rfl := Option.some.inj h
          obtain ⟨hstart, hdigest⟩ := StoredRow.current_spec hcur
          refine ⟨hf, hi.fires.cons fun t' m he hm => ?_, fun m hm r' hr' => ?_, hi.leaves⟩
          · obtain ⟨rfl, rfl⟩ := SightEvent.fired.inj he
            rcases hi.guarded m hm r hr with hle | hheld | ⟨timing, hpaused⟩
            · exact hle.trans (hdue.2.2.2.1.1 _ hstart)
            · have hnone := hc rfl (by simp [hheld]) r hr
              rw [hcur] at hnone
              simp at hnone
            · exact absurd (hdigest.symm.trans hpaused) (hd _ _)
          · have hm' : SightEvent.met x m ∈ s.history := by simpa using hm
            exact hi.guarded m hm' r' hr'
        · obtain rfl := Option.some.inj h
          exact hi
  | lockRow u =>
    obtain ⟨-, h⟩ := Option.ite_none_right_eq_some.mp h
    obtain rfl := Option.some.inj h
    exact hi.of_eq hf rfl rfl rfl hi.leaves
  | write u f may valid now =>
    simp only [step] at h
    split at h
    · next r hr hnone =>
      obtain ⟨-, h⟩ := Option.ite_none_right_eq_some.mp h
      obtain ⟨w, hup, rfl⟩ := Option.map_eq_some_iff.mp h
      refine hi.of_eq hf rfl rfl rfl fun w' now' hw' => ?_
      obtain ⟨rfl, rfl⟩ := Prod.mk.inj (Option.some.inj hw')
      exact ⟨r, hr, StoredRow.updateSchedule_counts hup, StoredRow.updateSchedule_leaves hup⟩
    · cases h
  | commitRow u =>
    simp only [step] at h
    split at h
    · next w now hw =>
      obtain ⟨-, h⟩ := Option.ite_none_right_eq_some.mp h
      obtain rfl := Option.some.inj h
      exact hi.commit hw (hc (w, now) hw)
    · cases h
  | delete =>
    obtain ⟨hfree, h⟩ := Option.ite_none_right_eq_some.mp h
    obtain rfl := Option.some.inj h
    have hnone : s.staged = none := by
      by_contra hne
      exact hi.fence.locked hne hfree
    exact ⟨hf, hi.fires, by simp, by simp [hnone]⟩
  | raw r' =>
    simp only [step] at h
    split at h
    · next r hr =>
      obtain ⟨⟨hfree, hfor, hgen⟩, h⟩ := Option.ite_none_right_eq_some.mp h
      obtain rfl := Option.some.inj h
      have hnone : s.staged = none := by
        by_contra hne
        exact hi.fence.locked hne hfree
      refine ⟨hf, hi.fires, fun m hm r'' hr'' => ?_, by simp [hnone]⟩
      obtain rfl : r' = r'' := Option.some.inj hr''
      rcases hc r hr with hsame | hpast
      · rcases hi.guarded m hm r hr with hle | hheld | ⟨timing, hpaused⟩
        · exact .inl (hsame ▸ hle)
        · right
          left
          unfold OxSchedule.boundary at hheld ⊢
          rw [hsame, hfor, hgen]
          exact hheld
        · exact .inr (.inr ⟨timing, hfor.trans hpaused⟩)
      · exact .inl (hpast m (mem_met.mpr hm))
    · cases h

end HealState

/-- While every step heeds what `Heeds` asks of it, a worker that has met the row with a digest that
is not its boundary's commits no tick of the row from before. The digests of enabled rows and of
paused ones are told apart. -/
theorem sighted_fires_after {d : Reader}
    (hd : ∀ t t', d.boundaryDigest t true ≠ d.boundaryDigest t' false) {x : ℕ} {s : HealState}
    (hs : (healSystem d).ReachesBy (HealState.Heeds d x) s) :
    HealState.FiresAfter x s.history := by
  have hi : s.SightedInv d x := hs.invariant (HealState.SightedInv d x)
    (fun _ hs => HealState.sighted_of_start hs) fun _ _ _ hi hc hs =>
      HealState.step_sighted hd hi hc hs
  exact hi.fires

/-- A row that runs every ten seconds, its digest set. -/
def storedTen : StoredRow := ⟨{ everyTen with boundaryFor := "ten" }, [], []⟩

def pausedTen : StoredRow := { storedTen with values := { storedTen.values with enabled := false } }

def healStart : HealState := { rawEveryTen with row := some storedTen }

theorem healStart_start : healStart.Start := ⟨rfl, rfl, fun _ => rfl, rfl⟩

/-- Around this package the row is paused, and met at 15 s. Resumed the same way while the heal
fails, it fires the tick at 10 s; and so it does when it had stopped reading by the heal. -/
theorem sighted_fires_before :
    (∃ s, (healSystem intervalReader).run healStart
        [.raw pausedTen, .build 0 15000000, .lockHeal 0 16000000, .failHeal 0, .raw storedTen,
          .lockHeal 0 17000000, .failHeal 0,
          .dispatch 0 10000000 18000000 18000000 fun _ _ => true] = some s ∧
      s.history = [.fired 0 10000000, .met 0 15000000] ∧ ¬ HealState.FiresAfter 0 s.history) ∧
    ∃ s, (healSystem intervalReader).run healStart
        [.raw pausedTen, .dispatch 0 10000000 15000000 15000000 fun _ _ => true,
          .raw { pausedTen with unread := [.arguments] }, .lockHeal 0 16000000, .raw storedTen,
          .dispatch 0 10000000 18000000 18000000 fun _ _ => true] = some s ∧
      s.history = [.fired 0 10000000, .met 0 15000000] ∧ ¬ HealState.FiresAfter 0 s.history := by
  have before : ∀ history : List SightEvent, history = [.fired 0 10000000, .met 0 15000000] →
      ¬ HealState.FiresAfter 0 history := by
    intro history heq h
    have := h [] [.met 0 15000000] 10000000 15000000 heq (by simp)
    omega
  exact ⟨⟨_, rfl, rfl, before _ rfl⟩, _, rfl, rfl, before _ rfl⟩

/-- The row as a resumption around this package leaves it after that heal. -/
def resumedTen : StoredRow :=
  ⟨{ everyTen with startTime := 16000000, boundaryFor := "paused", boundaryGeneration := 1 }, [], []⟩

/-- The same pause, healed at 16 s; the resumption is met and healed in its turn, and what fires is
the tick at 20 s. -/
theorem sighted_fires_after_heal :
    ∃ s, ((healSystem intervalReader).only (HealState.Heeds intervalReader 0)).run healStart
        [.raw pausedTen, .build 0 15000000, .lockHeal 0 16000000, .commitHeal 0, .raw resumedTen,
          .build 0 17000000, .lockHeal 0 18000000, .commitHeal 0,
          .dispatch 0 20000000 21000000 21000000 fun _ _ => true] = some s ∧
      s.history = [.fired 0 20000000, .met 0 17000000, .met 0 15000000] ∧
      HealState.FiresAfter 0 s.history := by
  have hd : ∀ t t', intervalReader.boundaryDigest t true ≠ intervalReader.boundaryDigest t' false := by
    intro t t'
    change (if true = false then "paused" else if t.everySeconds = some 10 then "ten" else "other") ≠
      "paused"
    rw [if_neg Bool.true_eq_false_eq_False]
    split_ifs <;> decide
  have after : ∀ s, ((healSystem intervalReader).only (HealState.Heeds intervalReader 0)).run healStart
        [.raw pausedTen, .build 0 15000000, .lockHeal 0 16000000, .commitHeal 0, .raw resumedTen,
          .build 0 17000000, .lockHeal 0 18000000, .commitHeal 0,
          .dispatch 0 20000000 21000000 21000000 fun _ _ => true] = some s →
      HealState.FiresAfter 0 s.history :=
    fun s hr => sighted_fires_after hd (.of_run healStart_start hr)
  exact ⟨_, rfl, rfl, after _ rfl⟩

end DjangoOx
