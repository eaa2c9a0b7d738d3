import DjangoOx.Machine.Run
import DjangoOx.Limits.Accounting

/-! Accounting errors after a claim: the row is returned, and a run of lost counts closes a limit. -/
namespace DjangoOx

open Machine Machine.Act

/-- The admissions that went unrecorded since the last increment that matched a row. -/
def unrecordedRun (name : String) (log : List LimitEvent) : ℕ :=
  (log.takeWhile (· ≠ .recorded name)).count (.unrecorded name)

/-- What happened after the last probe of the limit that succeeded. -/
def sinceReopened (name : String) (log : List LimitEvent) : List LimitEvent :=
  log.takeWhile (· ≠ .reopened name)

/-- The run that closes a limit; it starts again when a probe has reopened the limit. -/
def openRun (name : String) (log : List LimitEvent) : ℕ :=
  unrecordedRun name (sinceReopened name log)

theorem openRun_cons (name : String) (e : LimitEvent) (log : List LimitEvent) :
    openRun name (e :: log) =
      if e = .recorded name ∨ e = .reopened name then 0
      else openRun name log + if e = .unrecorded name then 1 else 0 := by
  unfold openRun unrecordedRun sinceReopened
  by_cases hreopened : e = .reopened name
  · simp [hreopened]
  · by_cases hrecorded : e = .recorded name
    · simp [hrecorded]
    · simp [hreopened, hrecorded, List.count_cons]

/-- With no reopening since the last recorded admission, the two runs are one. -/
theorem openRun_eq {name : String} {log : List LimitEvent}
    (h : .reopened name ∉ log.takeWhile (· ≠ .recorded name)) :
    openRun name log = unrecordedRun name log := by
  induction log with
  | nil => rfl
  | cons e log ih =>
    rw [openRun_cons]
    by_cases hrecorded : e = .recorded name
    · simp [unrecordedRun, hrecorded]
    · have hne : e ≠ .reopened name := by
        intro he
        simp [he] at h
      have hrest : .reopened name ∉ log.takeWhile (· ≠ .recorded name) := by
        intro hmem
        apply h
        rw [List.takeWhile_cons_of_pos (by simpa using hrecorded)]
        exact List.mem_cons_of_mem _ hmem
      rw [if_neg (not_or.mpr ⟨hrecorded, hne⟩), ih hrest]
      simp [unrecordedRun, hrecorded, List.count_cons]

/-- The limit is closed, as far as what happened says. -/
def ClosedBy (log : List LimitEvent) (name : String) : Prop :=
  maxCountFailures ≤ openRun name log

/-- What may happen after `older`. -/
def LimitEvent.Allowed (o : LimitOptions) (older : List LimitEvent) : LimitEvent → Prop
  | refreshed paths queues =>
    ∀ l ∈ o.limits, ClosedBy older l.name → l.taskPaths ⊆ paths ∧ l.queues ⊆ queues
  | claimed call => ∀ l ∈ o.limits, ClosedBy older l.name → ¬ l.Covers call
  | recorded name => ¬ ClosedBy older name
  | reopened _ | unrecorded _ => True

/-- Everything that happened was allowed when it did. -/
def Sound (o : LimitOptions) (log : List LimitEvent) : Prop :=
  ∀ newer e older, log = newer ++ e :: older → e.Allowed o older

theorem sound_nil (o : LimitOptions) : Sound o [] := by
  intro newer e older h
  simp at h

theorem Sound.cons {o : LimitOptions} {e : LimitEvent} {log : List LimitEvent} (h : Sound o log)
    (he : e.Allowed o log) : Sound o (e :: log) := by
  intro newer e' older heq
  cases newer with
  | nil =>
    cases heq
    exact he
  | cons first newer =>
    cases heq
    exact h newer e' older rfl

namespace LimitedWorker

variable {o : LimitOptions} {r : Replies} {w w' w'' : LimitedWorker} {n : ℕ}

/-- The rows that this worker's claims committed. -/
def claims (w : LimitedWorker) : List LimitedCall :=
  w.log.filterMap fun e => match e with
    | .claimed call => some call
    | _ => none

/-- The counters say what happened. -/
structure Consistent (o : LimitOptions) (w : LimitedWorker) : Prop where
  failures : ∀ name, w.countFailures name = openRun name w.log
  closed : ∀ name, name ∈ w.closed ↔ maxCountFailures ≤ w.countFailures name
  sound : Sound o w.log

theorem Consistent.mem_closed (h : w.Consistent o) {name : String} :
    name ∈ w.closed ↔ ClosedBy w.log name := by
  rw [h.closed, h.failures]
  rfl

/-- Every limit has been seen. -/
def AllSeen (o : LimitOptions) (w : LimitedWorker) : Prop :=
  ∀ l ∈ o.limits, w.seen l.name ≠ none

/-- A view that a claim may stand on. -/
structure Standing (o : LimitOptions) (w : LimitedWorker) : Prop where
  seen : w.AllSeen o
  blocked : ∀ l ∈ o.limits, l.name ∈ w.closed →
    l.taskPaths ⊆ w.blockedPaths ∧ l.queues ⊆ w.blockedQueues

/-- Between two passes. -/
structure AtRest (o : LimitOptions) (w : LimitedWorker) : Prop where
  consistent : w.Consistent o
  standing : w.viewStale = false → w.Standing o

/-- What a read of the windows may have done before it stored the view. -/
structure Underway (o : LimitOptions) (w w' : LimitedWorker) : Prop where
  consistent : w'.Consistent o
  closed : ∀ name ∈ w'.closed, name ∈ w.closed
  seen : w'.seen = w.seen
  paths : w'.blockedPaths = w.blockedPaths
  queues : w'.blockedQueues = w.blockedQueues
  stale : w'.viewStale = w.viewStale
  claims : w'.claims = w.claims

theorem Underway.refl (h : w.Consistent o) : Underway o w w :=
  ⟨h, fun _ hc => hc, rfl, rfl, rfl, rfl, rfl⟩

theorem Underway.trans (h : Underway o w w') (h' : Underway o w' w'') : Underway o w w'' where
  consistent := h'.consistent
  closed name hc := h.closed name (h'.closed name hc)
  seen := h'.seen.trans h.seen
  paths := h'.paths.trans h.paths
  queues := h'.queues.trans h.queues
  stale := h'.stale.trans h.stale
  claims := h'.claims.trans h.claims

theorem Underway.standing (h : Underway o w w') (hs : w.Standing o) : w'.Standing o where
  seen l hl := by
    rw [h.seen]
    exact hs.seen l hl
  blocked l hl hc := by
    rw [h.paths, h.queues]
    exact hs.blocked l hl (h.closed _ hc)

theorem Underway.atRest (h : Underway o w w') (hs : w.AtRest o) : w'.AtRest o :=
  ⟨h.consistent, fun hst => h.standing (hs.standing (h.stale ▸ hst))⟩

end LimitedWorker

/-- Nothing raises an InterfaceError, and the SELECT after the seeds finds the rows of the first. -/
structure Replies.Quiet (r : Replies) : Prop where
  probe : ∀ n name, r.probe n name ≠ .error .interface
  select : ∀ n, r.select n ≠ .error .interface
  create : ∀ n name, r.create n name ≠ .error .interface
  reselect : ∀ n, r.reselect n ≠ .error .interface
  adopt : ∀ n name, r.adopt n name ≠ .error .interface
  roll : ∀ n name, r.roll n name ≠ .error .interface
  increment : ∀ n name, r.increment n name ≠ .error .interface
  kept : ∀ n rows again, r.select n = .ok rows → r.reselect n = .ok again →
    rows.map ClockedRow.limitName ⊆ again.map ClockedRow.limitName

namespace LimitedWorker

variable {o : LimitOptions} {r : Replies} {w w' w'' : LimitedWorker} {n : ℕ}

/-- A raised error that the accounting catches when the replies are quiet. -/
def Caught (r : Replies) (e : Raised) : Prop :=
  r.Quiet → e.LosesACount

theorem holds_ask {α : Type} {x : Except DbError α} {Q : α → LimitedWorker → Prop}
    {E : Raised → LimitedWorker → Prop} (hok : ∀ a, x = .ok a → Q a w)
    (herr : ∀ e, x = .error e → E (.db e) w) : Holds (ask x) w Q E := by
  cases x with
  | ok a => exact hok a rfl
  | error e => exact herr e rfl

theorem caught_db {α : Type} {x : Except DbError α} (hx : r.Quiet → x ≠ .error .interface)
    {e : DbError} (he : x = .error e) : Caught r (.db e) := by
  intro hq
  have hne := hx hq
  rintro rfl
  exact hne he

theorem holds_reopen (h : w.Consistent o) (name : String) :
    Holds (reopen r n name) w (fun _ w' => Underway o w w')
      (fun e w' => Underway o w w' ∧ Caught r e) := by
  unfold reopen
  cases hp : r.probe n name with
  | error e =>
    dsimp only
    split_ifs with hd
    · exact .refl h
    · exact ⟨.refl h, caught_db (fun hq => hq.probe n name) hp⟩
  | ok _ =>
    simp only [holds_modify]
    refine ⟨⟨?_, ?_, ?_⟩, ?_, rfl, rfl, rfl, rfl, rfl⟩
    · intro name'
      rw [openRun_cons, ← h.failures]
      by_cases hn : name' = name
      · simp [hn]
      · simp [Function.update_of_ne hn, Ne.symm hn]
    · intro name'
      by_cases hn : name' = name
      · simp [hn, maxCountFailures]
      · simp [hn, h.closed]
    · exact h.sound.cons trivial
    · exact fun _ hc => (List.mem_filter.mp hc).1

theorem holds_reopenWhatCountsAgain (h : w.Consistent o) :
    Holds (reopenWhatCountsAgain r n) w (fun _ w' => Underway o w w')
      (fun e w' => Underway o w w' ∧ Caught r e) := by
  unfold reopenWhatCountsAgain
  simp only [holds_bind, holds_get]
  apply Holds.forM (fun _ w' => Underway o w w')
  · intro name _ s hs
    exact (holds_reopen hs.consistent name).mono (fun _ _ => hs.trans)
      fun e _ he => ⟨hs.trans he.1, he.2⟩
  · exact .refl h

/-- An adoption touches nothing that the claims depend on. -/
theorem Underway.folded (h : Underway o w w') (f : String → Option String) :
    Underway o w { w' with folded := f } :=
  ⟨⟨h.consistent.failures, h.consistent.closed, h.consistent.sound⟩, h.closed, h.seen, h.paths,
    h.queues, h.stale, h.claims⟩

theorem holds_seed (name : String) :
    Holds (seed r n name) w (fun _ s => s = w) (fun e s => s = w ∧ Caught r e) := by
  have hc : ∀ e, r.create n name = .error e → Caught r (.db e) :=
    fun e => caught_db fun hq => hq.create n name
  unfold seed
  split
  · rfl
  · next he => exact ⟨rfl, hc _ he⟩
  · rfl

theorem holds_adopt (h : Underway o w w') (name : String) :
    Holds (adopt o r n name) w' (fun _ s => Underway o w s ∧ True)
      (fun e s => Underway o w s ∧ Caught r e) := by
  unfold adopt
  simp only [holds_bind]
  apply holds_ask
  · intro found _
    cases found with
    | none => exact ⟨h, fun _ => trivial⟩
    | some row =>
      simp only [holds_bind, holds_get]
      split_ifs
      · exact ⟨h, fun _ => trivial⟩
      · simp only [holds_bind, holds_modify, holds_pure]
        exact ⟨h.folded _, trivial⟩
      · exact ⟨h, fun _ => trivial⟩
      · simp only [holds_bind, holds_modify, holds_pure]
        exact ⟨h.folded _, trivial⟩
  · intro e he
    exact ⟨h, caught_db (fun hq => hq.adopt n name) he⟩

/-- A row read under a name is read again under it when its own name is. -/
theorem isSome_keyed {rows again : List ClockedRow} {name : String}
    (hkept : rows.map ClockedRow.limitName ⊆ again.map ClockedRow.limitName)
    (h : (w.keyed rows name).isSome) : (w.keyed again name).isSome := by
  unfold keyed at h ⊢
  rw [List.find?_isSome] at h ⊢
  obtain ⟨row, hrow, hname⟩ := h
  have hmem : row.limitName ∈ rows.map ClockedRow.limitName :=
    List.mem_map_of_mem (List.mem_reverse.mp hrow)
  obtain ⟨row', hrow', heq⟩ := List.mem_map.mp (hkept hmem)
  refine ⟨row', List.mem_reverse.mpr hrow', ?_⟩
  rw [heq]
  exact hname

/-- An element of the first list has a partner in a second one as long as the first. -/
theorem isSome_find_zip {β : Type} {l : List String} {bs : List β} {name : String}
    (hlen : l.length = bs.length) (h : name ∈ l) :
    ((l.zip bs).find? fun e => e.1 = name).isSome := by
  rw [List.find?_isSome]
  have hmem : name ∈ (l.zip bs).map Prod.fst := by
    rwa [List.map_fst_zip hlen.le]
  obtain ⟨e, he, rfl⟩ := List.mem_map.mp hmem
  exact ⟨e, he, by simp⟩

/-- The rows of a read: with quiet replies, every limit has one. -/
theorem holds_readRows (h : Underway o w w') :
    Holds (readRows o r n) w'
      (fun rows s => Underway o w s ∧ (r.Quiet → ∀ l ∈ o.limits, (rows l.name).isSome))
      (fun e s => Underway o w s ∧ Caught r e) := by
  unfold readRows
  simp only [holds_bind]
  apply holds_ask
  swap
  · intro e he
    exact ⟨h, caught_db (fun hq => hq.select n) he⟩
  intro found hfound
  simp only [holds_get]
  split_ifs with hmissing
  · refine ⟨h, fun _ l hl => ?_⟩
    have hnot := List.filter_eq_nil_iff.mp hmissing l.name (List.mem_map_of_mem hl)
    simpa [Option.isSome_iff_ne_none] using hnot
  · simp only [holds_bind]
    have hseed : Holds (((o.limits.map RateLimit.name).filter fun name =>
        (w'.keyed found name).isNone).forM (seed r n)) w' (fun _ s => s = w')
        (fun e s => s = w' ∧ Caught r e) := by
      apply Holds.forM (fun _ s => s = w')
      · intro name _ s hs
        rw [hs]
        exact holds_seed name
      · rfl
    refine hseed.mono ?_ fun e s hs => ⟨hs.1 ▸ h, hs.2⟩
    rintro _ s rfl
    apply holds_ask
    swap
    · intro e he
      exact ⟨h, caught_db (fun hq => hq.reselect n) he⟩
    intro again hagain
    simp only [holds_get]
    have hadopt := Holds.mapM (f := adopt o r n) (P := Underway o w)
      (fun name _ s hs => holds_adopt hs name) (l := ((o.limits.map RateLimit.name).filter
        fun name => (s.keyed found name).isNone).filter fun name => (s.keyed again name).isNone) h
    refine hadopt.mono ?_ fun _ _ he => he
    intro adopted s' hs'
    refine ⟨hs'.1, fun hq l hl => ?_⟩
    rw [Option.isSome_or, Bool.or_eq_true]
    by_cases hread : (s.keyed again l.name).isSome
    · exact .inr hread
    · left
      have hfirst : ¬ (s.keyed found l.name).isSome := fun hsome =>
        hread (isSome_keyed (hq.kept n found again hfound hagain) hsome)
      rw [Option.isSome_map]
      apply isSome_find_zip hs'.2.length_eq
      simp [List.mem_filter, List.mem_map_of_mem hl, Option.not_isSome_iff_eq_none.mp hread,
        Option.not_isSome_iff_eq_none.mp hfirst]

theorem holds_readLimit (h : Underway o w w') {rows : String → Option ClockedRow} {l : RateLimit}
    (hrow : r.Quiet → (rows l.name).isSome) :
    Holds (readLimit r n rows l) w' (fun _ s => Underway o w s ∧ True)
      (fun e s => Underway o w s ∧ Caught r e) := by
  unfold readLimit
  cases hl : rows l.name with
  | none =>
    refine ⟨h, fun hq => ?_⟩
    have := hrow hq
    simp [hl] at this
  | some row =>
    simp only [holds_bind, holds_pure]
    unfold roll
    split_ifs
    · apply holds_ask
      · exact fun _ _ => ⟨h, trivial⟩
      · intro e he
        exact ⟨h, caught_db (fun hq => hq.roll n l.name) he⟩
    · exact ⟨h, trivial⟩

/-- Every limit of a list has its entry in a list zipped with it. -/
theorem find_zip_ne_none {limits : List RateLimit} {views : List Seen}
    (hlen : limits.length = views.length) {l : RateLimit} (hl : l ∈ limits) :
    ((limits.zip views).find? fun v => v.1.name = l.name).map Prod.snd ≠ none := by
  have hmem : l ∈ (limits.zip views).map Prod.fst := by
    rwa [List.map_fst_zip hlen.le]
  obtain ⟨v, hv, rfl⟩ := List.mem_map.mp hmem
  rw [← Option.isSome_iff_ne_none, Option.isSome_map, List.find?_isSome]
  exact ⟨v, hv, by simp⟩

/-- The view that a read stores, and what it may have done on the way. -/
structure Reread (o : LimitOptions) (w w' : LimitedWorker) : Prop where
  consistent : w'.Consistent o
  closed : ∀ name ∈ w'.closed, name ∈ w.closed
  standing : w'.Standing o
  claims : w'.claims = w.claims

theorem Underway.publish (h : Underway o w w') {views : List Seen}
    (hlen : o.limits.length = views.length) (started : ℤ) :
    Reread o w (publish o started (o.limits.zip views) w') := by
  have hblocked : ∀ l ∈ o.limits, l.name ∈ w'.closed →
      l.taskPaths ⊆ (LimitedWorker.publish o started (o.limits.zip views) w').blockedPaths ∧
        l.queues ⊆ (LimitedWorker.publish o started (o.limits.zip views) w').blockedQueues := by
    intro l hl hc
    have hmem : l ∈ (o.limits.zip views).map Prod.fst := by
      rwa [List.map_fst_zip hlen.le]
    obtain ⟨v, hv, rfl⟩ := List.mem_map.mp hmem
    have hin : v ∈ (o.limits.zip views).filter fun v =>
        v.1.limit ≤ v.2.used ∨ v.1.name ∈ w'.closed := by
      simp [hv, hc]
    exact ⟨fun p hp => List.mem_flatMap.mpr ⟨v, hin, hp⟩,
      fun q hq => List.mem_flatMap.mpr ⟨v, hin, hq⟩⟩
  constructor
  · constructor
    · intro name
      change w'.countFailures name = openRun name (_ :: w'.log)
      rw [openRun_cons, h.consistent.failures]
      simp
    · exact h.consistent.closed
    · apply h.consistent.sound.cons
      intro l hl hc
      exact hblocked l hl (h.consistent.mem_closed.mpr hc)
  · exact h.closed
  · exact ⟨fun l hl => find_zip_ne_none hlen hl, hblocked⟩
  · exact h.claims

theorem holds_readWindows (h : w.Consistent o) :
    Holds (readWindows o r) w (fun _ w' => Reread o w w')
      (fun e w' => Underway o w w' ∧ Caught r e) := by
  unfold readWindows
  simp only [holds_bind, holds_get, holds_modify]
  have hbegin : Underway o w { w with reads := w.reads + 1 } :=
    ⟨⟨h.failures, h.closed, h.sound⟩, fun _ hc => hc, rfl, rfl, rfl, rfl, rfl⟩
  refine (holds_reopenWhatCountsAgain hbegin.consistent).mono ?_
    fun e s hs => ⟨hbegin.trans hs.1, hs.2⟩
  intro _ s hs
  refine (holds_readRows (hbegin.trans hs)).mono ?_ fun e s he => he
  intro rows s' hs'
  have hloop := Holds.mapM (f := readLimit r w.reads rows) (P := Underway o w)
    (fun l hl t ht => holds_readLimit ht fun hq => hs'.2 hq l hl) hs'.1
  refine hloop.mono ?_ fun e s he => he
  intro views t ht
  exact ht.1.publish ht.2.length_eq _

/-- The count of an admission under way: what the re-reads in it may have done. -/
structure Counting (o : LimitOptions) (w w' : LimitedWorker) : Prop where
  consistent : w'.Consistent o
  closed : ∀ name ∈ w'.closed, name ∈ w.closed
  seen : w'.AllSeen o
  claims : w'.claims = w.claims

theorem Reread.counting (h : Reread o w w') : Counting o w w' :=
  ⟨h.consistent, h.closed, h.standing.seen, h.claims⟩

theorem Underway.counting (h : Underway o w w') (hs : w.AllSeen o) : Counting o w w' :=
  ⟨h.consistent, h.closed, fun l hl => h.seen ▸ hs l hl, h.claims⟩

theorem Counting.trans (h : Counting o w w') (h' : Counting o w' w'') : Counting o w w'' :=
  ⟨h'.consistent, fun name hc => h.closed name (h'.closed name hc), h'.seen,
    h'.claims.trans h.claims⟩

/-- How a count ends: one of the two updates, after re-reads. -/
def Counted (o : LimitOptions) (name : String) (w : LimitedWorker) (landed : Bool)
    (w' : LimitedWorker) : Prop :=
  ∃ m, Counting o w m ∧ w' = if landed = true
    then { m with countFailures := Function.update m.countFailures name 0 }
    else m.unrecorded name

/-- With quiet replies a count never raises. -/
theorem holds_count (hq : r.Quiet) {l : RateLimit} (hl : l ∈ o.limits) (tries : ℕ)
    (hw : Counting o w w') :
    Holds (count o r l.name tries) w' (Counted o l.name w) (fun _ _ => False) := by
  induction tries generalizing w' with
  | zero => exact ⟨w', hw, rfl⟩
  | succ tries ih =>
    unfold count
    simp only [holds_bind, holds_get]
    cases hseen : w'.seen l.name with
    | none => exact absurd hseen (hw.seen l hl)
    | some _ =>
      dsimp only
      split
      · next e he =>
        have hdb : e.IsDatabaseError := by
          rintro rfl
          exact hq.increment _ _ he
        rw [if_pos hdb]
        exact ⟨w', hw, rfl⟩
      · exact ⟨w', hw, rfl⟩
      · simp only [holds_bind, holds_attempt]
        refine (holds_readWindows hw.consistent).mono ?_ ?_
        · exact fun _ s hs => ih (hw.trans hs.counting)
        · intro e s hs
          rw [if_pos (hs.2 hq)]
          exact ⟨s, hw.trans (hs.1.counting hw.seen), rfl⟩

/-- The event of an admission brings what happened up to the counters. -/
theorem Counted.consistent {name : String} {landed : Bool} (h : Counted o name w landed w')
    (hopen : name ∉ w.closed) :
    { w' with log := (if landed = true then .recorded name else .unrecorded name) :: w'.log :
      LimitedWorker }.Consistent o := by
  obtain ⟨m, hm, rfl⟩ := h
  have hm' := hm.consistent
  have hno : name ∉ m.closed := fun hc => hopen (hm.closed name hc)
  cases landed with
  | true =>
    constructor
    · intro name'
      change Function.update m.countFailures name 0 name' = openRun name' (.recorded name :: m.log)
      rw [openRun_cons, ← hm'.failures]
      by_cases hn : name' = name
      · simp [hn]
      · simp [hn, Ne.symm hn]
    · intro name'
      change name' ∈ m.closed ↔ _ ≤ Function.update m.countFailures name 0 name'
      by_cases hn : name' = name
      · simp [hn, hno, maxCountFailures]
      · simp [hn, hm'.closed]
    · exact hm'.sound.cons fun hc => hno (hm'.mem_closed.mpr hc)
  | false =>
    constructor
    · intro name'
      change Function.update m.countFailures name (m.countFailures name + 1) name' =
        openRun name' (.unrecorded name :: m.log)
      rw [openRun_cons, ← hm'.failures]
      by_cases hn : name' = name
      · simp [hn]
      · simp [hn, Ne.symm hn]
    · intro name'
      change name' ∈ (if m.countFailures name + 1 < maxCountFailures ∨ name ∈ m.closed
        then m.closed else name :: m.closed) ↔
        _ ≤ Function.update m.countFailures name (m.countFailures name + 1) name'
      have hlow : m.countFailures name < maxCountFailures := by
        have := (hm'.closed name).not.mp hno
        omega
      by_cases hn : name' = name
      · rw [hn, Function.update_self]
        split_ifs with hfew
        · have := hfew.resolve_right hno
          simp only [hno, false_iff]
          omega
        · have := (not_or.mp hfew).1
          simp only [List.mem_cons, true_or, true_iff]
          omega
      · rw [Function.update_of_ne hn, ← hm'.closed]
        split_ifs
        · rfl
        · simp [hn]
    · exact hm'.sound.cons trivial

/-- Of the limits that an admission may leave closed, only the one it was counted under is new. -/
theorem Counted.closed {name : String} {landed : Bool} (h : Counted o name w landed w') :
    ∀ name' ∈ w'.closed, name' = name ∨ name' ∈ w.closed := by
  obtain ⟨m, hm, rfl⟩ := h
  intro name' hc
  cases landed with
  | true => exact .inr (hm.closed name' hc)
  | false =>
    change name' ∈ (if m.countFailures name + 1 < maxCountFailures ∨ name ∈ m.closed
        then m.closed else name :: m.closed) at hc
    split_ifs at hc
    · exact .inr (hm.closed name' hc)
    · rcases List.mem_cons.mp hc with heq | hc
      · exact .inl heq
      · exact .inr (hm.closed name' hc)

/-- The counts of one claim under way: the limits still to be counted are open. -/
structure Accounting (o : LimitOptions) (w : LimitedWorker) (rest : List RateLimit)
    (w' : LimitedWorker) : Prop where
  consistent : w'.Consistent o
  seen : w'.AllSeen o
  claims : w'.claims = w.claims
  todo : ∀ l ∈ rest, l ∈ o.limits ∧ l.name ∉ w'.closed
  nodup : (rest.map RateLimit.name).Nodup

theorem holds_countAdmission (hq : r.Quiet) {l : RateLimit} {rest : List RateLimit}
    (h : Accounting o w (l :: rest) w') :
    Holds (countAdmission o r l) w' (fun _ s => Accounting o w rest s) (fun _ _ => False) := by
  unfold countAdmission
  simp only [holds_bind, holds_modify]
  have hl := h.todo l (by simp)
  have hself : Counting o w' w' := ⟨h.consistent, fun _ hc => hc, h.seen, rfl⟩
  refine (holds_count hq hl.1 maxRateAttempts hself).mono ?_ fun _ _ he => he
  intro landed s hs
  have hnodup := List.nodup_cons.mp h.nodup
  refine ⟨hs.consistent hl.2, ?_, ?_, ?_, hnodup.2⟩
  · obtain ⟨m, hm, rfl⟩ := hs
    cases landed with
    | true => exact hm.seen
    | false => exact hm.seen
  · have hclaims : s.claims = w'.claims := by
      obtain ⟨m, hm, rfl⟩ := hs
      cases landed with
      | true => exact hm.claims
      | false => exact hm.claims
    rw [← h.claims, ← hclaims]
    cases landed with
    | true => rfl
    | false => rfl
  · intro l' hl'
    have h' := h.todo l' (List.mem_cons_of_mem _ hl')
    refine ⟨h'.1, fun hc => ?_⟩
    rcases hs.closed l'.name hc with heq | hc
    · exact hnodup.1 (heq ▸ List.mem_map_of_mem hl')
    · exact h'.2 hc

theorem Consistent.concurrencyStale (h : w.Consistent o) (b : Bool) :
    { w with concurrencyStale := b }.Consistent o :=
  ⟨h.failures, h.closed, h.sound⟩

/-- With quiet replies the accounting of a claim never raises. -/
theorem holds_record (hq : r.Quiet) {call : LimitedCall} (h : w.Consistent o) (hs : w.Standing o)
    (hopen : ∀ l ∈ o.limits, l.Covers call → l.name ∉ w.closed) :
    Holds (record o r call) w (fun _ w' => w'.AtRest o ∧ w'.claims = w.claims)
      (fun _ _ => False) := by
  unfold record
  simp only [holds_bind, holds_modify]
  have hstart : Accounting o w (o.limits.filter fun l => l.Covers call)
      { w with
        concurrencyStale :=
          if ∃ l ∈ o.concurrency, l.Covers call then true else w.concurrencyStale } := by
    refine ⟨h.concurrencyStale _, hs.seen, rfl, ?_, ?_⟩
    · intro l hl
      have hmem := List.mem_filter.mp hl
      exact ⟨hmem.1, hopen l hmem.1 (by simpa using hmem.2)⟩
    · exact o.nodup.sublist (List.filter_sublist.map _)
  by_cases hnone : (o.limits.filter fun l => l.Covers call) = []
  · rw [hnone]
    exact ⟨⟨h.concurrencyStale _, fun _ => ⟨hs.seen, hs.blocked⟩⟩, rfl⟩
  · refine (Holds.forM (Accounting o w) (fun l rest s hs => holds_countAdmission hq hs)
      _ hstart).mono ?_ fun _ _ he => he
    intro _ s hs
    rw [if_neg hnone]
    have hstale : ¬ true = false := by decide
    exact ⟨⟨⟨hs.consistent.failures, hs.consistent.closed, hs.consistent.sound⟩,
      fun hst => absurd hst hstale⟩, hs.claims⟩

theorem holds_readRunning (h : w.AtRest o) (hs : w.Standing o) :
    Holds (readRunning o r) w
      (fun _ w' => w'.AtRest o ∧ w'.Standing o ∧ w'.claims = w.claims)
      (fun _ w' => w'.AtRest o ∧ w'.claims = w.claims) := by
  have hrest : ∀ b, { w with concurrencyStale := b }.AtRest o := fun b =>
    ⟨h.consistent.concurrencyStale b, fun _ => ⟨hs.seen, hs.blocked⟩⟩
  unfold readRunning
  simp only [holds_bind, holds_modify]
  unfold countRunning
  have hstored : ∀ paths queues b t, AtRest o
      { w with
        concurrencyBlockedPaths := paths
        concurrencyBlockedQueues := queues
        concurrencyStale := b
        concurrencyRefreshAfter := t } := fun _ _ b _ =>
    ⟨⟨h.consistent.failures, h.consistent.closed, h.consistent.sound⟩,
      fun _ => ⟨hs.seen, hs.blocked⟩⟩
  split_ifs
  · exact ⟨hstored _ _ _ _, ⟨hs.seen, hs.blocked⟩, rfl⟩
  · split
    · exact ⟨hstored _ _ _ _, ⟨hs.seen, hs.blocked⟩, rfl⟩
    · exact ⟨hrest true, rfl⟩

theorem holds_refreshWindows (h : w.AtRest o) :
    Holds (refreshWindows o r) w
      (fun _ w' => w'.AtRest o ∧ w'.Standing o ∧ w'.claims = w.claims)
      (fun _ w' => w'.AtRest o ∧ w'.claims = w.claims) := by
  unfold refreshWindows
  simp only [holds_bind, holds_get]
  split_ifs with hdue
  · apply (holds_readWindows h.consistent).mono
    · exact fun _ s hs => ⟨⟨hs.consistent, fun _ => hs.standing⟩, hs.standing, hs.claims⟩
    · exact fun _ s hs => ⟨hs.1.atRest h, hs.1.claims⟩
  · refine ⟨h, ?_, rfl⟩
    -- No read: there is no limit to have a view of, or the view is not stale.
    by_cases hlimits : o.limits = []
    · constructor
      · intro l hl
        simp [hlimits] at hl
      · intro l hl
        simp [hlimits] at hl
    · apply h.standing
      by_contra hst
      rw [Bool.not_eq_false] at hst
      exact hdue ⟨hlimits, .inl hst⟩

theorem holds_refreshView (h : w.AtRest o) :
    Holds (refreshView o r) w
      (fun _ w' => w'.AtRest o ∧ w'.Standing o ∧ w'.claims = w.claims)
      (fun _ w' => w'.AtRest o ∧ w'.claims = w.claims) := by
  unfold refreshView
  refine (holds_refreshWindows h).bind ?_ fun _ _ he => he
  intro _ s hs
  unfold refreshRunning
  simp only [holds_bind, holds_get]
  split_ifs
  · apply (holds_readRunning hs.1 hs.2.1).mono
    · exact fun _ s' hs' => ⟨hs'.1, hs'.2.1, hs'.2.2.trans hs.2.2⟩
    · exact fun _ s' hs' => ⟨hs'.1, hs'.2.trans hs.2.2⟩
  · exact hs

/-- A row that the blocked sets let through is covered by no closed limit. -/
theorem Standing.not_covers (hs : w.Standing o) {call : LimitedCall} (hadmits : w.Admits call)
    {l : RateLimit} (hl : l ∈ o.limits) (hc : l.name ∈ w.closed) : ¬ l.Covers call := by
  have hblocked := hs.blocked l hl hc
  rintro (hpath | hqueue)
  · exact hadmits.1 (List.mem_append_left _ (hblocked.1 hpath))
  · exact hadmits.2 (List.mem_append_left _ (hblocked.2 hqueue))

/-- What the claim leaves behind when it returns a row, or none. -/
def Claimed (o : LimitOptions) (w : LimitedWorker) : Option LimitedCall → LimitedWorker → Prop
  | none, w' => w' = w
  | some call, w' => w'.AtRest o ∧ w'.Standing o ∧ w'.claims = call :: w.claims ∧
      ∀ l ∈ o.limits, l.Covers call → l.name ∉ w'.closed

theorem holds_superClaimOne (h : w.AtRest o) (hs : w.Standing o)
    (ready : Except Raised (List LimitedCall)) :
    Holds (superClaimOne ready) w (Claimed o w) (fun _ w' => w' = w) := by
  unfold superClaimOne
  cases ready with
  | error e => rfl
  | ok rows =>
    simp only [holds_bind, holds_get]
    cases hfound : rows.find? fun call => decide (w.Admits call) with
    | none => rfl
    | some call =>
      have hadmits : w.Admits call := by simpa using List.find?_some hfound
      have hopen : ∀ l ∈ o.limits, l.Covers call → l.name ∉ w.closed :=
        fun l hl hcov hc => hs.not_covers hadmits hl hc hcov
      have hconsistent : { w with log := .claimed call :: w.log }.Consistent o := by
        constructor
        · intro name
          change w.countFailures name = openRun name (_ :: w.log)
          rw [openRun_cons, h.consistent.failures]
          simp
        · exact h.consistent.closed
        · apply h.consistent.sound.cons
          intro l hl hc hcov
          exact hopen l hl hcov (h.consistent.mem_closed.mpr hc)
      exact ⟨⟨hconsistent, fun _ => ⟨hs.seen, hs.blocked⟩⟩, ⟨hs.seen, hs.blocked⟩, rfl, hopen⟩

theorem AtRest.reads (h : w.AtRest o) (n : ℕ) : { w with reads := n }.AtRest o :=
  ⟨⟨h.consistent.failures, h.consistent.closed, h.consistent.sound⟩,
    fun hst => ⟨(h.standing hst).seen, (h.standing hst).blocked⟩⟩

/-- A pass with quiet replies after the claim: the row that it committed is the one returned. -/
theorem holds_claimOne {c : Encounter} (hq : c.after.Quiet) (h : w.AtRest o) :
    Holds (claimOne o c) w
      (fun claimed w' => w'.AtRest o ∧ w'.claims = claimed.toList ++ w.claims)
      (fun _ w' => w'.AtRest o ∧ w'.claims = w.claims) := by
  unfold claimOne
  split_ifs with hnone
  · have hs : w.Standing o := by
      constructor
      · intro l hl
        simp [hnone.1] at hl
      · intro l hl
        simp [hnone.1] at hl
    apply (holds_superClaimOne h hs c.ready).mono
    · intro claimed s hclaimed
      cases claimed with
      | none => exact ⟨hclaimed ▸ h, by rw [hclaimed]; rfl⟩
      | some call => exact ⟨hclaimed.1, hclaimed.2.2.1⟩
    · rintro _ s rfl
      exact ⟨h, rfl⟩
  · simp only [holds_bind, holds_modify]
    refine (holds_refreshView (h.reads 0)).mono ?_ fun _ _ he => he
    intro _ s hs
    refine (holds_superClaimOne hs.1 hs.2.1 c.ready).mono ?_ ?_
    · intro claimed s' hclaimed
      cases claimed with
      | none =>
        subst hclaimed
        exact ⟨hs.1, hs.2.2⟩
      | some call =>
        simp only [holds_bind, holds_modify, holds_pure]
        have hstart := hclaimed.1.reads 0
        refine (holds_record hq hstart.consistent ⟨hclaimed.2.1.seen, hclaimed.2.1.blocked⟩
          hclaimed.2.2.2).mono ?_ fun _ _ he => he.elim
        intro _ t ht
        refine ⟨ht.1, ht.2.trans ?_⟩
        exact hclaimed.2.2.1.trans (congrArg _ hs.2.2)
    · rintro _ s' rfl
      exact ⟨hs.1, hs.2.2⟩

end LimitedWorker

/-- No probe of the limit that is made is answered. -/
def Replies.Unprobed (name : String) (r : Replies) : Prop :=
  ∀ n, r.probe n name ≠ .ok ()

namespace LimitedWorker

variable {o : LimitOptions} {r : Replies} {w : LimitedWorker} {n : ℕ} {name : String}

/-- No probe has reopened the limit. -/
def Unreopened (name : String) (w : LimitedWorker) : Prop :=
  ∀ e ∈ w.log, e ≠ .reopened name

/-- An event of another kind, or of another limit. -/
theorem Unreopened.log (h : w.Unreopened name) {e : LimitEvent} (he : e ≠ .reopened name) :
    { w with log := e :: w.log }.Unreopened name := by
  intro e' he'
  rcases List.mem_cons.mp he' with rfl | he'
  · exact he
  · exact h e' he'

theorem keeps_ask {α : Type} (x : Except DbError α) : Keeps (Unreopened name) (ask x) := by
  cases x with
  | ok a => exact .pure a
  | error e => exact .throw _

theorem keeps_reopen (hr : r.Unprobed name) (other : String) :
    Keeps (Unreopened name) (reopen r n other) := by
  unfold reopen
  cases hp : r.probe n other with
  | error e => exact .ite (.pure _) (.throw _)
  | ok _ =>
    have hne : LimitEvent.reopened other ≠ .reopened name := by
      rintro ⟨⟩
      exact hr n hp
    exact .modify fun w hw => hw.log hne

theorem keeps_seed (other : String) : Keeps (Unreopened name) (seed r n other) := by
  unfold seed
  split
  · exact .pure _
  · exact .throw _
  · exact .pure _

theorem keeps_adopt (other : String) : Keeps (Unreopened name) (adopt o r n other) := by
  unfold adopt
  refine .bind (keeps_ask _) fun found => ?_
  cases found with
  | none => exact .throw _
  | some row =>
    exact .bind .get fun w => .ite (.throw _) (.bind (.modify fun _ hw => hw) fun _ => .pure row)

theorem keeps_readRows : Keeps (Unreopened name) (readRows o r n) := by
  unfold readRows
  refine .bind (keeps_ask _) fun found => .bind .get fun w => .ite (.pure _) ?_
  refine .bind (.forM keeps_seed _) fun _ => .bind (keeps_ask _) fun again => ?_
  exact .bind .get fun w => .bind (.mapM keeps_adopt _) fun _ => .pure _

theorem keeps_readLimit (rows : String → Option ClockedRow) (l : RateLimit) :
    Keeps (Unreopened name) (readLimit r n rows l) := by
  unfold readLimit
  cases rows l.name with
  | none => exact .throw _
  | some row => exact .bind (.ite (keeps_ask _) (.pure _)) fun _ => .pure _

theorem keeps_readWindows (hr : r.Unprobed name) :
    Keeps (Unreopened name) (readWindows o r) := by
  have hreopen : ∀ n, Keeps (Unreopened name) (reopenWhatCountsAgain r n) := fun n =>
    .bind .get fun w => .forM (keeps_reopen hr) _
  unfold readWindows
  refine .bind .get fun w => .bind (.modify fun _ hw => hw) fun _ => .bind (hreopen _) fun _ => ?_
  refine .bind keeps_readRows fun rows => .bind (.mapM (keeps_readLimit rows) _) fun _ => ?_
  exact .modify fun w hw => hw.log (by simp)

theorem keeps_refreshView (hr : r.Unprobed name) :
    Keeps (Unreopened name) (refreshView o r) := by
  have hcount : Keeps (Unreopened name) (countRunning o r) := by
    unfold countRunning
    refine .ite (.pure _) ?_
    cases r.running with
    | ok running => exact .pure _
    | error e => exact .bind (.modify fun _ hw => hw) fun _ => .throw _
  have hrunning : Keeps (Unreopened name) (readRunning o r) :=
    .bind (.modify fun _ hw => hw) fun _ => .bind hcount fun _ => .modify fun _ hw => hw
  refine .bind (.bind .get fun w => .ite (keeps_readWindows hr) (.pure _)) fun _ => ?_
  exact .bind .get fun w => .ite hrunning (.pure _)

theorem keeps_count (hr : r.Unprobed name) (other : String) (tries : ℕ) :
    Keeps (Unreopened name) (count o r other tries) := by
  have hunrecorded : Keeps (Unreopened name) (modify (unrecorded other) : LimitedAct Unit) :=
    .modify fun _ hw => hw
  induction tries with
  | zero => exact .bind hunrecorded fun _ => .pure _
  | succ tries ih =>
    unfold count
    refine .bind .get fun w => ?_
    cases w.seen other with
    | none => exact .pure _
    | some _ =>
      dsimp only
      split
      · exact .ite (.bind hunrecorded fun _ => .pure _) (.throw _)
      · exact .bind (.modify fun _ hw => hw) fun _ => .pure _
      · refine .bind (.attempt (keeps_readWindows hr)) fun reread => ?_
        cases reread with
        | ok _ => exact ih
        | error e => exact .ite (.bind hunrecorded fun _ => .pure _) (.throw _)

theorem keeps_record (hr : r.Unprobed name) (call : LimitedCall) :
    Keeps (Unreopened name) (record o r call) := by
  have hadmission : ∀ l, Keeps (Unreopened name) (countAdmission o r l) := by
    intro l
    refine .bind (keeps_count hr l.name _) fun landed => .modify fun w hw => hw.log ?_
    split_ifs
    · simp
    · simp
  unfold record
  refine .bind (.modify fun _ hw => hw) fun _ => .bind (.forM hadmission _) fun _ => ?_
  exact .modify fun _ hw => hw

theorem keeps_claimOne {c : Encounter} (hbefore : c.before.Unprobed name)
    (hafter : c.after.Unprobed name) : Keeps (Unreopened name) (claimOne o c) := by
  have hclaim : Keeps (Unreopened name) (superClaimOne c.ready) := by
    unfold superClaimOne
    cases c.ready with
    | error e => exact .throw e
    | ok rows =>
      refine .bind .get fun w => ?_
      cases rows.find? fun call => decide (w.Admits call) with
      | none => exact .pure _
      | some call => exact .bind (.modify fun w hw => hw.log (by simp)) fun _ => .pure _
  unfold claimOne
  refine .ite hclaim (.bind (.modify fun _ hw => hw) fun _ => ?_)
  refine .bind (keeps_refreshView hbefore) fun _ => .bind hclaim fun claimed => ?_
  cases claimed with
  | none => exact .pure _
  | some call =>
    exact .bind (.modify fun _ hw => hw) fun _ => .bind (keeps_record hafter call) fun _ => .pure _

end LimitedWorker

/-- What a worker with limits does: its claim passes, and the marks of a pool thread or the reaper
on the concurrency view. -/
inductive AccountingAction
  | claimOne (c : Encounter)
  | mark

/-- The worker over its whole life. -/
def accounting (o : LimitOptions) : System LimitedWorker AccountingAction where
  init w := w = .fresh
  step w
    | .claimOne c => some ((LimitedWorker.claimOne o c).exec w).2
    | .mark => some { w with concurrencyStale := true }

/-- The accounting after the claim meets neither an InterfaceError nor a row that went away. -/
def AccountingAction.Quiet : AccountingAction → Prop
  | claimOne c => c.after.Quiet
  | mark => True

/-- The pass reopens the limit with no probe, neither before the claim nor after it. -/
def AccountingAction.Unprobed (name : String) : AccountingAction → Prop
  | claimOne c => c.before.Unprobed name ∧ c.after.Unprobed name
  | mark => True

namespace LimitedWorker

variable {o : LimitOptions} {w : LimitedWorker}

theorem atRest_fresh (o : LimitOptions) : fresh.AtRest o := by
  refine ⟨⟨fun _ => rfl, fun name => ?_, sound_nil o⟩, fun h => ?_⟩
  · simp [fresh, maxCountFailures]
  · cases h

theorem atRest_of_reachesBy (h : (accounting o).ReachesBy (fun _ a => a.Quiet) w) :
    w.AtRest o := by
  apply h.invariant (fun w => w.AtRest o)
  · rintro w rfl
    exact atRest_fresh o
  · intro w a w' hw hquiet hstep
    cases a with
    | claimOne c =>
      cases hstep
      have hpass := holds_claimOne hquiet hw
      unfold Holds at hpass
      split at hpass
      · next heq =>
        rw [heq]
        exact hpass.1
      · next heq =>
        rw [heq]
        exact hpass.1
    | mark =>
      cases hstep
      exact ⟨hw.consistent.concurrencyStale true,
        fun hst => ⟨(hw.standing hst).seen, (hw.standing hst).blocked⟩⟩

theorem unreopened_of_reachesBy {name : String}
    (h : (accounting o).ReachesBy (fun _ a => a.Unprobed name) w) : w.Unreopened name := by
  apply h.invariant (Unreopened name)
  · rintro w rfl
    intro e he
    cases he
  · intro w a w' hw hprobe hstep
    cases a with
    | claimOne c =>
      cases hstep
      exact (keeps_claimOne hprobe.1 hprobe.2).exec hw
    | mark =>
      cases hstep
      exact hw

/-- A closed limit stays closed until a probe reopens it. -/
theorem closedBy_cons {log : List LimitEvent} {e : LimitEvent} (hallowed : e.Allowed o log)
    {name : String} (hc : ClosedBy log name) (hne : e ≠ .reopened name) :
    ClosedBy (e :: log) name := by
  have hrecorded : e ≠ .recorded name := by
    rintro rfl
    exact hallowed hc
  unfold ClosedBy at hc ⊢
  rw [openRun_cons, if_neg (not_or.mpr ⟨hrecorded, hne⟩)]
  omega

/-- What the accounting promises in a state of the worker. -/
structure AccountsFor (o : LimitOptions) (w : LimitedWorker) : Prop where
  /-- The next pass returns the row that it commits, and commits none when it raises. -/
  returned : ∀ c : Encounter, c.after.Quiet →
    Holds (claimOne o c) w (fun claimed w' => w'.claims = claimed.toList ++ w.claims)
      fun _ w' => w'.claims = w.claims
  closed : ∀ name, name ∈ w.closed ↔ maxCountFailures ≤ openRun name w.log
  /-- Where no probe has reopened the limit since, the run reaches back to the last increment. -/
  closed_unreopened : ∀ name, .reopened name ∉ w.log.takeWhile (· ≠ .recorded name) →
    (name ∈ w.closed ↔ maxCountFailures ≤ unrecordedRun name w.log)
  /-- A refresh excludes what the closed limits cover. -/
  refreshed : ∀ newer older paths queues, w.log = newer ++ .refreshed paths queues :: older →
    ∀ l ∈ o.limits, ClosedBy older l.name → l.taskPaths ⊆ paths ∧ l.queues ⊆ queues
  /-- A claim takes nothing that a closed limit covers. -/
  claimed : ∀ newer older call, w.log = newer ++ .claimed call :: older →
    ∀ l ∈ o.limits, ClosedBy older l.name → ¬ l.Covers call
  /-- A closed limit opens by a probe only. -/
  reopened : ∀ newer e older, w.log = newer ++ e :: older → ∀ name, ClosedBy older name →
    ¬ ClosedBy (e :: older) name → e = .reopened name

theorem AtRest.accountsFor (h : w.AtRest o) : w.AccountsFor o := by
  have hsound := h.consistent.sound
  constructor
  · intro c hc
    exact (holds_claimOne hc h).mono (fun _ _ hs => hs.2) fun _ _ hs => hs.2
  · exact fun name => h.consistent.mem_closed
  · intro name hno
    rw [h.consistent.mem_closed, ← openRun_eq hno]
    rfl
  · exact fun newer older paths queues heq => hsound newer _ older heq
  · exact fun newer older call heq => hsound newer _ older heq
  · intro newer e older heq name hc hopen
    by_contra hne
    exact hopen (closedBy_cons (hsound newer e older heq) hc hne)

/-- The run of the first part starts again at a probe that is answered; where none of the limit
is, only an increment that matched a row ends it. -/
theorem accountsFor_of_reachesBy (h : (accounting o).ReachesBy (fun _ a => a.Quiet) w) :
    w.AccountsFor o ∧
    ∀ name, (accounting o).ReachesBy (fun _ a => a.Quiet ∧ a.Unprobed name) w →
      (name ∈ w.closed ↔ maxCountFailures ≤ unrecordedRun name w.log) := by
  have haccounts := (atRest_of_reachesBy h).accountsFor
  refine ⟨haccounts, fun name hname => ?_⟩
  have hunreopened : w.Unreopened name :=
    unreopened_of_reachesBy (hname.mono fun _ _ ha => ha.2)
  apply haccounts.closed_unreopened
  intro hmem
  exact hunreopened _ (List.takeWhile_subset _ hmem) rfl

/-- One limit over one task. -/
def payOptions : LimitOptions := ⟨[⟨"pay", 5, 600, ["app.pay"], []⟩], [], 0, by decide⟩

/-- The window of that limit is there, and the increment is answered as given. -/
def payReplies (increment : Except DbError ℕ) : Replies where
  now := 0
  started _ := 0
  probe _ _ := .error .database
  select _ := .ok [⟨"pay", 0, 0, 0, 1⟩]
  create _ _ := .error .integrity
  reselect _ := .ok [⟨"pay", 0, 0, 0, 1⟩]
  adopt _ _ := .ok none
  roll _ _ := .ok 0
  increment _ _ := increment
  countStarted := 0
  running := .ok fun _ => 0

/-- A pass that finds one covered row. -/
def payPass (increment : Except DbError ℕ) : AccountingAction :=
  .claimOne ⟨payReplies (.ok 1), .ok [⟨"app.pay", "default"⟩], payReplies increment⟩

theorem quiet_payPass : (payPass (.error .database)).Quiet := by
  constructor <;> intros <;> simp_all [payReplies]

theorem unprobed_payPass (increment : Except DbError ℕ) (name : String) :
    (payPass increment).Unprobed name := by
  have hreplies : ∀ x, (payReplies x).Unprobed name := by
    intro x n h
    cases h
  exact ⟨hreplies _, hreplies _⟩

theorem accountsFor_threeLosses :
    ∃ w, (accounting payOptions).run fresh (List.replicate 3 (payPass (.error .database))) =
      some w ∧ w.AccountsFor payOptions ∧ "pay" ∈ w.closed ∧
      maxCountFailures ≤ unrecordedRun "pay" w.log := by
  obtain ⟨w, hw⟩ := Option.isSome_iff_exists.mp
    (show ((accounting payOptions).run fresh
      (List.replicate 3 (payPass (.error .database)))).isSome by decide +kernel)
  have hall : ∀ a ∈ List.replicate 3 (payPass (.error .database)),
      a.Quiet ∧ a.Unprobed "pay" := by
    intro a ha
    rw [List.eq_of_mem_replicate ha]
    exact ⟨quiet_payPass, unprobed_payPass _ _⟩
  have hreach : (accounting payOptions).ReachesBy (fun _ a => a.Quiet ∧ a.Unprobed "pay") w :=
    System.ReachesBy.run_of_forall (.init rfl) (fun _ => hall) hw
  have hclosed : ((accounting payOptions).run fresh
      (List.replicate 3 (payPass (.error .database)))).map LimitedWorker.closed = some ["pay"] := by
    decide +kernel
  rw [hw] at hclosed
  have hpay : w.closed = ["pay"] := Option.some.inj hclosed
  have haccounts := accountsFor_of_reachesBy (hreach.mono fun _ _ ha => ha.1)
  have hmem : "pay" ∈ w.closed := by simp [hpay]
  exact ⟨w, hw, haccounts.1, hmem, (haccounts.2 "pay" hreach).mp hmem⟩

/-- An InterfaceError of the increment leaves the claim pass, and the row stays RUNNING. -/
theorem interfaceError_escapes :
    ¬ ∀ (o : LimitOptions) (w : LimitedWorker), (accounting o).Reachable w →
      ∀ c : Encounter, Holds (claimOne o c) w
        (fun claimed w' => w'.claims = claimed.toList ++ w.claims)
        fun _ w' => w'.claims = w.claims := by
  intro h
  have hpass := h payOptions fresh (.init rfl)
    ⟨payReplies (.ok 1), .ok [⟨"app.pay", "default"⟩], payReplies (.error .interface)⟩
  exact absurd hpass (by decide +kernel)

/-- Three losses close the limit; the next pass reopens it by its probe and loses one more. -/
def probedRun : List AccountingAction :=
  List.replicate 3 (payPass (.error .database)) ++
    [.claimOne ⟨{ payReplies (.ok 1) with probe := fun _ _ => .ok () },
      .ok [⟨"app.pay", "default"⟩], payReplies (.error .database)⟩]

/-- A probe that is answered opens the limit, and no increment has ended the run. -/
theorem probe_opens_within_a_run :
    ¬ ∀ (o : LimitOptions) (w : LimitedWorker),
      (accounting o).ReachesBy (fun _ a => a.Quiet) w →
      ∀ name, name ∈ w.closed ↔ maxCountFailures ≤ unrecordedRun name w.log := by
  intro h
  obtain ⟨w, hw⟩ := Option.isSome_iff_exists.mp
    (show ((accounting payOptions).run fresh probedRun).isSome by decide +kernel)
  have hall : ∀ a ∈ probedRun, a.Quiet := by
    intro a ha
    rcases List.mem_append.mp ha with ha | ha
    · rw [List.eq_of_mem_replicate ha]
      exact quiet_payPass
    · rw [List.mem_singleton.mp ha]
      exact quiet_payPass
  have hreach : (accounting payOptions).ReachesBy (fun _ a => a.Quiet) w :=
    System.ReachesBy.run_of_forall (.init rfl) (fun _ => hall) hw
  have hends : ((accounting payOptions).run fresh probedRun).map
      (fun w => (w.closed, unrecordedRun "pay" w.log)) = some ([], 4) := by
    decide +kernel
  rw [hw] at hends
  obtain ⟨hclosed, hrun⟩ := Prod.mk.inj (Option.some.inj hends)
  have hmem := (h payOptions w hreach "pay").mpr (by rw [hrun]; decide)
  rw [hclosed] at hmem
  cases hmem

/-- Neither part of the accounting holds of every pattern of errors and replies. -/
theorem accounting_diverges :
    (¬ ∀ (o : LimitOptions) (w : LimitedWorker), (accounting o).Reachable w →
      ∀ c : Encounter, Holds (claimOne o c) w
        (fun claimed w' => w'.claims = claimed.toList ++ w.claims)
        fun _ w' => w'.claims = w.claims) ∧
    ¬ ∀ (o : LimitOptions) (w : LimitedWorker),
      (accounting o).ReachesBy (fun _ a => a.Quiet) w →
      ∀ name, name ∈ w.closed ↔ maxCountFailures ≤ unrecordedRun name w.log :=
  ⟨interfaceError_escapes, probe_opens_within_a_run⟩

end LimitedWorker

end DjangoOx
