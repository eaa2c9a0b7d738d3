import DjangoOx.Machine.Run
import DjangoOx.Schedule.Stored
import DjangoOx.Task.Row
import Mathlib.Data.List.Sort

/-! One schedule under any number of workers' dispatch passes, writers of its row and prunes of its
tick log. Every statement is a step of its own. -/
namespace DjangoOx

open Machine

/-- A committed row of the tick log. An anchor has no task. -/
structure TickRow where
  pk : ℕ
  scheduledFor : ℤ
  task : Option TaskId
  deriving DecidableEq, Repr

/-- Where the schedule comes from: settings, or a row. -/
inductive Source
  | settings (zone : Zone) (schedule : Schedule)
  | stored (deployment : Deployment)

def Source.zone : Source → Zone
  | .settings z _ => z
  | .stored d => d.zone

/-- The schedule a pass starts from. What a worker has cached of a row may be of any age. -/
def Source.cached : Source → Schedule → Schedule
  | .settings _ s, _ => s
  | .stored _, cached => { cached with anchors := false }

/-- A due tick of a pass: the pass's clock, the instant, and the newest tick it read. -/
structure Attempt where
  now : ℤ
  scheduledFor : ℤ
  last : Option ℤ
  deriving DecidableEq, Repr

/-- An attempt inside its transaction: the schedule as it stands, and the clock read after it. -/
structure Admission extends Attempt where
  current : Schedule
  admittedAt : ℤ

/-- How far a pass is with the schedule. -/
inductive DispatchPass
  | idle
  | planned (cached : Schedule) (now scheduledFor : ℤ)
  | compared (cached : Schedule) (a : Attempt)
  | cleared (a : Attempt)
  /-- The row is locked and read. -/
  | refreshed (a : Attempt) (current : Schedule)
  | admitted (d : Admission)
  /-- The tick row is in, uncommitted. -/
  | claimed (d : Admission) (pk : ℕ)
  /-- The log held no other tick; the latch comes next. -/
  | seeking (d : Admission) (pk : ℕ)
  | latched (d : Admission) (pk : ℕ)
  | decided (d : Admission) (pk : ℕ) (fires : Bool)

/-- The uncommitted tick row of a pass: its instant and its key. -/
def DispatchPass.claim : DispatchPass → Option (ℤ × ℕ)
  | .claimed d pk | .seeking d pk | .latched d pk | .decided d pk _ => some (d.scheduledFor, pk)
  | _ => none

/-- How far a writer of the row is. -/
inductive ScheduleWriter
  | idle
  | locked (row : OxSchedule)
  | written (row changed : OxSchedule) (now : ℤ)

/-- How far a prune of the tick log is. `anchor` is the tick kept for the schedule: `none` before
it was looked up, `some none` when there was none. -/
inductive TickPrune
  | idle
  | keyed (cutoff : ℤ) (batchSize : ℕ)
  | paging (cutoff : ℤ) (batchSize : ℕ) (anchor : Option (Option ℕ)) (after : Option ℕ)
  | paged (cutoff : ℤ) (batchSize : ℕ) (anchor : Option (Option ℕ)) (rows : List TickRow)
  | sorted (cutoff : ℤ) (batchSize : ℕ) (anchor : Option (Option ℕ)) (rows old older : List TickRow)
  | doomed (cutoff : ℤ) (batchSize : ℕ) (anchor : Option (Option ℕ)) (rows doomed : List TickRow)
  deriving DecidableEq, Repr

/-- Who holds the row's lock. -/
inductive RowHolder
  | pass (worker : ℕ)
  | writer (id : ℕ)
  deriving DecidableEq, Repr

structure DispatchState where
  row : Option OxSchedule
  lock : Option RowHolder
  writers : ℕ → ScheduleWriter
  log : List TickRow
  nextPk : ℕ
  /-- The worker whose uncommitted tick row holds an instant of the unique constraint. -/
  inserting : ℤ → Option ℕ
  /-- The worker whose transaction wrote the latch row. -/
  latch : Option ℕ
  passes : ℕ → DispatchPass
  prunes : ℕ → TickPrune
  /-- Each worker's clock as it last read it. -/
  clocks : ℕ → ℤ
  /-- The latest reading of any clock. -/
  reading : ℤ
  /-- When the committed retimings and resumptions of the row were made. -/
  activations : List ℤ
  /-- Every tick row that committed, latest first. -/
  ever : List TickRow

inductive DispatchAction
  | plan (worker : ℕ) (cached : Schedule) (now : ℤ)
  /-- `_latest_ticks`, and what the pass decides from it. -/
  | compare (worker : ℕ) (since : ℤ)
  | check (worker : ℕ)
  | refresh (worker : ℕ) (registered : String → String → Bool)
  | recheckDue (worker : ℕ) (now : ℤ)
  | insert (worker : ℕ)
  | anchor (worker : ℕ)
  | latch (worker : ℕ)
  | relook (worker : ℕ)
  | commit (worker : ℕ) (task : TaskId)
  /-- Any failure; the transaction rolls back. -/
  | abort (worker : ℕ)
  | create (fields : OxSchedule) (startTime : Option ℤ) (valid : OxSchedule → Bool) (now : ℤ)
  | lockRow (writer : ℕ)
  | write (writer : ℕ) (fields : Fields) (valid : OxSchedule → Bool) (now : ℤ)
  | commitRow (writer : ℕ)
  | rollbackRow (writer : ℕ)
  | startPrune (prune : ℕ) (cutoff : ℤ) (batchSize : ℕ)
  | readNewest (prune : ℕ)
  | page (prune : ℕ)
  | anchorPage (prune : ℕ)
  | sort (prune : ℕ)
  | recheck (prune : ℕ)
  | delete (prune : ℕ)
  | stopPrune (prune : ℕ)

/-- The clock an action reads. -/
def DispatchAction.reads : DispatchAction → Option ℤ
  | .plan _ _ now | .recheckDue _ now | .create _ _ _ now | .write _ _ _ now => some now
  | _ => none

namespace DispatchState

def setPass (s : DispatchState) (p : ℕ) (x : DispatchPass) : DispatchState :=
  { s with passes := Function.update s.passes p x }

def setPrune (s : DispatchState) (q : ℕ) (x : TickPrune) : DispatchState :=
  { s with prunes := Function.update s.prunes q x }

def setWriter (s : DispatchState) (u : ℕ) (x : ScheduleWriter) : DispatchState :=
  { s with writers := Function.update s.writers u x }

/-- A worker reads its clock. -/
def readClock (s : DispatchState) (p : ℕ) (now : ℤ) : DispatchState :=
  { s with clocks := Function.update s.clocks p now, reading := max s.reading now }

/-- The end of a pass's transaction: what it held is free again. -/
def release (s : DispatchState) (p : ℕ) : DispatchState :=
  { s.setPass p .idle with
    lock := if s.lock = some (.pass p) then none else s.lock
    inserting := fun t => if s.inserting t = some p then none else s.inserting t
    latch := if s.latch = some p then none else s.latch }

def instants (log : List TickRow) : List ℤ := log.map (·.scheduledFor)

/-- The newest recorded tick at or after `since`. -/
def latestTick (s : DispatchState) (since : ℤ) : Option ℤ :=
  ((instants s.log).filter (since ≤ ·)).max?

def earliestTick (s : DispatchState) : Option ℤ := (instants s.log).min?

/-- The key of the schedule's newest tick. -/
def newestPk (s : DispatchState) : Option ℕ :=
  (s.log.find? fun x => s.log.all fun y => y.scheduledFor ≤ x.scheduledFor).map (·.pk)

/-- The two rows are there, the first before the second. -/
def sortsBefore (s : DispatchState) (a b : ℕ) : Bool :=
  s.log.any fun x => x.pk = a ∧ s.log.any fun y => y.pk = b ∧ x.scheduledFor < y.scheduledFor

/-- The row is there, and none is after it. -/
def isNewest (s : DispatchState) (a : ℕ) : Bool :=
  s.log.any fun x => x.pk = a ∧ s.log.all fun y => y.scheduledFor ≤ x.scheduledFor

/-- A batch of the rows before the cutoff, in key order. -/
def batch (s : DispatchState) (cutoff : ℤ) (batchSize : ℕ) (after : Option ℕ) : List TickRow :=
  ((s.log.filter fun r => r.scheduledFor < cutoff ∧ ∀ k ∈ after, k < r.pk).insertionSort
    fun a b => a.pk ≤ b.pk).take batchSize

/-- What `_anchor_boundary` answers from the earliest tick it read. -/
def decide (s : DispatchState) (p : ℕ) (d : Admission) (pk : ℕ) (earliest : ℤ) : DispatchState :=
  if d.scheduledFor < earliest then s.release p else s.setPass p (.decided d pk true)

def step (src : Source) (s : DispatchState) : DispatchAction → Option DispatchState
  | .plan p cached now =>
    match s.passes p with
    | .idle =>
      if s.clocks p ≤ now then
        ((src.cached cached).due src.zone now).map fun t =>
          (s.readClock p now).setPass p (.planned (src.cached cached) now t)
      else none
    | _ => none
  | .compare p since =>
    match s.passes p with
    | .planned cached now t =>
      if since ≤ t then
        let last := s.latestTick since
        if ¬ cached.InBounds t ∨ (∃ l ∈ last, t ≤ l ∧ l ≤ now) then some (s.setPass p .idle)
        else some (s.setPass p (.compared cached ⟨now, t, last⟩))
      else none
    | _ => none
  | .check p =>
    match s.passes p with
    | .compared cached a =>
      -- the newest tick is in the future: this instant itself is looked for
      if (∃ l ∈ a.last, a.scheduledFor ≤ l) ∧ a.scheduledFor ∈ instants s.log then
        some (s.setPass p .idle)
      else if cached.Late a.scheduledFor a.now then some (s.setPass p .idle)
      else some (s.setPass p (.cleared a))
    | _ => none
  | .refresh p registered =>
    match s.passes p, src with
    | .cleared a, .settings _ schedule => some (s.setPass p (.refreshed a schedule))
    | .cleared a, .stored d =>
      if s.lock = none then
        match s.row.bind (OxSchedule.current d registered) with
        | some c => some { s.setPass p (.refreshed a c) with lock := some (.pass p) }
        | none => some (s.setPass p .idle)
      else none
    | _, _ => none
  | .recheckDue p now =>
    match s.passes p with
    | .refreshed a c =>
      if s.clocks p ≤ now then
        if c.StillDue src.zone a.scheduledFor (src.zone.localtime a.now) now then
          some ((s.readClock p now).setPass p (.admitted ⟨a, c, now⟩))
        else some ((s.readClock p now).release p)
      else none
    | _ => none
  | .insert p =>
    match s.passes p with
    | .admitted d =>
      -- a duplicate that committed refuses the row; one that has not makes it wait
      if d.scheduledFor ∈ instants s.log then some (s.release p)
      else if s.inserting d.scheduledFor = none then
        some { s.setPass p (.claimed d s.nextPk) with
          nextPk := s.nextPk + 1
          inserting := Function.update s.inserting d.scheduledFor (some p) }
      else none
    | _ => none
  | .anchor p =>
    match s.passes p with
    | .claimed d pk =>
      if d.last = none ∧ d.current.anchors then
        match s.earliestTick with
        | some e => some (s.decide p d pk e)
        | none => some (s.setPass p (.seeking d pk))
      else some (s.setPass p (.decided d pk true))
    | _ => none
  | .latch p =>
    match s.passes p with
    | .seeking d pk =>
      if s.latch = none then some { s.setPass p (.latched d pk) with latch := some p } else none
    | _ => none
  | .relook p =>
    match s.passes p with
    | .latched d pk =>
      match s.earliestTick with
      | some e => some (s.decide p d pk e)
      | none => some (s.setPass p (.decided d pk false))
    | _ => none
  | .commit p task =>
    match s.passes p with
    | .decided d pk fires =>
      let r : TickRow := ⟨pk, d.scheduledFor, if fires then some task else none⟩
      some { s.release p with log := r :: s.log, ever := r :: s.ever }
    | _ => none
  | .abort p => some (s.release p)
  | .create fields startTime valid now =>
    match src, s.row with
    | .stored d, none =>
      (fields.createSchedule d valid startTime now).map fun row =>
        { s with row := some row, reading := max s.reading now }
    | _, _ => none
  | .lockRow u =>
    match s.writers u, s.row with
    | .idle, some row =>
      if s.lock = none then some { s.setWriter u (.locked row) with lock := some (.writer u) }
      else none
    | _, _ => none
  | .write u f valid now =>
    match src, s.writers u with
    | .stored d, .locked row =>
      (row.updateSchedule d valid f now).map fun changed =>
        { s.setWriter u (.written row changed now) with reading := max s.reading now }
    | _, _ => none
  | .commitRow u =>
    match s.writers u with
    | .written row changed now =>
      some { s.setWriter u .idle with
        row := some changed
        lock := none
        activations := if row.Activates changed then now :: s.activations else s.activations }
    | _ => none
  | .rollbackRow u =>
    match s.writers u with
    | .idle => none
    | _ => some { s.setWriter u .idle with lock := none }
  | .startPrune q cutoff batchSize =>
    match s.prunes q with
    | .idle =>
      if 0 < batchSize then
        if s.log = [] then some (s.setPrune q (.paging cutoff batchSize none none))
        else some (s.setPrune q (.keyed cutoff batchSize))
      else none
    | _ => none
  | .readNewest q =>
    match s.prunes q with
    | .keyed cutoff batchSize =>
      some (s.setPrune q (.paging cutoff batchSize (s.newestPk.map some) none))
    | _ => none
  | .page q =>
    match s.prunes q with
    | .paging cutoff batchSize anchor after =>
      match s.batch cutoff batchSize after with
      | [] => some (s.setPrune q .idle)
      | rows => some (s.setPrune q (.paged cutoff batchSize anchor rows))
    | _ => none
  | .anchorPage q =>
    match s.prunes q with
    | .paged cutoff batchSize none rows =>
      some (s.setPrune q (.paged cutoff batchSize (some s.newestPk) rows))
    | _ => none
  | .sort q =>
    match s.prunes q with
    | .paged cutoff batchSize (some anchor) rows =>
      let old := rows.filter fun r => anchor ≠ some r.pk
      let older := old.filter fun r => anchor.any fun a => s.sortsBefore r.pk a
      some (s.setPrune q (.sorted cutoff batchSize (some anchor) rows old older))
    | _ => none
  | .recheck q =>
    match s.prunes q with
    | .sorted cutoff batchSize anchor rows old older =>
      let doomed := old.filter fun r => ¬ (r ∉ older ∧ s.isNewest r.pk)
      some (s.setPrune q (.doomed cutoff batchSize anchor rows doomed))
    | _ => none
  | .delete q =>
    match s.prunes q with
    | .doomed cutoff batchSize anchor rows doomed =>
      some { s.setPrune q (if rows.length < batchSize then .idle
          else .paging cutoff batchSize anchor (rows.getLast?.map (·.pk))) with
        log := s.log.filter fun r => r.pk ∉ doomed.map (·.pk) }
    | _ => none
  | .stopPrune q => some (s.setPrune q .idle)

theorem passes_setPass (s : DispatchState) (p q : ℕ) (x : DispatchPass) :
    (s.setPass p x).passes q = if q = p then x else s.passes q := by
  simp [setPass, Function.update_apply]

theorem writers_setWriter (s : DispatchState) (u v : ℕ) (x : ScheduleWriter) :
    (s.setWriter u x).writers v = if v = u then x else s.writers v := by
  simp [setWriter, Function.update_apply]

theorem prunes_setPrune (s : DispatchState) (p q : ℕ) (x : TickPrune) :
    (s.setPrune p x).prunes q = if q = p then x else s.prunes q := by
  simp [setPrune, Function.update_apply]

/-- Nothing is under way, and nothing has been recorded. -/
def Start (s : DispatchState) : Prop :=
  s.lock = none ∧ (∀ u, s.writers u = .idle) ∧ s.log = [] ∧ (∀ t, s.inserting t = none) ∧
    s.latch = none ∧ (∀ p, s.passes p = .idle) ∧ (∀ q, s.prunes q = .idle) ∧
    s.activations = [] ∧ s.ever = []

end DispatchState

def dispatchSystem (src : Source) : System DispatchState DispatchAction where
  init := DispatchState.Start
  step := DispatchState.step src

/-- No row, no ticks, nothing under way. -/
def emptyDispatch : DispatchState where
  row := none
  lock := none
  writers _ := .idle
  log := []
  nextPk := 1
  inserting _ := none
  latch := none
  passes _ := .idle
  prunes _ := .idle
  clocks _ := 0
  reading := 0
  activations := []
  ever := []

theorem emptyDispatch_start : emptyDispatch.Start :=
  ⟨rfl, fun _ => rfl, rfl, fun _ => rfl, rfl, fun _ => rfl, fun _ => rfl, rfl, rfl⟩

end DjangoOx
