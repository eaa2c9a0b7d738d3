import DjangoOx.Schedule.Trigger

/-! Schedules stored as rows: building one, writing one, and reading one under its lock. -/
namespace DjangoOx

inductive TriggerKind
  | cron
  | interval
  deriving DecidableEq, Repr

/-- The columns of TIMING_FIELDS. -/
structure Timing where
  trigger : TriggerKind
  cron : String
  everySeconds : Option ℕ
  phaseSeconds : ℕ
  deriving DecidableEq, Repr

structure OxSchedule where
  name : String
  taskKey : String
  /-- The JSON text. -/
  arguments : String
  timing : Timing
  enabled : Bool
  /-- The activation boundary. -/
  startTime : ℤ
  boundaryFor : String
  boundaryGeneration : ℕ
  endTime : Option ℤ
  startingDeadlineSeconds : Option ℕ
  deriving DecidableEq, Repr

/-- What the rows are read with. -/
structure Deployment where
  zone : Zone
  /-- `none` for a text that `CronExpression` refuses. -/
  cronExpression : String → Option Trigger
  /-- The digest of the columns of BOUNDARY_FIELDS: the timing and `enabled`. -/
  boundaryDigest : Timing → Bool → String

/-- `_LONGEST_INTERVAL_SECONDS` -/
def longestIntervalSeconds : ℤ := 62135596800

/-- The interval or the phase can put a tick before year 1. -/
def ticksOverflow (every phase : ℤ) : Bool :=
  decide (longestIntervalSeconds < every) ||
    decide (longestIntervalSeconds < -(-phase).fdiv every * every)

/-- A number of seconds, in microseconds. -/
def seconds (n : ℕ) : ℤ := n * 1000000

namespace OxSchedule

def digest (d : Deployment) (row : OxSchedule) : String :=
  d.boundaryDigest row.timing row.enabled

/-- The trigger the timing columns describe. -/
def buildTrigger (d : Deployment) (row : OxSchedule) : Option Trigger :=
  match row.timing.trigger, row.timing.everySeconds with
  | .cron, _ => d.cronExpression row.timing.cron
  | .interval, none => none
  | .interval, some every =>
    if every = 0 then none
    else if ticksOverflow every row.timing.phaseSeconds then none
    else some (IntervalTrigger (seconds every) (seconds row.timing.phaseSeconds))

/-- `_to_schedule`. `registered` says whether the registry holds the task key and its form takes
the arguments. -/
def toSchedule (d : Deployment) (registered : String → String → Bool) (row : OxSchedule) :
    Option Schedule :=
  if registered row.taskKey row.arguments then
    (row.buildTrigger d).map fun trigger =>
      { trigger := trigger
        startTime := some row.startTime
        endTime := row.endTime
        startingDeadline := row.startingDeadlineSeconds.map seconds
        anchors := false }
  else none

/-- `_current`, on the row as it stands under its lock. -/
def current (d : Deployment) (registered : String → String → Bool) (row : OxSchedule) :
    Option Schedule :=
  if row.enabled ∧ row.boundaryFor = row.digest d then row.toSchedule d registered else none

end OxSchedule

/-- What a caller hands `update_schedule`: the fields of WRITABLE_FIELDS it gives. -/
structure Fields where
  name : Option String := none
  taskKey : Option String := none
  trigger : Option TriggerKind := none
  cron : Option String := none
  everySeconds : Option (Option ℕ) := none
  phaseSeconds : Option ℕ := none
  arguments : Option String := none
  enabled : Option Bool := none
  endTime : Option (Option ℤ) := none
  startingDeadlineSeconds : Option (Option ℕ) := none
  deriving DecidableEq, Repr

namespace OxSchedule

/-- The row with the given fields set. -/
def setFields (row : OxSchedule) (f : Fields) : OxSchedule :=
  { row with
    name := f.name.getD row.name
    taskKey := f.taskKey.getD row.taskKey
    arguments := f.arguments.getD row.arguments
    timing :=
      { trigger := f.trigger.getD row.timing.trigger
        cron := f.cron.getD row.timing.cron
        everySeconds := f.everySeconds.getD row.timing.everySeconds
        phaseSeconds := f.phaseSeconds.getD row.timing.phaseSeconds }
    enabled := f.enabled.getD row.enabled
    endTime := f.endTime.getD row.endTime
    startingDeadlineSeconds := f.startingDeadlineSeconds.getD row.startingDeadlineSeconds }

/-- The boundary moved to `now`, and counted. -/
def rebounded (row : OxSchedule) (now : ℤ) : OxSchedule :=
  { row with startTime := now, boundaryGeneration := row.boundaryGeneration + 1 }

/-- `_disable`: a pause, of a row that need not validate. -/
def disable (d : Deployment) (row : OxSchedule) (now : ℤ) : OxSchedule :=
  let stale := row.boundaryFor ≠ row.digest d
  let paused := if stale then { row with enabled := false }.rebounded now
    else { row with enabled := false }
  { paused with boundaryFor := paused.digest d }

/-- `update_schedule`, on the locked row, with the clock read under the lock. `valid` is what
validation and the permission check answer. -/
def updateSchedule (d : Deployment) (valid : OxSchedule → Bool) (row : OxSchedule) (f : Fields)
    (now : ℤ) : Option OxSchedule :=
  if f = { enabled := some false } then some (row.disable d now)
  else
    let stale := row.boundaryFor ≠ row.digest d
    let changed := row.setFields f
    let retimed := changed.timing ≠ row.timing
    let resumed := changed.enabled = true ∧ row.enabled = false
    let changed := if retimed ∨ resumed ∨ stale then changed.rebounded now else changed
    if valid changed then some { changed with boundaryFor := changed.digest d } else none

/-- `create_schedule`. The boundary is the caller's, or the moment of the call. -/
def createSchedule (d : Deployment) (valid : OxSchedule → Bool) (fields : OxSchedule)
    (startTime : Option ℤ) (now : ℤ) : Option OxSchedule :=
  let row := { fields with startTime := startTime.getD now, boundaryGeneration := 0 }
  if valid row then some { row with boundaryFor := row.digest d } else none

/-- The timing of the row changed, or the row went from disabled to enabled. -/
def Activates (row row' : OxSchedule) : Prop :=
  row'.timing ≠ row.timing ∨ row.enabled = false ∧ row'.enabled = true

instance (row row' : OxSchedule) : Decidable (row.Activates row') :=
  inferInstanceAs (Decidable (_ ∨ _))

theorem disable_startTime (d : Deployment) (row : OxSchedule) (now : ℤ) :
    (row.disable d now).startTime = row.startTime ∨ (row.disable d now).startTime = now := by
  unfold disable rebounded
  by_cases h : row.boundaryFor ≠ row.digest d
  · right
    simp [h]
  · left
    simp [h]

theorem not_activates_disable (d : Deployment) (row : OxSchedule) (now : ℤ) :
    ¬ row.Activates (row.disable d now) := by
  unfold Activates disable rebounded
  by_cases h : row.boundaryFor ≠ row.digest d <;> simp [h]

/-- A write leaves the boundary or moves it to its own clock, and moves it whenever it retimes or
resumes the row. -/
theorem updateSchedule_boundary {d : Deployment} {valid : OxSchedule → Bool} {row row' : OxSchedule}
    {f : Fields} {now : ℤ} (h : row.updateSchedule d valid f now = some row') :
    (row'.startTime = row.startTime ∨ row'.startTime = now) ∧
      (row.Activates row' → row'.startTime = now) := by
  unfold updateSchedule at h
  split_ifs at h with hf
  · obtain rfl := Option.some.inj h
    exact ⟨disable_startTime d row now, fun ha => absurd ha (not_activates_disable d row now)⟩
  · simp only [Option.ite_none_right_eq_some, Option.some.injEq] at h
    obtain ⟨-, rfl⟩ := h
    split_ifs with hfresh
    · exact ⟨.inr rfl, fun _ => rfl⟩
    · refine ⟨.inl rfl, fun ha => absurd ?_ hfresh⟩
      rcases ha with hret | hres
      · exact .inl hret
      · exact .inr (.inl hres.symm)

/-- The trigger of an interval row. -/
theorem buildTrigger_interval {d : Deployment} {row : OxSchedule} {trigger : Trigger}
    (h : row.buildTrigger d = some trigger) (hkind : row.timing.trigger = .interval) :
    ∃ every, row.timing.everySeconds = some every ∧ 0 < every ∧
      trigger = IntervalTrigger (seconds every) (seconds row.timing.phaseSeconds) := by
  unfold buildTrigger at h
  rw [hkind] at h
  cases he : row.timing.everySeconds with
  | none =>
    rw [he] at h
    cases h
  | some every =>
    rw [he] at h
    dsimp only at h
    split_ifs at h with hzero hover
    exact ⟨every, rfl, Nat.pos_of_ne_zero hzero, (Option.some.inj h).symm⟩

/-- What a dispatch that was not refused knows of the row. -/
theorem current_eq_some {d : Deployment} {registered : String → String → Bool} {row : OxSchedule}
    {s : Schedule} (h : row.current d registered = some s) :
    row.enabled = true ∧ row.buildTrigger d = some s.trigger ∧ s.startTime = some row.startTime ∧
      s.endTime = row.endTime ∧ s.startingDeadline = row.startingDeadlineSeconds.map seconds ∧
      s.anchors = false := by
  obtain ⟨⟨hen, -⟩, h⟩ := Option.ite_none_right_eq_some.mp h
  obtain ⟨-, h⟩ := Option.ite_none_right_eq_some.mp h
  obtain ⟨trigger, ht, rfl⟩ := Option.map_eq_some_iff.mp h
  exact ⟨hen, ht, rfl, rfl, rfl, rfl⟩

end OxSchedule

end DjangoOx
