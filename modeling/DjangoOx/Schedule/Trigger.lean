import Mathlib.Data.Int.Order.Basic
import Mathlib.Order.Bounds.Basic

/-! Triggers, time zones, and what a dispatch pass asks of one schedule. Instants and durations are
in microseconds, counted from 1970. -/
namespace DjangoOx

/-- A naive datetime: what the wall clock shows, and which pass of a repeated hour it is. -/
structure WallTime where
  clock : ℤ
  fold : Bool
  deriving DecidableEq, Repr

/-- The time zone the project runs in. -/
structure Zone where
  /-- `timezone.localtime(now).replace(tzinfo=None)` -/
  localtime : ℤ → WallTime
  /-- `timezone.make_aware(tick)` -/
  makeAware : WallTime → ℤ

/-- USE_TZ off: the clock's own time, as it is. -/
def Zone.naive : Zone where
  localtime now := ⟨now, false⟩
  makeAware t := t.clock

/-- When a schedule is due: `none` for no tick at or before the time, or one that cannot be
derived. -/
structure Trigger where
  previous : WallTime → Option WallTime

/-- Every `every`, counted from the epoch and shifted by `phase`. The caller's fold is kept. -/
def IntervalTrigger (every phase : ℤ) : Trigger where
  previous dt := some ⟨(dt.clock - phase).fdiv every * every + phase, dt.fold⟩

/-- The ticks of an interval. -/
def intervalTicks (every phase : ℤ) : Set ℤ :=
  {t | ∃ n : ℤ, t = n * every + phase}

/-- The tick of an interval is its latest one at or before the time. -/
theorem intervalTrigger_isGreatest {every phase : ℤ} (he : 0 < every) (dt : WallTime) :
    ∃ t, (IntervalTrigger every phase).previous dt = some t ∧
      IsGreatest {x | x ∈ intervalTicks every phase ∧ x ≤ dt.clock} t.clock := by
  refine ⟨_, rfl, ⟨⟨(dt.clock - phase).fdiv every, rfl⟩, ?_⟩, ?_⟩
  · have hle : (dt.clock - phase) / every * every ≤ dt.clock - phase := Int.ediv_mul_le _ he.ne'
    rw [Int.fdiv_eq_ediv_of_nonneg _ he.le]
    change (dt.clock - phase) / every * every + phase ≤ dt.clock
    omega
  · rintro x ⟨⟨n, rfl⟩, hx⟩
    have hn : n ≤ (dt.clock - phase) / every := Int.le_ediv_of_mul_le he (by omega)
    have hmul := Int.mul_le_mul_of_nonneg_right hn he.le
    rw [Int.fdiv_eq_ediv_of_nonneg _ he.le]
    change n * every + phase ≤ (dt.clock - phase) / every * every + phase
    omega

/-- A schedule as a dispatch pass holds it: from settings, or built from a row. -/
structure Schedule where
  trigger : Trigger
  startTime : Option ℤ
  endTime : Option ℤ
  startingDeadline : Option ℤ
  /-- The first sighting records an anchor and fires nothing. -/
  anchors : Bool

namespace Schedule

/-- The instant the schedule answers for a wall-clock time. -/
def tickAt (s : Schedule) (z : Zone) (localNow : WallTime) : Option ℤ :=
  (s.trigger.previous localNow).map z.makeAware

/-- The tick of a pass that reads its clock at `now`. A tick ahead of the clock is not due. -/
def due (s : Schedule) (z : Zone) (now : ℤ) : Option ℤ :=
  (s.tickAt z (z.localtime now)).filter (· ≤ now)

def InBounds (s : Schedule) (scheduledFor : ℤ) : Prop :=
  (∀ b ∈ s.startTime, b ≤ scheduledFor) ∧ ∀ e ∈ s.endTime, scheduledFor ≤ e

instance (s : Schedule) (scheduledFor : ℤ) : Decidable (s.InBounds scheduledFor) :=
  inferInstanceAs (Decidable (_ ∧ _))

/-- The starting deadline has passed. -/
def Late (s : Schedule) (scheduledFor now : ℤ) : Prop :=
  ∃ d ∈ s.startingDeadline, d < now - scheduledFor

instance (s : Schedule) (scheduledFor now : ℤ) : Decidable (s.Late scheduledFor now) :=
  match h : s.startingDeadline with
  | none => isFalse (by simp [Late, h])
  | some d => decidable_of_iff (d < now - scheduledFor) (by simp [Late, h])

/-- `_still_due`: the tick is recomputed at the pass's own snapshot, the deadline is judged at
`now`. -/
def StillDue (s : Schedule) (z : Zone) (scheduledFor : ℤ) (localNow : WallTime) (now : ℤ) : Prop :=
  s.tickAt z localNow = some scheduledFor ∧ s.InBounds scheduledFor ∧ ¬ s.Late scheduledFor now

instance (s : Schedule) (z : Zone) (scheduledFor : ℤ) (localNow : WallTime) (now : ℤ) :
    Decidable (s.StillDue z scheduledFor localNow now) :=
  inferInstanceAs (Decidable (_ ∧ _ ∧ _))

theorem due_le {s : Schedule} {z : Zone} {now t : ℤ} (h : s.due z now = some t) : t ≤ now := by
  obtain ⟨-, hle⟩ := Option.filter_eq_some_iff.mp h
  exact of_decide_eq_true hle

end Schedule

end DjangoOx
