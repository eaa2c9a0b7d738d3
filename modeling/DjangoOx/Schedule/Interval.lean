import Mathlib.Algebra.Order.Group.Unbundled.Int
import DjangoOx.Machine.Bounded
import DjangoOx.Machine.Calendar
import DjangoOx.Schedule.Stored

/-! The ticks of an interval, in datetimes and timedeltas of Python's ranges. -/
namespace DjangoOx

open Machine Calendar

/-- A second, in microseconds. -/
def second : ℤ := 1000000

/-- `timedelta.min.days`, as a count. -/
def timedeltaDays : ℤ := 999999999

/-- A duration, in microseconds: 999999999 days back, and one day less a microsecond more ahead. -/
abbrev Timedelta :=
  Bounded (-(timedeltaDays * 86400 * second))
    (timedeltaDays * 86400 * second + (86400 * second - 1))

/-- `datetime.min`, in microseconds from 1970. -/
def minClock : ℤ := (toOrdinal 1 1 1 - toOrdinal 1970 1 1) * 86400 * second

/-- `datetime.max` -/
def maxClock : ℤ := (toOrdinal 9999 12 31 - toOrdinal 1970 1 1 + 1) * 86400 * second - 1

/-- A naive datetime. -/
structure Datetime where
  clock : Bounded minClock maxClock
  fold : Bool
  deriving DecidableEq, Repr

theorem minClock_eq : minClock = -62135596800000000 := by decide

theorem maxClock_eq : maxClock = 253402300799999999 := by decide

namespace Timedelta

variable {a b : Timedelta}

def sub (a b : Timedelta) : Option Timedelta := Bounded.check _ _ (a.val - b.val)

/-- `n * d` -/
def times (n : ℤ) (d : Timedelta) : Option Timedelta := Bounded.check _ _ (n * d.val)

/-- `a // b` -/
def floordiv (a b : Timedelta) : ℤ := a.val.fdiv b.val

end Timedelta

namespace Datetime

/-- No two datetimes are further apart than a timedelta reaches. -/
def sub (a b : Datetime) : Timedelta where
  val := a.clock.val - b.clock.val
  lo_le := by
    have ha := a.clock.lo_le
    have hb := b.clock.le_hi
    have hmin := minClock_eq
    have hmax := maxClock_eq
    unfold timedeltaDays second
    omega
  le_hi := by
    have ha := a.clock.le_hi
    have hb := b.clock.lo_le
    have hmin := minClock_eq
    have hmax := maxClock_eq
    unfold timedeltaDays second
    omega

/-- The sum is of the first pass. -/
def add (a : Datetime) (d : Timedelta) : Option Datetime :=
  (Bounded.check minClock maxClock (a.clock.val + d.val)).map fun clock => ⟨clock, false⟩

/-- `datetime.min` -/
def min : Datetime := ⟨⟨minClock, le_rfl, by decide⟩, false⟩

/-- `_INTERVAL_EPOCH` -/
def epoch : Datetime := ⟨⟨0, by decide, by decide⟩, false⟩

def wall (t : Datetime) : WallTime := ⟨t.clock.val, t.fold⟩

end Datetime

/-- `MAX_INTERVAL` -/
def maxInterval : Timedelta := Datetime.epoch.sub Datetime.min

/-- `IntervalTrigger.previous`; `none` is its OverflowError. -/
def previousTick (every phase : Timedelta) (dt : Datetime) : Option Datetime := do
  let elapsed ← (dt.sub Datetime.epoch).sub phase
  let back ← Timedelta.times (elapsed.floordiv every) every
  let start ← Datetime.epoch.add back
  let tick ← start.add phase
  return { tick with fold := dt.fold }

theorem maxInterval_eq : maxInterval.val = -minClock := by decide

/-- The whole intervals from the epoch to the tick, as a time. -/
def stepBack (every phase : Timedelta) (dt : Datetime) : ℤ :=
  (dt.clock.val - phase.val) / every.val * every.val

theorem stepBack_le {every : Timedelta} (he : 0 < every.val) (phase : Timedelta) (dt : Datetime) :
    stepBack every phase dt ≤ dt.clock.val - phase.val :=
  Int.ediv_mul_le _ he.ne'

/-- The whole intervals are the only step that can leave the range: where they do not, the tick
is there. -/
theorem previousTick_eq {every phase : Timedelta} (he : 0 < every.val) (hp : 0 ≤ phase.val)
    {dt : Datetime} {tick : Datetime} :
    previousTick every phase dt = some tick ↔
      minClock ≤ stepBack every phase dt ∧ tick.clock.val = stepBack every phase dt + phase.val ∧
        tick.fold = dt.fold := by
  have hle := stepBack_le he phase dt
  have hhi := dt.clock.le_hi
  have hmin := minClock_eq
  have hmax := maxClock_eq
  have hq : ∀ elapsed : Timedelta, elapsed.val = dt.clock.val - phase.val →
      elapsed.floordiv every * every.val = stepBack every phase dt := by
    intro elapsed helapsed
    unfold Timedelta.floordiv stepBack
    rw [helapsed, Int.fdiv_eq_ediv_of_nonneg _ he.le]
  unfold previousTick
  constructor
  · intro h
    obtain ⟨elapsed, helapsed, h⟩ := Option.bind_eq_some_iff.mp h
    obtain ⟨back, hback, h⟩ := Option.bind_eq_some_iff.mp h
    obtain ⟨start, hstart, h⟩ := Option.bind_eq_some_iff.mp h
    obtain ⟨last, hlast, h⟩ := Option.bind_eq_some_iff.mp h
    obtain ⟨clock, hclock, rfl⟩ := Option.map_eq_some_iff.mp hstart
    obtain ⟨clock', hclock', rfl⟩ := Option.map_eq_some_iff.mp hlast
    have h1 : elapsed.val = dt.clock.val - 0 - phase.val := Bounded.check_eq_some.mp helapsed
    have h2 : back.val = _ := Bounded.check_eq_some.mp hback
    have h3 : clock.val = 0 + back.val := Bounded.check_eq_some.mp hclock
    have h4 : clock'.val = clock.val + phase.val := Bounded.check_eq_some.mp hclock'
    rw [hq elapsed (by omega)] at h2
    obtain rfl := Option.some.inj h
    have hlow := clock.lo_le
    refine ⟨by omega, ?_, rfl⟩
    change clock'.val = _
    omega
  · rintro ⟨hlow, hval, hfold⟩
    have htick := tick.clock.le_hi
    have htick' := tick.clock.lo_le
    obtain ⟨elapsed, helapsed⟩ : ∃ elapsed : Timedelta, elapsed.val = dt.clock.val - phase.val :=
      ⟨⟨dt.clock.val - phase.val, by unfold timedeltaDays second; omega,
        by unfold timedeltaDays second; omega⟩, rfl⟩
    obtain ⟨back, hback⟩ : ∃ back : Timedelta, back.val = stepBack every phase dt :=
      ⟨⟨stepBack every phase dt, by unfold timedeltaDays second; omega,
        by unfold timedeltaDays second; omega⟩, rfl⟩
    obtain ⟨start, hstart⟩ : ∃ start : Bounded minClock maxClock,
        start.val = stepBack every phase dt :=
      ⟨⟨stepBack every phase dt, hlow, by omega⟩, rfl⟩
    have h1 : (dt.sub Datetime.epoch).sub phase = some elapsed :=
      Bounded.check_eq_some.mpr (by change _ = dt.clock.val - 0 - phase.val; omega)
    have h2 : Timedelta.times (elapsed.floordiv every) every = some back :=
      Bounded.check_eq_some.mpr (by rw [hq elapsed helapsed, hback])
    have h3 : Datetime.epoch.add back = some ⟨start, false⟩ :=
      Option.map_eq_some_iff.mpr
        ⟨start, Bounded.check_eq_some.mpr (by change _ = 0 + back.val; omega), rfl⟩
    have h4 : Datetime.add ⟨start, false⟩ phase = some ⟨tick.clock, false⟩ :=
      Option.map_eq_some_iff.mpr
        ⟨tick.clock, Bounded.check_eq_some.mpr (by change _ = start.val + phase.val; omega), rfl⟩
    simp only [h1, h2, h3, h4, Option.bind_eq_bind, Option.bind_some, ← hfold]
    rfl

/-- What the tick is, where there is one, and that there is none only where a step of whole
intervals leaves the range. -/
theorem isSome_previousTick {every phase : Timedelta} (he : 0 < every.val) (hp : 0 ≤ phase.val)
    (dt : Datetime) :
    (previousTick every phase dt).isSome ↔ minClock ≤ stepBack every phase dt := by
  constructor
  · intro h
    obtain ⟨tick, htick⟩ := Option.isSome_iff_exists.mp h
    exact ((previousTick_eq he hp).mp htick).1
  · intro h
    have hle := stepBack_le he phase dt
    have hhi := dt.clock.le_hi
    have htick : previousTick every phase dt =
        some ⟨⟨stepBack every phase dt + phase.val, by omega, by omega⟩, dt.fold⟩ :=
      (previousTick_eq he hp).mpr ⟨h, rfl, rfl⟩
    rw [htick]
    rfl

/-- Away from the ends of the ranges the arithmetic is that of the integers. -/
theorem wall_previousTick {every phase : Timedelta} (he : 0 < every.val) (hp : 0 ≤ phase.val)
    {dt : Datetime} (h : minClock ≤ stepBack every phase dt) :
    (previousTick every phase dt).map Datetime.wall =
      (IntervalTrigger every.val phase.val).previous dt.wall := by
  obtain ⟨tick, htick⟩ := Option.isSome_iff_exists.mp ((isSome_previousTick he hp dt).mpr h)
  obtain ⟨-, hclock, hfold⟩ := (previousTick_eq he hp).mp htick
  rw [htick, Option.map_some]
  unfold IntervalTrigger Datetime.wall
  dsimp only
  rw [hclock, hfold, Int.fdiv_eq_ediv_of_nonneg _ he.le]
  rfl

/-- From the epoch on, a phase under its interval steps back by one interval at most. -/
theorem minClock_le_stepBack {every phase : Timedelta} (he : second ≤ every.val)
    (hle : every.val ≤ maxInterval.val) (hp : phase.val < every.val) {dt : Datetime}
    (hdt : 0 ≤ dt.clock.val) : minClock ≤ stepBack every phase dt := by
  have hpos : 0 < every.val := by
    unfold second at he
    omega
  have hone : -1 ≤ (dt.clock.val - phase.val) / every.val :=
    Int.le_ediv_of_mul_le hpos (by omega)
  have hmul := Int.mul_le_mul_of_nonneg_right hone hpos.le
  rw [maxInterval_eq] at hle
  change _ ≤ (dt.clock.val - phase.val) / every.val * every.val
  omega

/-- The tick of a tick is the tick itself. -/
theorem stepBack_tick {every phase : Timedelta} (he : 0 < every.val) {dt tick : Datetime}
    (h : tick.clock.val = stepBack every phase dt + phase.val) :
    stepBack every phase tick = stepBack every phase dt := by
  have hdiff : tick.clock.val - phase.val =
      (dt.clock.val - phase.val) / every.val * every.val := by
    rw [h, Int.add_sub_cancel]
    rfl
  unfold stepBack
  rw [hdiff, Int.mul_ediv_cancel _ he.ne']

theorem previousTick_idem {every phase : Timedelta} (he : 0 < every.val) (hp : 0 ≤ phase.val)
    {dt tick : Datetime} (h : previousTick every phase dt = some tick) :
    previousTick every phase tick = some tick := by
  obtain ⟨hlow, hclock, -⟩ := (previousTick_eq he hp).mp h
  have hself := stepBack_tick he hclock
  exact (previousTick_eq he hp).mpr ⟨by omega, by omega, rfl⟩

theorem longestInterval : longestIntervalSeconds * second = -minClock := by decide

/-- In whole seconds, a clock at the epoch steps back by the phase, rounded up to intervals. -/
theorem stepBack_epoch {every phase : Timedelta} {e p : ℤ} (he : every.val = e * second)
    (hp : phase.val = p * second) (hpos : 0 < e) :
    stepBack every phase Datetime.epoch = (-p).fdiv e * e * second := by
  have hsecond : (0 : ℤ) < second := by decide
  have hneg : Datetime.epoch.clock.val - phase.val = -p * second := by
    rw [hp]
    change 0 - p * second = _
    rw [zero_sub, neg_mul]
  unfold stepBack
  rw [hneg, he, Int.mul_ediv_mul_of_pos_left _ _ hsecond, Int.fdiv_eq_ediv_of_nonneg _ hpos.le,
    mul_assoc]

theorem stepBack_mono {every phase : Timedelta} (he : 0 < every.val) {a b : Datetime}
    (h : a.clock.val ≤ b.clock.val) : stepBack every phase a ≤ stepBack every phase b := by
  have hdiv : (a.clock.val - phase.val) / every.val ≤ (b.clock.val - phase.val) / every.val :=
    Int.ediv_le_ediv he (by omega)
  exact Int.mul_le_mul_of_nonneg_right hdiv he.le

/-- The validators draw the line at the step from the epoch, or at an interval no phase makes step
that far. -/
theorem ticksOverflow_eq_false {every phase : Timedelta} {e p : ℤ} (he : every.val = e * second)
    (hp : phase.val = p * second) (hpos : 0 < e) :
    ticksOverflow e p = false ↔
      e ≤ longestIntervalSeconds ∧ minClock ≤ stepBack every phase Datetime.epoch := by
  have hlongest := longestInterval
  unfold ticksOverflow
  rw [stepBack_epoch he hp hpos, Bool.or_eq_false_iff, decide_eq_false_iff_not,
    decide_eq_false_iff_not, not_lt, not_lt, neg_mul]
  unfold second at *
  constructor
  · rintro ⟨hevery, hstep⟩
    exact ⟨hevery, by omega⟩
  · rintro ⟨hevery, hstep⟩
    exact ⟨hevery, by omega⟩

/-- A positive phase the validators refuse cannot be derived at the epoch. -/
theorem stepBack_lt_minClock {every phase : Timedelta} {e p : ℤ} (he : every.val = e * second)
    (hp : phase.val = p * second) (hpos : 0 < e) (hphase : 0 < p) (h : ticksOverflow e p = true) :
    stepBack every phase Datetime.epoch < minClock := by
  by_contra hstep
  have hlong : longestIntervalSeconds < e := by
    by_contra hle
    have hfine := (ticksOverflow_eq_false he hp hpos).mpr ⟨not_lt.mp hle, not_lt.mp hstep⟩
    rw [hfine] at h
    contradiction
  have hback : (-p).fdiv e * e ≤ -e := by
    have hneg : (-p) / e ≤ -1 := by
      have hlt := Int.ediv_neg_of_neg_of_pos (a := -p) (by omega) hpos
      omega
    have hmul := Int.mul_le_mul_of_nonneg_right hneg hpos.le
    rw [Int.fdiv_eq_ediv_of_nonneg _ hpos.le]
    omega
  have hlongest := longestInterval
  rw [stepBack_epoch he hp hpos] at hstep
  unfold second at *
  omega

/-- From the epoch on, the tick of a valid interval is the latest instant of its grid, and its own
tick; in whole seconds, the validators refuse exactly what the arithmetic cannot derive. -/
theorem previousTick_exact (every phase : Timedelta) (hphase : 0 ≤ phase.val) :
    (second ≤ every.val → every.val ≤ maxInterval.val → phase.val < every.val →
      ∀ dt : Datetime, Datetime.epoch.clock.val ≤ dt.clock.val →
        ∃ tick, previousTick every phase dt = some tick ∧
          IsGreatest {t | t ∈ intervalTicks every.val phase.val ∧ t ≤ dt.clock.val}
            tick.clock.val ∧
          previousTick every phase tick = some tick) ∧
    ∀ e p : ℤ, 0 < e → every.val = e * second → phase.val = p * second →
      (ticksOverflow e p = false → ∀ dt : Datetime, Datetime.epoch.clock.val ≤ dt.clock.val →
        (previousTick every phase dt).isSome) ∧
      (ticksOverflow e p = true → 0 < p → previousTick every phase Datetime.epoch = none) := by
  constructor
  · intro hsecond hlong hlt dt hdt
    have hpos : 0 < every.val := by
      unfold second at hsecond
      omega
    have hlow := minClock_le_stepBack hsecond hlong hlt hdt
    obtain ⟨tick, htick⟩ := Option.isSome_iff_exists.mp
      ((isSome_previousTick hpos hphase dt).mpr hlow)
    obtain ⟨t, ht, hgreatest⟩ : ∃ t,
        (IntervalTrigger every.val phase.val).previous dt.wall = some t ∧
          IsGreatest {x | x ∈ intervalTicks every.val phase.val ∧ x ≤ dt.wall.clock} t.clock :=
      intervalTrigger_isGreatest hpos dt.wall
    have hwall := wall_previousTick hpos hphase hlow
    rw [htick, Option.map_some, ht] at hwall
    obtain rfl := Option.some.inj hwall
    exact ⟨tick, htick, hgreatest, previousTick_idem hpos hphase htick⟩
  · intro e p hpos he hp
    have hsecond : (0 : ℤ) < second := by decide
    have hevery : 0 < every.val := by
      rw [he]
      exact Int.mul_pos hpos hsecond
    constructor
    · intro h dt hdt
      have hlow := ((ticksOverflow_eq_false he hp hpos).mp h).2
      have hmono : stepBack every phase Datetime.epoch ≤ stepBack every phase dt :=
        stepBack_mono hevery hdt
      exact (isSome_previousTick hevery hphase dt).mpr (by omega)
    · intro h hpositive
      have hlow := stepBack_lt_minClock he hp hpos hpositive h
      rw [← Option.not_isSome_iff_eq_none, isSome_previousTick hevery hphase]
      omega

/-- A duration of whole seconds. -/
def Timedelta.ofSeconds (n : ℤ) (h : 0 ≤ n ∧ n ≤ timedeltaDays * 86400) : Timedelta :=
  ⟨n * second, by unfold timedeltaDays second at *; omega,
    by unfold timedeltaDays second at *; omega⟩

/-- At the epoch a minute's tick at ten seconds past is fifty seconds back; a second's, one longer
than the time from year 1 past, is out of reach. -/
theorem previousTick_exact_epoch :
    (∃ tick, previousTick (.ofSeconds 60 (by decide)) (.ofSeconds 10 (by decide)) Datetime.epoch =
        some tick ∧
      IsGreatest {t | t ∈ intervalTicks (60 * second) (10 * second) ∧ t ≤ 0} tick.clock.val ∧
      previousTick (.ofSeconds 60 (by decide)) (.ofSeconds 10 (by decide)) tick = some tick) ∧
    (previousTick (.ofSeconds 60 (by decide)) (.ofSeconds 10 (by decide)) Datetime.epoch).isSome ∧
    previousTick (.ofSeconds 1 (by decide)) (.ofSeconds 62135596801 (by decide)) Datetime.epoch =
      none := by
  have hminute := previousTick_exact (.ofSeconds 60 (by decide)) (.ofSeconds 10 (by decide))
    (by decide)
  have hfar := previousTick_exact (.ofSeconds 1 (by decide)) (.ofSeconds 62135596801 (by decide))
    (by decide)
  exact ⟨hminute.1 (by decide) (by decide) (by decide) Datetime.epoch (by decide),
    (hminute.2 60 10 (by decide) (by decide) (by decide)).1 (by decide) Datetime.epoch (by decide),
    (hfar.2 1 62135596801 (by decide) (by decide) (by decide)).2 (by decide) (by decide)⟩

end DjangoOx
