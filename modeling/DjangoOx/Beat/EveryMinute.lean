import DjangoOx.Beat.Partings
import DjangoOx.Schedule.Passes

/-! A dispatcher that runs a pass at every whole minute, for a schedule that starts when it is
stored. -/
namespace DjangoOx

open Calendar Offsets

/-- The zone a project runs in, as `zoneinfo` reads it. -/
def TimeZone.zone (z : TimeZone) : Zone where
  localtime now := ⟨z.label now, z.foldAt now⟩
  makeAware t := t.clock - z.readOffset t.clock t.fold

/-- The schedule of an expression, stored at an instant. -/
def storedAt (e : CronExpression) (now : ℤ) : Schedule where
  trigger := e.trigger
  startTime := some now
  endTime := none
  startingDeadline := none
  anchors := false

/-- What a pass dispatches of a schedule whose newest recorded tick is `last`: the tick that is due,
unless it is out of bounds or not after that. -/
def dispatchAt (s : Schedule) (z : Zone) (now : ℤ) (last : Option ℤ) : Option ℤ :=
  (s.due z now).filter fun scheduledFor =>
    s.InBounds scheduledFor ∧ ∀ recorded ∈ last, ¬ (scheduledFor ≤ recorded ∧ recorded ≤ now)

/-- The first whole minute not before an instant. -/
def firstPass (now : ℤ) : ℤ := -(-now / aMinute) * aMinute

/-- When each of the passes runs. -/
def passAt (start : ℤ) (n : ℕ) : ℤ := start + n * aMinute

/-- The newest recorded tick before each pass. -/
def newestBefore (s : Schedule) (z : Zone) (start : ℤ) : ℕ → Option ℤ
  | 0 => none
  | n + 1 =>
    let last := newestBefore s z start n
    (dispatchAt s z (passAt start n) last).or last

/-- What each pass dispatches. -/
def dispatchedAt (s : Schedule) (z : Zone) (start : ℤ) (n : ℕ) : Option ℤ :=
  dispatchAt s z (passAt start n) (newestBefore s z start n)

/-- The passes of the first so many that dispatch, each with its tick. -/
def dispatched (s : Schedule) (z : Zone) (start : ℤ) (n : ℕ) : List (ℤ × ℤ) :=
  (List.range n).filterMap fun k => (dispatchedAt s z start k).map fun tick => (passAt start k, tick)

variable {s : Schedule} {z : Zone} {e : CronExpression} {start stop now t tick low : ℤ} {n k : ℕ}

theorem firstPass_spec (now : ℤ) : aMinute ∣ firstPass now ∧ now ≤ firstPass now ∧
    ∀ t, aMinute ∣ t → now ≤ t → firstPass now ≤ t := by
  unfold firstPass
  refine ⟨Dvd.intro_left _ rfl, ?_, fun t ht hle => ?_⟩ <;> rw [aMinute_eq] at * <;> omega

theorem passAt_lt : passAt start k < passAt start n ↔ k < n := by
  unfold passAt
  rw [aMinute_eq]
  omega

/-- Every whole minute from an instant on has its pass. -/
theorem exists_passAt (ht : aMinute ∣ t) (hle : now ≤ t) : ∃ k, passAt (firstPass now) k = t := by
  obtain ⟨hfirst, -, hleast⟩ := firstPass_spec now
  have hafter := hleast t ht hle
  refine ⟨((t - firstPass now) / aMinute).toNat, ?_⟩
  unfold passAt
  rw [aMinute_eq] at *
  omega

theorem dvd_passAt (now : ℤ) (n : ℕ) : aMinute ∣ passAt (firstPass now) n :=
  Int.dvd_add (firstPass_spec now).1 (Dvd.intro_left _ rfl)

theorem le_passAt (now : ℤ) (n : ℕ) : now ≤ passAt (firstPass now) n := by
  have hnow := (firstPass_spec now).2.1
  unfold passAt
  rw [aMinute_eq]
  omega

theorem dispatchedAt_eq_some : dispatchedAt s z start n = some tick ↔
    s.due z (passAt start n) = some tick ∧ s.InBounds tick ∧
      ∀ last ∈ newestBefore s z start n, ¬ (tick ≤ last ∧ last ≤ passAt start n) := by
  unfold dispatchedAt dispatchAt
  rw [Option.filter_eq_some_iff, decide_eq_true_eq]

/-- The newest tick is not after the last pass. -/
theorem newestBefore_lt : ∀ last ∈ newestBefore s z start n, last < passAt start n := by
  induction n with
  | zero => simp [newestBefore]
  | succ n ih =>
    intro last hlast
    have hnext : passAt start n < passAt start (n + 1) := passAt_lt.mpr (Nat.lt_succ_self n)
    unfold newestBefore at hlast
    rw [Option.mem_def, Option.or_eq_some_iff] at hlast
    rcases hlast with hlast | ⟨-, hlast⟩
    · have hdue := (dispatchedAt_eq_some.mp hlast).1
      exact (Schedule.due_le hdue).trans_lt hnext
    · exact (ih last hlast).trans hnext

/-- Once dispatched, a tick has a newest one that is not before it. -/
theorem exists_newestBefore (hk : dispatchedAt s z start k = some tick) (hkn : k < n) :
    ∃ last, newestBefore s z start n = some last ∧ tick ≤ last := by
  induction n, hkn using Nat.le_induction with
  | base =>
    refine ⟨tick, ?_, le_rfl⟩
    unfold newestBefore
    change (dispatchedAt s z start k).or _ = _
    rw [hk]
    rfl
  | succ n hkn ih =>
    obtain ⟨last, hlast, hle⟩ := ih
    unfold newestBefore
    change ∃ newest, (dispatchedAt s z start n).or (newestBefore s z start n) = some newest ∧ _
    cases hn : dispatchedAt s z start n with
    | none => exact ⟨last, hlast, hle⟩
    | some next =>
      have hnot := (dispatchedAt_eq_some.mp hn).2.2 last hlast
      have hlt := newestBefore_lt last hlast
      refine ⟨next, rfl, ?_⟩
      omega

/-- Where every tick that is due is due at its own instant, a pass dispatches what is due at the
instant it runs at, from the schedule's start on. -/
theorem dispatched_iff
    (hdue : ∀ t tick, aMinute ∣ t → low ≤ t → t ≤ stop →
      (storedAt e now).due z t = some tick → low ≤ tick →
        aMinute ∣ tick ∧ (storedAt e now).due z tick = some tick)
    (hn : low ≤ passAt (firstPass now) n) (hstop : passAt (firstPass now) n ≤ stop) :
    dispatchedAt (storedAt e now) z (firstPass now) n = some tick ∧ low ≤ tick ↔
      tick = passAt (firstPass now) n ∧ (storedAt e now).due z tick = some tick := by
  have hinBounds : ∀ t, (storedAt e now).InBounds t ↔ now ≤ t := by
    intro t
    unfold Schedule.InBounds storedAt
    simp
  rw [dispatchedAt_eq_some, hinBounds]
  constructor
  · rintro ⟨⟨htick, hstart, hnew⟩, hge⟩
    obtain ⟨hdvd, hown⟩ := hdue _ tick (dvd_passAt now n) hn hstop htick hge
    have hle := Schedule.due_le htick
    refine ⟨le_antisymm hle (not_lt.mp fun hlt => ?_), hown⟩
    -- The pass at the tick's own instant has dispatched it.
    obtain ⟨k, hk⟩ := exists_passAt hdvd hstart
    have hkn : k < n := passAt_lt.mp (hk.trans_lt hlt)
    have hdispatched : dispatchedAt (storedAt e now) z (firstPass now) k = some tick := by
      rw [dispatchedAt_eq_some, hinBounds, hk]
      refine ⟨hown, hstart, fun last hlast => ?_⟩
      have := newestBefore_lt last hlast
      omega
    obtain ⟨last, hlast, hle'⟩ := exists_newestBefore hdispatched hkn
    exact hnew last hlast ⟨hle', (newestBefore_lt last hlast).le⟩
  · rintro ⟨rfl, hown⟩
    refine ⟨⟨hown, le_passAt now n, fun last hlast => ?_⟩, hn⟩
    have := newestBefore_lt last hlast
    omega

/-- The passes that dispatch come in order. -/
theorem pairwise_dispatched (s : Schedule) (z : Zone) (start : ℤ) (n : ℕ) :
    (dispatched s z start n).Pairwise fun p q => p.1 < q.1 := by
  unfold dispatched
  rw [List.pairwise_filterMap]
  refine List.pairwise_lt_range.imp fun {j k} hjk p hp q hq => ?_
  obtain ⟨-, -, rfl⟩ := Option.map_eq_some_iff.mp hp
  obtain ⟨-, -, rfl⟩ := Option.map_eq_some_iff.mp hq
  exact passAt_lt.mpr hjk

theorem mem_dispatched {p : ℤ × ℤ} : p ∈ dispatched s z start n ↔
    ∃ k < n, dispatchedAt s z start k = some p.2 ∧ p.1 = passAt start k := by
  unfold dispatched
  rw [List.mem_filterMap]
  constructor
  · rintro ⟨k, hk, hp⟩
    obtain ⟨tick, htick, rfl⟩ := Option.map_eq_some_iff.mp hp
    exact ⟨k, List.mem_range.mp hk, htick, rfl⟩
  · rintro ⟨k, hk, htick, heq⟩
    exact ⟨k, List.mem_range.mpr hk, by rw [htick, Option.map_some, ← heq]⟩

/-- Passes that dispatch at just some instants, in order, each the tick of its own instant. -/
theorem filter_dispatched {runs : List ℤ} {keep : ℤ × ℤ → Prop} [DecidablePred keep]
    (hruns : runs.Pairwise (· < ·))
    (h : ∀ p, p ∈ dispatched s z start n ∧ keep p ↔ p.1 = p.2 ∧ p.2 ∈ runs) :
    (dispatched s z start n).filter keep = runs.map fun run => (run, run) := by
  have hantisymm : Std.Antisymm fun p q : ℤ × ℤ => p.1 < q.1 :=
    ⟨fun p q hpq hqp => absurd hpq (lt_asymm hqp)⟩
  have hirrefl : Std.Irrefl fun p q : ℤ × ℤ => p.1 < q.1 := ⟨fun p => lt_irrefl p.1⟩
  have hpasses := (pairwise_dispatched s z start n).filter fun p => decide (keep p)
  have hpairs : (runs.map fun run => (run, run)).Pairwise fun p q => p.1 < q.1 := by
    rw [List.pairwise_map]
    exact hruns
  refine hpasses.eq_of_mem_iff hpairs fun p => ?_
  rw [List.mem_filter, decide_eq_true_eq, h, List.mem_map]
  constructor
  · rintro ⟨heq, hmem⟩
    exact ⟨p.2, hmem, Prod.ext heq.symm rfl⟩
  · rintro ⟨run, hmem, rfl⟩
    exact ⟨rfl, hmem⟩

end DjangoOx
