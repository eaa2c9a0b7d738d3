import DjangoOx.Beat.Zones
import DjangoOx.Cron.Exact
import DjangoOx.Cron.Spelling

/-! Where a crontab runs at other instants under the two engines: the run times that a change of
offset repeats, and those it skips. Times are in microseconds, as the clock reads them. -/
namespace DjangoOx

open Calendar Offsets

/-- `_MINUTE` -/
def aMinute : ℤ := 60 * second

/-- The minute of a wall clock time, and a minute's wall clock time. -/
def minuteOf (t : ℤ) : ℤ := t / aMinute + epochMinutes

def clockOf (minute : ℤ) : ℤ := (minute - epochMinutes) * aMinute

/-- The next tick is not looked for: its bound is no datetime, and the arithmetic overflows. Any
other failure of `following` is the ValueError of a search that finds nothing. -/
def SearchOverflows (tick : ℤ) : Prop :=
  checked (tick + 1) = none ∨ checked (tick + 1 + searchMinutes) = none

instance (tick : ℤ) : Decidable (SearchOverflows tick) := inferInstanceAs (Decidable (_ ∨ _))

/-- The loop of `_ticks`, from a tick on. A search that finds nothing ends the list. -/
def ticksFrom (e : CronExpression) (high : ℤ) : ℕ → ℤ → Option (List ℤ)
  | 0, _ => some []
  | fuel + 1, tick =>
    if clockOf tick < high then
      match e.followingMinute tick with
      | some next => (ticksFrom e high fuel next).map (clockOf tick :: ·)
      | none => if SearchOverflows tick then none else some [clockOf tick]
    else some []

/-- `_ticks`; `none` is an OverflowError. -/
def ticks (e : CronExpression) (low high : ℤ) : Option (List ℤ) :=
  (if clockOf (minuteOf low) < low then checked (minuteOf low + 1) else some (minuteOf low)).bind
    fun tick =>
      let fuel := (minuteOf high + 1 - tick).toNat
      if e.Matches tick then ticksFrom e high fuel tick
      else match e.followingMinute tick with
        | some next => ticksFrom e high fuel next
        | none => if SearchOverflows tick then none else some []

/-- `_wall` -/
def wallAt (instant shift : ℤ) : Option ℤ := clockChecked (instant + shift)

/-- `_instant` -/
def instantBy (wall shift : ℤ) : Option ℤ := clockChecked (wall - shift)

/-- The run times of a list whose instants are not before one. -/
def notBefore (now shift : ℤ) (ticks : List ℤ) : Option (List ℤ) :=
  (ticks.mapM fun tick => (instantBy tick shift).map fun run => (tick, run)).map fun runs =>
    (runs.filter (now ≤ ·.2)).map (·.1)

/-- The instants of a list's run times that are not before one. -/
def runsNotBefore (now shift : ℤ) (ticks : List ℤ) : Option (List ℤ) :=
  (ticks.mapM (instantBy · shift)).map fun runs => runs.filter (now ≤ ·)

/-- The run times that `_repeated` keeps. -/
def keptRepeated (e : CronExpression) (c : Change) (now : ℤ) (aware : Bool) : Option (List ℤ) := do
  let span := c.before - c.after
  let back ← wallAt c.instant c.after
  let twice ← ticks e back (← clockChecked (back + span))
  if aware then notBefore now c.after twice
  else if c.instant ≤ now ∧ now < c.instant + span then
    (wallAt now c.after).map fun wall => twice.filter (wall ≤ ·)
  else some []

/-- `_repeated`: the ordinal of the date of the first. -/
def repeated (e : CronExpression) (c : Change) (now : ℤ) (aware : Bool) : Option (Option ℤ) :=
  (keptRepeated e c now aware).map fun again => again.head?.map ordinalAt

/-- The runs of a stored schedule that does not know zones: the wall clock lands past every skipped
run time at once. -/
def landedRuns (c : Change) (now landed lastSkipped : ℤ) (reached : List ℤ) : Option (List ℤ) := do
  let landing := if reached.head? = some landed then landed else lastSkipped
  let landings := (landed, landing) ::
    (reached.filter (landed < ·)).map fun tick => (tick, tick)
  let start ← wallAt now (if c.instant ≤ now then c.after else c.before)
  (landings.filter (start ≤ ·.2)).mapM fun landing => instantBy landing.1 c.after

/-- The runs of the two engines that `_skipped` compares, beat's and then the stored schedule's;
none where no run time is skipped. -/
def skippedRuns (e : CronExpression) (c : Change) (now : ℤ) (aware : Bool) :
    Option (Option (List ℤ × List ℤ)) := do
  let span := c.after - c.before
  let left ← wallAt c.instant c.before
  let landed ← clockChecked (left + span)
  let skipped ← ticks e left landed
  match skipped.head?, skipped.getLast? with
  | some firstSkipped, some lastSkipped =>
    let first ← clockChecked (firstSkipped + span)
    let last ← clockChecked (lastSkipped + span)
    let reached ← ticks e landed (← clockChecked (last + aMinute))
    let storedRuns ←
      if aware then runsNotBefore now c.after (if reached = [] then [last] else reached)
      else landedRuns c now landed lastSkipped reached
    let beatRuns ← runsNotBefore now c.after (first :: reached.filter (first < ·))
    some (some (beatRuns, storedRuns))
  | _, _ => some none

/-- The earlier of the first two runs that differ. -/
def firstApart : List ℤ → List ℤ → Option ℤ
  | ours :: beatRuns, theirs :: storedRuns =>
    if ours = theirs then firstApart beatRuns storedRuns else some (min ours theirs)
  | ours :: _, [] => some ours
  | [], theirs :: _ => some theirs
  | [], [] => none

/-- `_skipped`: the ordinal of the wall clock date of the first run the engines part at. -/
def skipped (e : CronExpression) (c : Change) (now : ℤ) (aware : Bool) : Option (Option ℤ) := do
  match ← skippedRuns e c now aware with
  | some (beatRuns, storedRuns) =>
    match firstApart beatRuns storedRuns with
    | some run => (wallAt run c.after).map fun wall => some (ordinalAt wall)
    | none => some none
  | none => some none

variable {e : CronExpression} {low high t u tick now shift : ℤ} {fuel : ℕ} {xs ys : List ℤ}

/-- Lists that differ have a first run that does. -/
theorem firstApart_eq_none : firstApart xs ys = none ↔ xs = ys := by
  induction xs generalizing ys with
  | nil => cases ys <;> simp [firstApart]
  | cons x xs ih =>
    cases ys with
    | nil => simp [firstApart]
    | cons y ys =>
      unfold firstApart
      split_ifs with h
      · rw [ih, h, List.cons_inj_right]
      · simp [h]

theorem aMinute_eq : aMinute = 60000000 := by decide

theorem minuteOf_clockOf (m : ℤ) : minuteOf (clockOf m) = m := by
  unfold minuteOf clockOf
  rw [aMinute_eq]
  omega

/-- A whole minute is its minute's wall clock time. -/
theorem clockOf_minuteOf (h : aMinute ∣ t) : clockOf (minuteOf t) = t := by
  unfold minuteOf clockOf
  rw [aMinute_eq] at *
  omega

theorem clockOf_strictMono {m n : ℤ} : clockOf m < clockOf n ↔ m < n := by
  unfold clockOf
  rw [aMinute_eq]
  omega

theorem clockOf_le {m : ℤ} (h : aMinute ∣ t) : clockOf m ≤ t ↔ m ≤ minuteOf t := by
  unfold minuteOf clockOf
  rw [aMinute_eq] at *
  omega

theorem dvd_clockOf (m : ℤ) : aMinute ∣ clockOf m := Dvd.intro_left (m - epochMinutes) rfl

/-- The run times from one wall clock time up to another. -/
def IsTick (e : CronExpression) (low high t : ℤ) : Prop :=
  aMinute ∣ t ∧ e.Matches (minuteOf t) ∧ low ≤ t ∧ t < high

/-- The tick after a minute whose search has room is a minute that a datetime can say. -/
theorem exists_following (hv : e.Valid) (hlow : Sayable tick)
    (hhigh : Sayable (tick + 1 + searchMinutes)) : ∃ next, e.followingMinute tick = some next ∧
      Sayable next ∧ IsLeast {u | e.Matches u ∧ tick < u} next := by
  obtain ⟨next, hnext, hleast⟩ := CronExpression.followingMinute_exact hv hhigh hlow
  obtain ⟨g, hg, hroom⟩ := CronExpression.exists_isLeast hv tick
  obtain rfl := hleast.unique hg
  have hlt : tick < next := hleast.1.2
  refine ⟨next, hnext, ?_, hleast⟩
  unfold Sayable at *
  omega

/-- The loop lists the ticks from one of them on. -/
theorem ticksFrom_spec (hv : e.Valid) (hm : e.Matches tick)
    (hfuel : minuteOf high < tick + fuel) (hlow : Sayable tick)
    (hroom : ∀ m, tick ≤ m → clockOf m < high → Sayable (m + 1 + searchMinutes)) :
    ∃ found, ticksFrom e high fuel tick = some found ∧ found.Pairwise (· < ·) ∧
      ∀ t, t ∈ found ↔ IsTick e (clockOf tick) high t := by
  induction fuel generalizing tick with
  | zero =>
    refine ⟨[], rfl, List.Pairwise.nil, fun t => ?_⟩
    unfold IsTick minuteOf clockOf at *
    rw [aMinute_eq] at *
    simp only [List.not_mem_nil, false_iff]
    omega
  | succ fuel ih =>
    unfold ticksFrom
    by_cases hin : clockOf tick < high
    · rw [if_pos hin]
      obtain ⟨next, hnext, hsay, hg⟩ := exists_following hv hlow (hroom tick le_rfl hin)
      have hlt : tick < next := hg.1.2
      obtain ⟨found, hfound, hsorted, hmem⟩ := ih hg.1.1 (by omega) hsay
        fun m hm => hroom m (hlt.le.trans hm)
      rw [hnext]
      dsimp only
      rw [hfound]
      refine ⟨clockOf tick :: found, rfl, List.pairwise_cons.mpr ⟨fun t ht => ?_, hsorted⟩,
        fun t => ?_⟩
      · have ht := ((hmem t).mp ht).2.2.1
        exact (clockOf_strictMono.mpr hlt).trans_le ht
      · rw [List.mem_cons, hmem]
        constructor
        · rintro (rfl | ht)
          · exact ⟨dvd_clockOf _, by rw [minuteOf_clockOf]; exact hm, le_rfl, hin⟩
          · exact ⟨ht.1, ht.2.1, (clockOf_strictMono.mpr hlt).le.trans ht.2.2.1, ht.2.2.2⟩
        · rintro ⟨hdvd, hmatch, hge, hend⟩
          rcases hge.eq_or_lt with heq | hgt
          · exact .inl heq.symm
          · have hafter : tick < minuteOf t := by
              rw [← clockOf_strictMono, clockOf_minuteOf hdvd]
              exact hgt
            have hleast : next ≤ minuteOf t := hg.2 ⟨hmatch, hafter⟩
            refine .inr ⟨hdvd, hmatch, ?_, hend⟩
            rw [← clockOf_minuteOf hdvd]
            unfold clockOf
            rw [aMinute_eq]
            omega
    · rw [if_neg hin]
      refine ⟨[], rfl, List.Pairwise.nil, fun t => ?_⟩
      unfold IsTick
      simp only [List.not_mem_nil, false_iff]
      omega

/-- The minute that `_ticks` begins at. -/
theorem first_minute (hlow : Sayable (minuteOf low))
    (hroom : ∀ m, low ≤ clockOf m → clockOf m < low + aMinute → Sayable (m + 1 + searchMinutes)) :
    ∃ tick, (if clockOf (minuteOf low) < low then checked (minuteOf low + 1)
        else some (minuteOf low)) = some tick ∧ Sayable tick ∧
      Sayable (tick + 1 + searchMinutes) ∧ ∀ m, low ≤ clockOf m ↔ tick ≤ m := by
  have hpos : 0 < searchMinutes := by decide
  by_cases hlt : clockOf (minuteOf low) < low
  · have hsearch := hroom (minuteOf low + 1)
      (by unfold minuteOf clockOf; rw [aMinute_eq]; omega)
      (by unfold minuteOf clockOf at *; rw [aMinute_eq] at *; omega)
    have hsay : Sayable (minuteOf low + 1) := by
      unfold Sayable at *
      omega
    rw [if_pos hlt]
    refine ⟨minuteOf low + 1, if_pos hsay, hsay, hsearch, fun m => ?_⟩
    unfold minuteOf clockOf at *
    rw [aMinute_eq] at *
    omega
  · have hsearch := hroom (minuteOf low) (not_lt.mp hlt)
      (by unfold minuteOf clockOf at *; rw [aMinute_eq] at *; omega)
    rw [if_neg hlt]
    refine ⟨minuteOf low, rfl, hlow, hsearch, fun m => ?_⟩
    unfold minuteOf clockOf at *
    rw [aMinute_eq] at *
    omega

/-- `_ticks` lists the matching minutes from one wall clock time up to another, in order, where the
search from its first minute and from every other one has room. -/
theorem ticks_spec (hv : e.Valid) (hlow : Sayable (minuteOf low))
    (hroom : ∀ m, low ≤ clockOf m → clockOf m < high ∨ clockOf m < low + aMinute →
      Sayable (m + 1 + searchMinutes)) :
    ∃ found, ticks e low high = some found ∧ found.Pairwise (· < ·) ∧
      ∀ t, t ∈ found ↔ IsTick e low high t := by
  obtain ⟨tick, htick, hsay, hsearch, hfrom⟩ :=
    first_minute hlow fun m hle hlt => hroom m hle (.inr hlt)
  have hend : ∀ m, tick ≤ m → clockOf m < high → Sayable (m + 1 + searchMinutes) :=
    fun m hle hlt => hroom m ((hfrom m).mpr hle) (.inl hlt)
  have hiff : ∀ t, aMinute ∣ t → (low ≤ t ↔ tick ≤ minuteOf t) := by
    intro t ht
    rw [← hfrom, clockOf_minuteOf ht]
  unfold ticks
  rw [htick, Option.bind_some]
  dsimp only
  have hfuel : minuteOf high < tick + ((minuteOf high + 1 - tick).toNat : ℤ) := by omega
  by_cases hm : e.Matches tick
  · rw [if_pos hm]
    obtain ⟨found, hfound, hsorted, hmem⟩ :=
      ticksFrom_spec hv hm hfuel hsay hend
    refine ⟨found, hfound, hsorted, fun t => (hmem t).trans ?_⟩
    refine and_congr_right fun ht => and_congr_right fun _ => and_congr_left fun _ => ?_
    rw [hiff t ht, clockOf_le ht]
  · rw [if_neg hm]
    obtain ⟨next, hnext, hsay', hg⟩ := exists_following hv hsay hsearch
    have hlt : tick < next := hg.1.2
    have hfuel' : minuteOf high < next + ((minuteOf high + 1 - tick).toNat : ℤ) := by omega
    rw [hnext]
    dsimp only
    obtain ⟨found, hfound, hsorted, hmem⟩ :=
      ticksFrom_spec hv hg.1.1 hfuel' hsay' fun m hm => hend m (hlt.le.trans hm)
    refine ⟨found, hfound, hsorted, fun t => (hmem t).trans ?_⟩
    refine and_congr_right fun ht => and_congr_right fun hmatch => and_congr_left fun _ => ?_
    rw [hiff t ht, clockOf_le ht]
    constructor
    · exact fun h => hlt.le.trans h
    · intro h
      rcases h.eq_or_lt with rfl | h
      · exact absurd hmatch hm
      · exact hg.2 ⟨hmatch, h⟩

end DjangoOx
