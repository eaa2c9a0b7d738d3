import DjangoOx.Beat.Zones
import DjangoOx.Machine.Stretches

/-! Which days of a window the last load before a run can have left its crontab out on: each day's
own answer, and the table that works one out for each stretch between the zones' changes. -/
namespace DjangoOx

open Calendar Offsets

/-- `_LOAD_GAP` -/
def loadGap : ℤ := 305 * second

/-- `_MARGIN` -/
def changeMargin : ℤ := 2 * day

/-- The wall clock time a run is due at, on a date. -/
def dueLabel (date : ℤ) (hour minute : ℕ) : ℤ :=
  midnight date + (hour * 3600 + minute * 60 : ℕ) * second

/-- `_run`: a date, an hour and a minute of a zone, as an instant. -/
def runInstant (date : ℤ) (hour minute : ℕ) (zone : TimeZone) : Option ℤ :=
  let due := dueLabel date hour minute
  clockChecked (due - zone.readOffset due false)

/-- The hour a zone's clock shows so long before an instant. -/
def shownHour (zone : TimeZone) (u back : ℤ) : Option ℤ :=
  (clockChecked (u - back)).bind fun v => (clockChecked (zone.label v)).map fun l => l % day / anHour

/-- `_admitted` -/
def admitted (mark hour : ℤ) : Bool :=
  mark == 4 || [-2, -1, 0, 1, 2].any fun step => (hour + step) % 24 == mark

/-- `_late_on` -/
def lateOn (date : ℤ) (hour minute : ℕ) (mark : ℤ) (zone localZone : TimeZone) : Bool :=
  let shown := (runInstant date hour minute zone).bind fun run =>
    (shownHour localZone run loadGap).bind fun low =>
      (shownHour localZone run 1).map fun high => [low, high]
  match shown with
  | some shown => !shown.all (admitted mark)
  | none => false

/-- `for index in range(low, high): near[index] = 1` -/
def markRange (near : List Bool) (low high : ℤ) : List Bool :=
  near.mapIdx fun index b => b || (decide (low ≤ index) && decide (index < high))

/-- The days about each change of a zone are marked. -/
def markChanges (zone : TimeZone) (first size start stop : ℤ) (near : List Bool) :
    Option (List Bool) :=
  (changes zone start stop).map fun found => found.foldl (fun near change =>
    let centre := ordinalAt change.instant - first
    markRange near (max (centre - 2) 0) (min (centre + 3) size)) near

/-- The days each worked out: near a change, or all of the first or last a datetime holds. -/
def nearDays (zone localZone : TimeZone) (first last : ℤ) : Option (List Bool) :=
  let size := last - first + 1
  match clockChecked (midnight first - changeMargin), clockChecked (midnight last + changeMargin) with
  | some start, some stop =>
    (markChanges zone first size start stop (List.replicate size.toNat false)).bind
      (markChanges localZone first size start stop)
  | _, _ => some (List.replicate size.toNat true)

/-- `_late_days`; `none` is an OverflowError. -/
def lateDays (zone localZone : TimeZone) (mark : ℤ) (hour minute : ℕ) (first last : ℤ) :
    Option (List Bool) :=
  (nearDays zone localZone first last).map fun near =>
    Stretches.fill near fun index => lateOn (first + index) hour minute mark zone localZone

/-- No change of a zone is within two days of a date. -/
def Clear (z : TimeZone) (date : ℤ) : Prop :=
  ∀ m ∈ z.moves, m.instant ≤ midnight (date - 2) ∨ midnight (date + 2) < m.instant

variable {z zone localZone : TimeZone} {near : List Bool} {date first last size start stop mark u l : ℤ}
  {hour minute i : ℕ} {c : Change} {found : List Change}

theorem ordinalAt_midnight (n : ℤ) : ordinalAt (midnight n) = n := by
  unfold ordinalAt midnight day
  omega

/-- A date is that of the times from its midnight to the next. -/
theorem ordinalAt_spec (t : ℤ) : midnight (ordinalAt t) ≤ t ∧ t < midnight (ordinalAt t) + day := by
  unfold ordinalAt midnight day
  omega

theorem getD_markRange {low high : ℤ} (hi : i < near.length) :
    (markRange near low high).getD i false = true ↔
      near.getD i false = true ∨ low ≤ i ∧ (i : ℤ) < high := by
  unfold markRange
  rw [List.getD_eq_getElem _ _ (by simpa using hi), List.getElem_mapIdx,
    List.getD_eq_getElem _ _ hi]
  simp

/-- A day is marked where a change is within two days of it. -/
theorem markChanges_spec {marked : List Bool} (hsize : (near.length : ℤ) = size)
    (h : markChanges z first size start stop near = some marked) :
    marked.length = near.length ∧ ∃ found, changes z start stop = some found ∧
      ∀ i < near.length, marked.getD i false = true ↔ near.getD i false = true ∨
        ∃ c ∈ found, ordinalAt c.instant - 2 ≤ first + i ∧ first + i ≤ ordinalAt c.instant + 2 := by
  unfold markChanges at h
  obtain ⟨found, hfound, rfl⟩ := Option.map_eq_some_iff.mp h
  suffices hall : ∀ (found : List Change) (near : List Bool), (near.length : ℤ) = size →
      let marked := found.foldl (fun near change =>
        let centre := ordinalAt change.instant - first
        markRange near (max (centre - 2) 0) (min (centre + 3) size)) near
      marked.length = near.length ∧ ∀ i < near.length, marked.getD i false = true ↔
        near.getD i false = true ∨
        ∃ c ∈ found, ordinalAt c.instant - 2 ≤ first + i ∧ first + i ≤ ordinalAt c.instant + 2 by
    obtain ⟨hlen, hget⟩ := hall found near hsize
    exact ⟨hlen, found, hfound, hget⟩
  intro found
  induction found with
  | nil => simp
  | cons c found ih =>
    intro near hsize
    rw [List.foldl_cons]
    have hlen : (markRange near (max (ordinalAt c.instant - first - 2) 0)
        (min (ordinalAt c.instant - first + 3) size)).length = near.length := by
      unfold markRange
      exact List.length_mapIdx
    obtain ⟨hlen', hget⟩ := ih _ (by rw [hlen]; exact hsize)
    refine ⟨hlen'.trans hlen, fun i hi => ?_⟩
    rw [hget i (by rw [hlen]; exact hi), getD_markRange hi, List.exists_mem_cons_iff, or_assoc]
    apply or_congr Iff.rfl
    apply or_congr _ Iff.rfl
    omega

/-- A day that no change of a window is near is clear of every change of the zone. -/
theorem clear_of_changes (hz : Reported z)
    (hfound : changes z (midnight first - changeMargin) (midnight last + changeMargin) = some found)
    (hfirst : first ≤ date) (hlast : date ≤ last)
    (h : ∀ c ∈ found, ¬ (ordinalAt c.instant - 2 ≤ date ∧ date ≤ ordinalAt c.instant + 2)) :
    Clear z date := by
  intro m hm
  have hdate := ordinalAt_spec m.instant
  by_cases hstart : midnight first - changeMargin < m.instant
  · by_cases hstop : m.instant ≤ midnight last + changeMargin
    · have hnear := h m (mem_changes hz hfound hm hstart hstop)
      unfold midnight day at *
      omega
    · unfold changeMargin midnight day at *
      omega
  · unfold changeMargin midnight day at *
    omega

theorem Clear.before_iff (h : Clear z date) (hlow : midnight (date - 2) ≤ u)
    (hhigh : u ≤ midnight (date + 2)) : ∀ m ∈ z.moves, m.instant ≤ u ↔ m.instant ≤ midnight date := by
  intro m hm
  have hm := h m hm
  unfold midnight day at *
  omega

/-- A zone keeps its offset for two days about a clear day. -/
theorem Clear.offsetAt (h : Clear z date) (hlow : midnight (date - 2) ≤ u)
    (hhigh : u ≤ midnight (date + 2)) : z.offsetAt u = z.offsetAt (midnight date) := by
  rw [offsetAt_eq, offsetAt_eq]
  exact offsetBy_congr (h.before_iff hlow hhigh)

/-- The times of a clear day are read with the offset it begins with. -/
theorem Clear.readOffset (h : Clear z date) (hlow : midnight date ≤ l) (hhigh : l < midnight (date + 1))
    (second : Bool) : z.readOffset l second = z.offsetAt (midnight date) := by
  rw [offsetAt_eq]
  refine offsetBy_congr fun m hm => ?_
  obtain ⟨hbefore, hafter⟩ := z.moves_bounds hm
  have hm := h m hm
  unfold Change.turn
  unfold midnight day at *
  cases second
  · simp only [Bool.false_eq_true, if_false]
    omega
  · simp only [if_true]
    omega

/-- The hour a server's clock shows so long before the run of a clear day. -/
def clearHour (zone localZone : TimeZone) (date : ℤ) (hour minute : ℕ) (back : ℤ) : ℤ :=
  (dueLabel date hour minute - zone.offsetAt (midnight date) - back +
    localZone.offsetAt (midnight date)) % day / anHour

theorem dueLabel_bounds (date : ℤ) (hhour : hour < 24) (hminute : minute < 60) :
    midnight date ≤ dueLabel date hour minute ∧ dueLabel date hour minute < midnight (date + 1) := by
  unfold dueLabel midnight day second
  omega

/-- A clear day's answer, where every instant on the way has its labels. -/
theorem lateOn_of_clear (hhour : hour < 24) (hminute : minute < 60) (hzone : Clear zone date)
    (hlocal : Clear localZone date) (hlow : 3 ≤ date) (hhigh : date + 2 ≤ toOrdinal 9999 12 31)
    (hlabel : ∀ u, midnight (date - 1) - loadGap ≤ u → minClock ≤ localZone.label u) :
    lateOn date hour minute mark zone localZone =
      !([clearHour zone localZone date hour minute loadGap,
        clearHour zone localZone date hour minute 1].all (admitted mark)) := by
  obtain ⟨hdue, hnext⟩ := dueLabel_bounds date hhour hminute
  have hmin := minClock_eq
  have hmax := maxClock_eq
  have hend : toOrdinal 9999 12 31 = 3652059 := by decide
  have hepoch : toOrdinal 1970 1 1 = 719163 := by decide
  have hbounds := zone.label_bounds (midnight date)
  unfold label at hbounds
  have hrun : runInstant date hour minute zone =
      some (dueLabel date hour minute - zone.offsetAt (midnight date)) := by
    unfold runInstant
    dsimp only
    rw [hzone.readOffset hdue hnext]
    apply clockChecked_of <;> unfold midnight day at * <;> omega
  have hshown : ∀ back, 0 < back → back ≤ loadGap →
      shownHour localZone (dueLabel date hour minute - zone.offsetAt (midnight date)) back =
        some (clearHour zone localZone date hour minute back) := by
    intro back hpos hback
    set run := dueLabel date hour minute - zone.offsetAt (midnight date) with hset
    have hearly : midnight (date - 1) - loadGap ≤ run - back := by
      unfold midnight day at *
      omega
    have hlate : run - back ≤ midnight (date + 2) := by
      unfold midnight day at *
      omega
    have hsame := hlocal.offsetAt (by unfold loadGap second midnight day at *; omega) hlate
    have hshows : localZone.label (run - back) =
        run - back + localZone.offsetAt (midnight date) := by
      unfold label
      rw [hsame]
    have hlocalMin := hlabel (run - back) hearly
    have hlocalMax := (localZone.label_bounds (run - back)).2
    unfold shownHour
    rw [clockChecked_of _ _, Option.bind_some, clockChecked_of hlocalMin _, hshows]
    · rfl
    · unfold midnight day at *
      omega
    · unfold loadGap second midnight day at *
      omega
    · unfold midnight day at *
      omega
  unfold lateOn
  dsimp only
  rw [hrun, Option.bind_some, hshown loadGap (by decide) le_rfl, Option.bind_some,
    hshown 1 (by decide) (by decide), Option.map_some]

/-- The hours of a clear day's run are those of the day before, if that is clear too. -/
theorem clearHour_succ (hzone : Clear zone date) (hlocal : Clear localZone date) (back : ℤ) :
    clearHour zone localZone (date + 1) hour minute back =
      clearHour zone localZone date hour minute back := by
  have hnext : midnight (date - 2) ≤ midnight (date + 1) ∧
      midnight (date + 1) ≤ midnight (date + 2) := by
    unfold midnight day
    omega
  have hdue : dueLabel (date + 1) hour minute = dueLabel date hour minute + day := by
    unfold dueLabel midnight day
    omega
  unfold clearHour
  rw [hzone.offsetAt hnext.1 hnext.2, hlocal.offsetAt hnext.1 hnext.2, hdue]
  congr 1
  unfold day
  omega

/-- A window that begins on these days looks at the first year a datetime holds. -/
theorem yearAt_first (hfirst : 3 ≤ first) :
    1 ≤ yearAt (midnight first - changeMargin) ∧
      (yearAt (midnight first - changeMargin) = 1 ↔ first ≤ 367) := by
  have hstart : midnight first - changeMargin = midnight (first - 2) := by
    unfold changeMargin midnight day
    omega
  have hone : daysBeforeYear 1 = 0 := by decide
  have htwo : daysBeforeYear (1 + 1) = 365 := by decide
  unfold yearAt
  rw [hstart, ordinalAt_midnight]
  have hyear := yearOf_spec (first - 2)
  have hpos : 1 ≤ yearOf (first - 2) := by
    by_contra hlt
    have := daysBeforeYear_mono (show yearOf (first - 2) + 1 ≤ 1 by omega)
    omega
  refine ⟨hpos, fun heq => ?_, fun hle => yearOf_eq (by omega) (by omega)⟩
  rw [heq, htwo] at hyear
  omega

theorem newYear_one : newYear 1 = minClock := by decide

theorem newYear_last : newYear 9999 = 253370764800000000 := by decide

/-- A window's changes are found, unless it looks at the first year of a zone that is behind UTC
when it begins. -/
theorem isSome_changes_first (hz : Reported z) (hfirst : 3 ≤ first) (hlast : first ≤ last) :
    (changes z (midnight first - changeMargin) (midnight last + changeMargin)).isSome ↔
      (first ≤ 367 → 0 ≤ z.offsetAt minClock) := by
  obtain ⟨hpos, hone⟩ := yearAt_first hfirst
  have hmin := minClock_eq
  have hmax := maxClock_eq
  rw [isSome_changes]
  constructor
  · intro h hle
    have hyear := hone.mpr hle
    have hstop : 1 ≤ yearAt (midnight last + changeMargin) := by
      by_contra hlt
      have hspec := yearAt_spec (midnight last + changeMargin)
      have hmono := newYear_mono (show yearAt (midnight last + changeMargin) + 1 ≤ 1 by omega)
      have hone := newYear_one
      have hepoch : toOrdinal 1970 1 1 = 719163 := by decide
      unfold changeMargin midnight day at *
      omega
    have hsome := h 1 (by omega) (by omega)
    by_contra hneg
    have hnone : offset z (newYear 1) = none := by
      rw [newYear_one, ← Option.not_isSome_iff_eq_none, isSome_offset]
      unfold label
      omega
    rw [offsetChanges_eq_none hnone] at hsome
    simp at hsome
  · intro h y hlow hhigh
    refine isSome_offsetChanges (by omega) (by omega) fun u hu hu' => isSome_offset.mpr ?_
    have hbounds := z.label_bounds u
    have hlate := newYear_mono (show y + 1 ≤ 9999 by omega)
    have hend := newYear_last
    refine ⟨?_, by unfold day at *; omega⟩
    by_cases hfirstYear : y = 1
    · subst hfirstYear
      rw [newYear_one] at hu
      exact minClock_le_label hz (h (hone.mp (by omega))) hu
    · have htwo := newYear_mono (show 2 ≤ y by omega)
      have htwo' : newYear 2 = minClock + 365 * day := by decide
      unfold day at *
      omega

/-- The labels looked at on the days of a window whose changes are found. -/
theorem minClock_le_label_first (hz : Reported z) (hfirst : 3 ≤ first)
    (h : first ≤ 367 → 0 ≤ z.offsetAt minClock) (hdate : first ≤ date)
    (hu : midnight (date - 1) - loadGap ≤ u) : minClock ≤ z.label u := by
  have hmin := minClock_eq
  have hepoch : toOrdinal 1970 1 1 = 719163 := by decide
  by_cases hle : first ≤ 367
  · apply minClock_le_label hz (h hle)
    unfold loadGap second midnight day at *
    omega
  · have hbounds := z.label_bounds u
    unfold loadGap second midnight day at *
    omega

/-- A window a margin inside the range of datetimes has its changes looked at. -/
theorem nearDays_inside (hfirst : 3 ≤ first) (hlast : first ≤ last)
    (hmax : last + 2 ≤ toOrdinal 9999 12 31) : nearDays zone localZone first last =
      (markChanges zone first (last - first + 1) (midnight first - changeMargin)
        (midnight last + changeMargin) (List.replicate (last - first + 1).toNat false)).bind
      (markChanges localZone first (last - first + 1) (midnight first - changeMargin)
        (midnight last + changeMargin)) := by
  have hmin := minClock_eq
  have hend := maxClock_eq
  have hordinal : toOrdinal 9999 12 31 = 3652059 := by decide
  have hepoch : toOrdinal 1970 1 1 = 719163 := by decide
  unfold nearDays
  dsimp only
  rw [clockChecked_of, clockChecked_of] <;> unfold changeMargin midnight day <;> omega

/-- Of any other, every day is worked out on its own. -/
theorem nearDays_outside (h : ¬ (3 ≤ first ∧ last + 2 ≤ toOrdinal 9999 12 31)) :
    nearDays zone localZone first last = some (List.replicate (last - first + 1).toNat true) := by
  have hmin := minClock_eq
  have hend := maxClock_eq
  have hordinal : toOrdinal 9999 12 31 = 3652059 := by decide
  have hepoch : toOrdinal 1970 1 1 = 719163 := by decide
  unfold nearDays
  dsimp only
  by_cases hfirst : 3 ≤ first
  · have hstop : clockChecked (midnight last + changeMargin) = none := by
      apply if_neg
      unfold changeMargin midnight day
      omega
    rw [hstop]
    cases clockChecked (midnight first - changeMargin) <;> rfl
  · have hstart : clockChecked (midnight first - changeMargin) = none := by
      apply if_neg
      unfold changeMargin midnight day
      omega
    rw [hstart]

/-- Every day that is not marked is clear in both zones. -/
theorem nearDays_clear (hzone : Reported zone) (hlocal : Reported localZone) (hfirst : 3 ≤ first)
    (hlast : first ≤ last) (hmax : last + 2 ≤ toOrdinal 9999 12 31)
    (h : nearDays zone localZone first last = some near) :
    (near.length : ℤ) = last - first + 1 ∧ ∀ i < near.length, near.getD i false = false →
      Clear zone (first + i) ∧ Clear localZone (first + i) := by
  rw [nearDays_inside hfirst hlast hmax] at h
  obtain ⟨marked, hmarked, h⟩ := Option.bind_eq_some_iff.mp h
  have hsize : ((List.replicate (last - first + 1).toNat false).length : ℤ) = last - first + 1 := by
    rw [List.length_replicate]
    omega
  obtain ⟨hlen, found, hfound, hnear⟩ := markChanges_spec hsize hmarked
  rw [← hlen] at hsize hnear
  obtain ⟨hlen', found', hfound', hnear'⟩ := markChanges_spec hsize h
  refine ⟨by rw [hlen']; exact hsize, fun i hi hfalse => ?_⟩
  have hunmarked := (not_congr (hnear' i (hlen' ▸ hi))).mp (by rw [hfalse]; simp)
  rw [hnear i (hlen' ▸ hi)] at hunmarked
  push Not at hunmarked
  constructor
  · refine clear_of_changes hzone hfound (by omega) (by omega) fun c hc hwithin => ?_
    have := hunmarked.1.2 c hc hwithin.1
    omega
  · refine clear_of_changes hlocal hfound' (by omega) (by omega) fun c hc hwithin => ?_
    have := hunmarked.2 c hc hwithin.1
    omega

/-- A table of the window's length whose neighbours near nothing agree is filled with every day's
own answer. -/
theorem lateDays_of_near (hnear : nearDays zone localZone first last = some near)
    (hlen : (near.length : ℤ) = last - first + 1)
    (hsame : ∀ i : ℕ, i + 1 < near.length → near.getD i false = false →
      near.getD (i + 1) false = false →
        lateOn (first + (i + 1 : ℕ)) hour minute mark zone localZone =
          lateOn (first + i) hour minute mark zone localZone) :
    ∃ late, lateDays zone localZone mark hour minute first last = some late ∧
      (late.length : ℤ) = last - first + 1 ∧ ∀ i : ℕ, first + i ≤ last →
        late[i]? = some (lateOn (first + i) hour minute mark zone localZone) := by
  unfold lateDays
  rw [hnear, Option.map_some, Stretches.fill_eq hsame]
  refine ⟨_, rfl, by simpa using hlen, fun i hi => ?_⟩
  rw [List.getElem?_map, List.getElem?_range (by omega), Option.map_some]

/-- The table has every day's own answer, unless the window looks at the first year a datetime holds
and one of the zones is behind UTC when that begins. -/
theorem lateDays_iff (hzone : Reported zone) (hlocal : Reported localZone) (hhour : hour < 24)
    (hminute : minute < 60) (hlast : first ≤ last) :
    (∃ late, lateDays zone localZone mark hour minute first last = some late ∧
      (late.length : ℤ) = last - first + 1 ∧ ∀ i : ℕ, first + i ≤ last →
        late[i]? = some (lateOn (first + i) hour minute mark zone localZone)) ↔
      (3 ≤ first → first ≤ 367 → last + 2 ≤ toOrdinal 9999 12 31 →
        0 ≤ zone.offsetAt minClock ∧ 0 ≤ localZone.offsetAt minClock) := by
  by_cases hinside : 3 ≤ first ∧ last + 2 ≤ toOrdinal 9999 12 31
  · obtain ⟨hlow, hhigh⟩ := hinside
    have hsome := isSome_changes_first hzone hlow hlast
    have hsome' := isSome_changes_first hlocal hlow hlast
    constructor
    · rintro ⟨late, hlate, -⟩ - hyear -
      unfold lateDays at hlate
      obtain ⟨near, hnear, -⟩ := Option.map_eq_some_iff.mp hlate
      rw [nearDays_inside hlow hlast hhigh] at hnear
      obtain ⟨marked, hmarked, hnear⟩ := Option.bind_eq_some_iff.mp hnear
      obtain ⟨found, hfound, -⟩ := Option.map_eq_some_iff.mp hmarked
      obtain ⟨found', hfound', -⟩ := Option.map_eq_some_iff.mp hnear
      exact ⟨hsome.mp (Option.isSome_of_eq_some hfound) hyear,
        hsome'.mp (Option.isSome_of_eq_some hfound') hyear⟩
    · intro h
      have hz : first ≤ 367 → 0 ≤ zone.offsetAt minClock := fun hyear => (h hlow hyear hhigh).1
      have hl : first ≤ 367 → 0 ≤ localZone.offsetAt minClock :=
        fun hyear => (h hlow hyear hhigh).2
      obtain ⟨found, hfound⟩ := Option.isSome_iff_exists.mp (hsome.mpr hz)
      obtain ⟨found', hfound'⟩ := Option.isSome_iff_exists.mp (hsome'.mpr hl)
      obtain ⟨near, hnear⟩ : ∃ near, nearDays zone localZone first last = some near := by
        rw [nearDays_inside hlow hlast hhigh]
        unfold markChanges
        rw [hfound, hfound']
        exact ⟨_, rfl⟩
      obtain ⟨hlen, hclear⟩ := nearDays_clear hzone hlocal hlow hlast hhigh hnear
      refine lateDays_of_near hnear hlen fun i hi hfalse hfalse' => ?_
      obtain ⟨hcz, hcl⟩ := hclear i (by omega) hfalse
      obtain ⟨hcz', hcl'⟩ := hclear (i + 1) hi hfalse'
      rw [lateOn_of_clear hhour hminute hcz hcl (by omega) (by omega)
          fun u hu => minClock_le_label_first hlocal hlow hl (by omega) hu,
        lateOn_of_clear hhour hminute hcz' hcl' (by omega) (by omega)
          fun u hu => minClock_le_label_first hlocal hlow hl (by omega) hu]
      push_cast
      rw [← add_assoc, clearHour_succ hcz hcl, clearHour_succ hcz hcl]
  · constructor
    · intro _ hlow _ hhigh
      exact absurd ⟨hlow, hhigh⟩ hinside
    · intro _
      refine lateDays_of_near (nearDays_outside hinside) ?_ fun i hi hfalse _ => ?_
      · rw [List.length_replicate]
        omega
      · rw [List.length_replicate] at hi
        rw [List.getD_eq_getElem _ _ (by rw [List.length_replicate]; omega),
          List.getElem_replicate] at hfalse
        cases hfalse

/-- A zone without changes has none to miss. -/
theorem reported_of_constant (h : z.changes = []) : Reported z := by
  intro m hm
  unfold moves at hm
  rw [h, List.zip_nil_right] at hm
  cases hm

/-- Five hours behind UTC, always. -/
def behindUtc : TimeZone where
  initial := -5 * anHour
  changes := []
  sorted := List.Pairwise.nil
  bounded := by decide

def utc : TimeZone where
  initial := 0
  changes := []
  sorted := List.Pairwise.nil
  bounded := by decide

theorem lateDays_iff_second_year :
    ∃ late, lateDays behindUtc utc 9 9 0 368 400 = some late ∧ (late.length : ℤ) = 400 - 368 + 1 ∧
      ∀ i : ℕ, 368 + (i : ℤ) ≤ 400 → late[i]? = some (lateOn (368 + i) 9 0 9 behindUtc utc) :=
  (lateDays_iff (reported_of_constant rfl) (reported_of_constant rfl) (by decide) (by decide)
    (by decide)).mpr fun _ hyear => absurd hyear (by decide)

/-- The first year has no offset to begin with where the clock is behind UTC. -/
theorem lateDays_first_year : ¬ ∀ (zone localZone : TimeZone) (mark : ℤ) (hour minute : ℕ)
    (first last : ℤ), Reported zone → Reported localZone → hour < 24 → minute < 60 → 1 ≤ first →
    first ≤ last → last ≤ toOrdinal 9999 12 31 →
      ∃ late, lateDays zone localZone mark hour minute first last = some late ∧
        (late.length : ℤ) = last - first + 1 ∧ ∀ i : ℕ, first + i ≤ last →
          late[i]? = some (lateOn (first + i) hour minute mark zone localZone) := by
  intro h
  obtain ⟨late, hlate, -⟩ := h behindUtc utc 9 9 0 3 400 (reported_of_constant rfl)
    (reported_of_constant rfl) (by decide) (by decide) (by decide) (by decide) (by decide)
  have hnone : lateDays behindUtc utc 9 9 0 3 400 = none := by decide +kernel
  rw [hnone] at hlate
  cases hlate

end DjangoOx
