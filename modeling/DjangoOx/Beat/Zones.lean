import DjangoOx.Machine.Readings
import DjangoOx.Schedule.Interval
import DjangoOx.Task.Actions

/-! Time zones as the importer reads them: an offset at an instant, and the changes of it that a walk
of each year finds. -/
namespace DjangoOx

open Calendar Offsets

/-- Offsets of less than a day. -/
structure TimeZone extends Offsets where
  bounded : ∀ x ∈ initial :: changes.map (·.2), -day < x ∧ x < day

/-- The result of arithmetic on datetimes; `none` is its OverflowError. -/
def clockChecked (t : ℤ) : Option ℤ := if minClock ≤ t ∧ t ≤ maxClock then some t else none

/-- The ordinal of a datetime's date. -/
def ordinalAt (t : ℤ) : ℤ := t / day + toOrdinal 1970 1 1

/-- The midnight that a date begins with. -/
def midnight (n : ℤ) : ℤ := (n - toOrdinal 1970 1 1) * day

def yearAt (t : ℤ) : ℤ := yearOf (ordinalAt t)

/-- `datetime(year, 1, 1)` -/
def newYear (year : ℤ) : ℤ := midnight (toOrdinal year 1 1)

/-- An hour, in microseconds. -/
def anHour : ℤ := 3600 * second

/-- `offset` -/
def offset (z : TimeZone) (u : ℤ) : Option ℤ :=
  (clockChecked (z.label u)).map fun l => z.readOffset l (z.foldAt u)

/-- The second of an hour in which the offset is no longer the one before, by bisection. -/
def narrow (z : TimeZone) (moment before : ℤ) : ℕ → ℤ → ℤ → Option ℤ
  | 0, _, late => some late
  | fuel + 1, early, late =>
    if 1 < late - early then
      let middle := (early + late) / 2
      (offset z (moment + middle * second)).bind fun found =>
        if found = before then narrow z moment before fuel middle late
        else narrow z moment before fuel early middle
    else some late

/-- The walk over so many hours. -/
def walk (z : TimeZone) : ℕ → ℤ → ℤ → Option (List Change)
  | 0, _, _ => some []
  | hours + 1, moment, before =>
    (offset z (moment + anHour)).bind fun after =>
      if after ≠ before then
        (narrow z moment before 3600 0 3600).bind fun late =>
          (walk z hours (moment + anHour) after).map fun found =>
            ⟨moment + late * second, before, after⟩ :: found
      else walk z hours (moment + anHour) after

/-- `offset_changes`. The year after the last is no datetime's. -/
def offsetChanges (z : TimeZone) (year : ℤ) : Option (List Change) :=
  if 1 ≤ year ∧ year < 9999 then
    (offset z (newYear year)).bind fun before =>
      walk z ((newYear (year + 1) - newYear year) / anHour).toNat (newYear year) before
  else none

/-- `changes` -/
def changes (z : TimeZone) (start stop : ℤ) : Option (List Change) :=
  let last := min (yearAt stop) 9998
  let years := (List.range (last + 1 - yearAt start).toNat).map fun i : ℕ => yearAt start + i
  (years.mapM (offsetChanges z)).map fun found =>
    found.flatten.filter fun change => start < change.instant ∧ change.instant ≤ stop

/-- `offset_changes` reports every change of the zone. -/
def Reported (z : TimeZone) : Prop :=
  ∀ m ∈ z.moves, ∃ year found, offsetChanges z year = some found ∧ m ∈ found

section

variable {α β : Type} {f : α → Option β} {l : List α} {r : List β}

theorem isSome_mapM : (l.mapM f).isSome ↔ ∀ x ∈ l, (f x).isSome := by
  induction l with
  | nil => simp
  | cons x l ih =>
    rw [List.mapM_cons, List.forall_mem_cons, ← ih]
    cases f x <;> cases l.mapM f <;> simp

theorem exists_mem_of_mapM {x : α} (h : l.mapM f = some r) (hx : x ∈ l) : ∃ y ∈ r, f x = some y := by
  induction l generalizing r with
  | nil => simp at hx
  | cons a l ih =>
    rw [List.mapM_cons] at h
    obtain ⟨b, hb, h⟩ := Option.bind_eq_some_iff.mp h
    obtain ⟨bs, hbs, h⟩ := Option.bind_eq_some_iff.mp h
    obtain rfl := Option.some.inj h
    rcases List.mem_cons.mp hx with rfl | hx
    · exact ⟨b, List.mem_cons_self, hb⟩
    · obtain ⟨y, hy, hfy⟩ := ih hbs hx
      exact ⟨y, List.mem_cons_of_mem _ hy, hfy⟩

end

variable {z : TimeZone} {t u moment before early late r year start stop : ℤ} {fuel hours : ℕ}
  {c : Change} {found : List Change}

theorem anHour_eq : anHour = 3600000000 := by decide

theorem clockChecked_of (hlow : minClock ≤ t) (hhigh : t ≤ maxClock) : clockChecked t = some t :=
  if_pos ⟨hlow, hhigh⟩

theorem TimeZone.offsetBy_bounds (z : TimeZone) (p : Change → Prop) [DecidablePred p] :
    -day < z.offsetBy p ∧ z.offsetBy p < day := z.bounded _ (z.offsetBy_mem p)

/-- The offsets either side of a change are less than a day. -/
theorem TimeZone.moves_bounds (z : TimeZone) (hc : c ∈ z.moves) :
    (-day < c.before ∧ c.before < day) ∧ -day < c.after ∧ c.after < day := by
  unfold moves at hc
  obtain ⟨⟨before, instant, after⟩, hmem, rfl⟩ := List.mem_map.mp hc
  obtain ⟨hbefore, hchange⟩ := List.of_mem_zip hmem
  exact ⟨z.bounded _ hbefore,
    z.bounded _ (List.mem_cons_of_mem _ (List.mem_map_of_mem hchange))⟩

/-- A label is less than a day from its instant. -/
theorem TimeZone.label_bounds (z : TimeZone) (u : ℤ) : u - day < z.label u ∧ z.label u < u + day := by
  have hbounds := z.offsetBy_bounds fun m => m.instant ≤ u
  rw [← offsetAt_eq] at hbounds
  unfold label
  omega

theorem isSome_offset : (offset z u).isSome ↔ minClock ≤ z.label u ∧ z.label u ≤ maxClock := by
  unfold offset clockChecked
  split_ifs with h
  · simpa using h
  · simpa using h

/-- The second found is after the early one and not after the late one, and has an offset. -/
theorem narrow_spec (h : narrow z moment before fuel early late = some r) (hlt : early < late)
    (hlate : (offset z (moment + late * second)).isSome) :
    early < r ∧ r ≤ late ∧ (offset z (moment + r * second)).isSome := by
  induction fuel generalizing early late with
  | zero =>
    obtain rfl := Option.some.inj h
    exact ⟨hlt, le_rfl, hlate⟩
  | succ fuel ih =>
    unfold narrow at h
    by_cases hgap : 1 < late - early
    · rw [if_pos hgap] at h
      obtain ⟨found, hfound, h⟩ := Option.bind_eq_some_iff.mp h
      have hsome := Option.isSome_of_eq_some hfound
      by_cases heq : found = before
      · rw [if_pos heq] at h
        obtain ⟨hlow, hhigh, hr⟩ := ih h (by omega) hlate
        exact ⟨by omega, hhigh, hr⟩
      · rw [if_neg heq] at h
        obtain ⟨hlow, hhigh, hr⟩ := ih h (by omega) hsome
        exact ⟨hlow, by omega, hr⟩
    · rw [if_neg hgap] at h
      obtain rfl := Option.some.inj h
      exact ⟨hlt, le_rfl, hlate⟩

theorem isSome_narrow (h : ∀ s, early ≤ s → s ≤ late → (offset z (moment + s * second)).isSome) :
    (narrow z moment before fuel early late).isSome := by
  induction fuel generalizing early late with
  | zero => rfl
  | succ fuel ih =>
    unfold narrow
    by_cases hgap : 1 < late - early
    · rw [if_pos hgap]
      obtain ⟨found, hfound⟩ :=
        Option.isSome_iff_exists.mp (h ((early + late) / 2) (by omega) (by omega))
      dsimp only
      rw [hfound, Option.bind_some]
      split_ifs
      · exact ih fun s hlow hhigh => h s (by omega) hhigh
      · exact ih fun s hlow hhigh => h s hlow (by omega)
    · rw [if_neg hgap]
      rfl

/-- A walk finds changes in the hours it walks, at instants that have an offset. -/
theorem walk_spec (h : walk z hours moment before = some found) :
    ∀ c ∈ found, moment < c.instant ∧ c.instant ≤ moment + hours * anHour ∧
      (offset z c.instant).isSome := by
  have hhour := anHour_eq
  induction hours generalizing moment before found with
  | zero =>
    obtain rfl := Option.some.inj h
    simp
  | succ hours ih =>
    unfold walk at h
    obtain ⟨after, hafter, h⟩ := Option.bind_eq_some_iff.mp h
    have hnext : ∀ found', walk z hours (moment + anHour) after = some found' →
        ∀ c ∈ found', moment < c.instant ∧ c.instant ≤ moment + (hours + 1 : ℕ) * anHour ∧
          (offset z c.instant).isSome := by
      intro found' h c hc
      obtain ⟨hlow, hhigh, hc⟩ := ih h c hc
      refine ⟨by omega, ?_, hc⟩
      rw [hhour] at hhigh ⊢
      omega
    by_cases hne : after ≠ before
    · rw [if_pos hne] at h
      obtain ⟨late, hlate, h⟩ := Option.bind_eq_some_iff.mp h
      obtain ⟨found', hfound', rfl⟩ := Option.map_eq_some_iff.mp h
      have hend : (offset z (moment + 3600 * second)).isSome := Option.isSome_of_eq_some hafter
      obtain ⟨hlow, hhigh, hsome⟩ := narrow_spec hlate (by decide) hend
      intro c hc
      rcases List.mem_cons.mp hc with rfl | hc
      · have hsecond : second = 1000000 := rfl
        refine ⟨?_, ?_, hsome⟩
        · change moment < moment + late * second
          rw [hsecond]
          omega
        · change moment + late * second ≤ _
          rw [hsecond, hhour]
          omega
      · exact hnext found' hfound' c hc
    · rw [if_neg hne] at h
      exact hnext found h

theorem isSome_walk
    (h : ∀ u, moment ≤ u → u ≤ moment + hours * anHour → (offset z u).isSome) :
    (walk z hours moment before).isSome := by
  have hhour := anHour_eq
  have hsecond : second = 1000000 := rfl
  induction hours generalizing moment before with
  | zero => rfl
  | succ hours ih =>
    have hcast : moment + (hours + 1 : ℕ) * anHour = moment + anHour + hours * anHour := by
      rw [hhour]
      omega
    have hhours : 0 ≤ hours * anHour := by
      rw [hhour]
      omega
    rw [hcast] at h
    unfold walk
    obtain ⟨after, hafter⟩ := Option.isSome_iff_exists.mp (h (moment + anHour) (by omega) (by omega))
    obtain ⟨found, hfound⟩ := Option.isSome_iff_exists.mp
      (ih fun u hlow hhigh => h u (by omega) hhigh : (walk z hours (moment + anHour) after).isSome)
    rw [hafter, Option.bind_some]
    split_ifs
    · obtain ⟨late, hlate⟩ := Option.isSome_iff_exists.mp
        (isSome_narrow fun s hlow hhigh =>
          h _ (by rw [hsecond]; omega) (by rw [hsecond]; omega) :
          (narrow z moment before 3600 0 3600).isSome)
      rw [hlate, Option.bind_some, hfound]
      rfl
    · rw [hfound]
      rfl

theorem newYear_succ (year : ℤ) : newYear (year + 1) = newYear year + (365 + leapDay year) * day := by
  have hsucc := daysBeforeYear_succ year
  unfold newYear midnight toOrdinal daysBeforeMonth day
  omega

theorem newYear_mono {y k : ℤ} (h : y ≤ k) : newYear y ≤ newYear k := by
  have hmono := daysBeforeYear_mono h
  unfold newYear midnight toOrdinal daysBeforeMonth day
  omega

/-- The hours of a year end with it. -/
theorem hours_newYear (year : ℤ) :
    newYear year + ((newYear (year + 1) - newYear year) / anHour).toNat * anHour =
      newYear (year + 1) := by
  have hsucc := newYear_succ year
  have hleap := leapDay_bounds year
  rw [anHour_eq]
  unfold day at hsucc
  omega

theorem yearAt_spec (t : ℤ) : newYear (yearAt t) ≤ t ∧ t < newYear (yearAt t + 1) := by
  have hyear := yearOf_spec (ordinalAt t)
  unfold newYear midnight yearAt
  unfold ordinalAt toOrdinal daysBeforeMonth day at *
  omega

/-- A year's changes come after it begins and not after it ends, at instants that have an offset. -/
theorem offsetChanges_spec (h : offsetChanges z year = some found) (hc : c ∈ found) :
    (1 ≤ year ∧ year < 9999) ∧ newYear year < c.instant ∧ c.instant ≤ newYear (year + 1) ∧
      (offset z c.instant).isSome := by
  unfold offsetChanges at h
  obtain ⟨hyear, h⟩ := Option.ite_none_right_eq_some.mp h
  obtain ⟨before, -, h⟩ := Option.bind_eq_some_iff.mp h
  have hwalk := walk_spec h c hc
  rw [hours_newYear] at hwalk
  exact ⟨hyear, hwalk⟩

theorem isSome_offsetChanges (hlow : 1 ≤ year) (hhigh : year < 9999)
    (h : ∀ u, newYear year ≤ u → u ≤ newYear (year + 1) → (offset z u).isSome) :
    (offsetChanges z year).isSome := by
  unfold offsetChanges
  have hnext := newYear_mono (show year ≤ year + 1 by omega)
  obtain ⟨before, hbefore⟩ := Option.isSome_iff_exists.mp (h (newYear year) le_rfl hnext)
  rw [if_pos ⟨hlow, hhigh⟩, hbefore, Option.bind_some]
  apply isSome_walk
  rw [hours_newYear]
  exact h

/-- A year that begins before the clock does has no changes to report. -/
theorem offsetChanges_eq_none (h : (offset z (newYear year)) = none) : offsetChanges z year = none := by
  unfold offsetChanges
  split_ifs
  · rw [h]
    rfl
  · rfl

/-- The years looked at. -/
theorem mem_years {y : ℤ} :
    y ∈ (List.range (min (yearAt stop) 9998 + 1 - yearAt start).toNat).map
        (fun i : ℕ => yearAt start + i) ↔
      yearAt start ≤ y ∧ y ≤ min (yearAt stop) 9998 := by
  rw [List.mem_map]
  constructor
  · rintro ⟨i, hi, rfl⟩
    rw [List.mem_range] at hi
    omega
  · intro h
    exact ⟨(y - yearAt start).toNat, List.mem_range.mpr (by omega), by omega⟩

theorem isSome_changes : (changes z start stop).isSome ↔
    ∀ y, yearAt start ≤ y → y ≤ min (yearAt stop) 9998 → (offsetChanges z y).isSome := by
  unfold changes
  dsimp only
  rw [Option.isSome_map, isSome_mapM]
  constructor
  · exact fun h y hlow hhigh => h y (mem_years.mpr ⟨hlow, hhigh⟩)
  · exact fun h y hy => h y (mem_years.mp hy).1 (mem_years.mp hy).2

/-- The changes of a window are those of the zone in it, where each is reported. -/
theorem mem_changes (hz : Reported z) (h : changes z start stop = some found) (hc : c ∈ z.moves)
    (hlow : start < c.instant) (hhigh : c.instant ≤ stop) : c ∈ found := by
  obtain ⟨year, reported, hyear, hmem⟩ := hz c hc
  obtain ⟨hrange, hbefore, hafter, -⟩ := offsetChanges_spec hyear hmem
  have hstart := yearAt_spec start
  have hstop := yearAt_spec stop
  have hfirst : yearAt start ≤ year := by
    by_contra hlt
    have := newYear_mono (show year + 1 ≤ yearAt start by omega)
    omega
  have hlast : year ≤ yearAt stop := by
    by_contra hlt
    have := newYear_mono (show yearAt stop + 1 ≤ year by omega)
    omega
  unfold changes at h
  obtain ⟨all, hall, rfl⟩ := Option.map_eq_some_iff.mp h
  obtain ⟨r, hr, hreported⟩ := exists_mem_of_mapM hall (mem_years.mpr ⟨hfirst, by omega⟩)
  rw [hyear, Option.some.injEq] at hreported
  rw [List.mem_filter, List.mem_flatten]
  exact ⟨⟨r, hr, hreported ▸ hmem⟩, by simpa using ⟨hlow, hhigh⟩⟩

/-- Where the clock's first instant has a label, every later one has, if every change is reported. -/
theorem minClock_le_label (hz : Reported z) (h : 0 ≤ z.offsetAt minClock) (hu : minClock ≤ u) :
    minClock ≤ z.label u := by
  by_cases hsome : ∃ m ∈ z.moves, minClock < m.instant ∧ m.instant ≤ u
  · obtain ⟨m, hm, hafter, hmu⟩ := hsome
    obtain ⟨last, hlast, hlu, hmax⟩ := exists_last ⟨m, hm, hmu⟩
    obtain ⟨year, found, hyear, hmem⟩ := hz last hlast
    obtain ⟨-, -, -, hoffset⟩ := offsetChanges_spec hyear hmem
    have hlabel := (isSome_offset.mp hoffset).1
    have hsame := offsetAt_of_none hlu hmax
    unfold label at hlabel ⊢
    omega
  · have hsame := offsetAt_of_none hu fun m hm hmu =>
      le_of_not_gt fun hlt => hsome ⟨m, hm, hlt, hmu⟩
    unfold label
    omega

end DjangoOx
