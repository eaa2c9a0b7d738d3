import DjangoOx.Cron.Walk

/-! The walk of an accepted expression is exact: it always finds the last match at or before a
minute, and the first one after it, long before its bound. -/
namespace DjangoOx

open Calendar

namespace CronExpression

variable {e : CronExpression} {n y cur : ℤ} {fold : Bool}

/-- The first days of a month fall on every weekday. -/
theorem exists_weekday (y : ℤ) (m : ℕ) {w : ℕ} (hw : w < 7) :
    ∃ d : ℤ, 1 ≤ d ∧ d ≤ 7 ∧ ((weekdayOf (toOrdinal y m d) + 1) % 7).toNat = w := by
  refine ⟨(w - toOrdinal y m 1) % 7 + 1, by omega, by omega, ?_⟩
  have hshift : toOrdinal y m ((w - toOrdinal y m 1) % 7 + 1) =
      toOrdinal y m 1 + (w - toOrdinal y m 1) % 7 := by
    unfold toOrdinal
    omega
  rw [hshift]
  unfold weekdayOf
  omega

theorem daysInMonth_leap (h : isLeap y) (m : ℕ) : daysInMonth y m = maxDays m := by
  have hleap : leapDay y = 1 := if_pos h
  unfold daysInMonth maxDays
  split <;> simp [hleap]

/-- A day of a leap year that the day and month fields allow. -/
theorem exists_day (hv : e.Valid) (h : isLeap y) :
    ∃ d, daysBeforeYear y < d ∧ d ≤ daysBeforeYear (y + 1) ∧ monthOf d ∈ e.months ∧ e.DayMatches d := by
  obtain ⟨m, d, hm, hmem, hd, hd', hmatch⟩ : ∃ (m : ℕ) (d : ℤ), (1 ≤ m ∧ m ≤ 12) ∧ m ∈ e.months ∧
      1 ≤ d ∧ d ≤ daysInMonth y m ∧
      (monthOf (toOrdinal y m d) = m → dayOf (toOrdinal y m d) = d →
        e.DayMatches (toOrdinal y m d)) := by
    by_cases hday : e.domRestricted = true ∧ e.dowRestricted = false
    · obtain ⟨m, hmem, d, hd, hle⟩ := hv.reachable hday.1 hday.2
      have hbounds := hv.daysOfMonth.2 d hd
      refine ⟨m, d, hv.months.2 m hmem, hmem, by omega, ?_, fun _ hdayOf => ?_⟩
      · rw [daysInMonth_leap h]
        omega
      · have hweek : ((weekdayOf (toOrdinal y m d) + 1) % 7).toNat < 7 := by omega
        unfold DayMatches
        simp only [hday.2, Bool.false_eq_true, and_false, if_false]
        rw [hdayOf]
        exact ⟨by simpa using hd, hv.anyWeekday hday.2 _ hweek⟩
    · obtain ⟨m, hmem⟩ := List.exists_mem_of_ne_nil _ hv.months.1
      obtain ⟨w, hw⟩ := List.exists_mem_of_ne_nil _ hv.daysOfWeek.1
      obtain ⟨d, hd, hd', hweek⟩ := exists_weekday y m (hv.daysOfWeek.2 w hw)
      have hlen := daysInMonth_bounds y m
      refine ⟨m, d, hv.months.2 m hmem, hmem, hd, by omega, fun _ hdayOf => ?_⟩
      unfold DayMatches
      dsimp only
      rw [hweek, hdayOf]
      split_ifs with hboth
      · exact .inr hw
      · refine ⟨hv.anyDay ?_ _ (by omega) (by omega), hw⟩
        by_contra hdom
        simp_all
  obtain ⟨-, hmonth, hday⟩ := of_toOrdinal hm.1 hm.2 hd hd'
  refine ⟨toOrdinal y m d, ?_, ?_, hmonth.symm ▸ hmem, hmatch hmonth hday⟩
  · have hpos : 0 ≤ daysBeforeMonth y m := daysBeforeMonth_mono y le_rfl hm.1
    unfold toOrdinal
    omega
  · have hsucc := daysBeforeMonth_succ y hm.1
    have hlast : daysBeforeMonth y (m + 1) ≤ 365 + leapDay y :=
      daysBeforeMonth_end y ▸ daysBeforeMonth_mono y (by omega) (by omega)
    rw [daysBeforeYear_succ]
    unfold toOrdinal
    omega

/-- A day and an allowed hour and minute make a match. -/
theorem exists_match (hv : e.Valid) (hmonth : monthOf n ∈ e.months) (hday : e.DayMatches n) :
    ∃ t, e.Matches t ∧ n * 1440 ≤ t ∧ t < n * 1440 + 1440 := by
  obtain ⟨h, hh⟩ := List.exists_mem_of_ne_nil _ hv.hours.1
  obtain ⟨m, hm⟩ := List.exists_mem_of_ne_nil _ hv.minutes.1
  have hh24 := hv.hours.2.2 h hh
  have hm60 := hv.minutes.2.2 m hm
  refine ⟨n * 1440 + h * 60 + m, ?_, by omega, by omega⟩
  have hday' : dayAt (n * 1440 + h * 60 + m) = n := by
    unfold dayAt
    omega
  have hhour : hourAt (n * 1440 + h * 60 + m) = h := by
    unfold hourAt
    omega
  have hminute : minuteAt (n * 1440 + h * 60 + m) = m := by
    unfold minuteAt
    omega
  unfold Matches
  rw [hday', hhour, hminute]
  exact ⟨hm, hh, hmonth, hday⟩

/-- A match less than nine years before any minute, on an earlier day. -/
theorem exists_before (hv : e.Valid) (cur : ℤ) :
    ∃ t, e.Matches t ∧ cur - searchMinutes + 1440 < t ∧ t ≤ cur := by
  obtain ⟨z, hz, hz', hleap⟩ := exists_leap (yearOf (dayAt cur) - 9)
  obtain ⟨d, hd, hd', hmonth, hday⟩ := exists_day hv hleap
  obtain ⟨t, ht, hlow, hhigh⟩ := exists_match hv hmonth hday
  obtain ⟨hyear, hyear'⟩ := yearOf_spec (dayAt cur)
  have hwindow : dayAt cur - 3290 ≤ d ∧ d < dayAt cur := by
    have hfirst := daysBeforeYear_mono (by omega : yearOf (dayAt cur) - 8 ≤ z)
    have hlast := daysBeforeYear_mono (by omega : z + 1 ≤ yearOf (dayAt cur))
    have hnine := daysBeforeYear_nine (yearOf (dayAt cur) - 8)
    rw [show yearOf (dayAt cur) - 8 + 9 = yearOf (dayAt cur) + 1 by omega] at hnine
    omega
  unfold dayAt at hwindow
  unfold searchMinutes
  exact ⟨t, ht, by omega, by omega⟩

/-- A match less than nine years after any minute, on a later day. -/
theorem exists_after (hv : e.Valid) (cur : ℤ) :
    ∃ t, e.Matches t ∧ cur < t ∧ t + 1440 < cur + searchMinutes := by
  obtain ⟨z, hz, hz', hleap⟩ := exists_leap (yearOf (dayAt cur))
  obtain ⟨d, hd, hd', hmonth, hday⟩ := exists_day hv hleap
  obtain ⟨t, ht, hlow, hhigh⟩ := exists_match hv hmonth hday
  obtain ⟨hyear, hyear'⟩ := yearOf_spec (dayAt cur)
  have hwindow : dayAt cur < d ∧ d ≤ dayAt cur + 3290 := by
    have hfirst := daysBeforeYear_mono (by omega : yearOf (dayAt cur) + 1 ≤ z)
    have hlast := daysBeforeYear_mono (by omega : z + 1 ≤ yearOf (dayAt cur) + 9)
    have hnine := daysBeforeYear_nine (yearOf (dayAt cur))
    omega
  unfold dayAt at hwindow
  unfold searchMinutes
  exact ⟨t, ht, by omega, by omega⟩

theorem exists_isGreatest (hv : e.Valid) (cur : ℤ) :
    ∃ g, IsGreatest {u | e.Matches u ∧ u ≤ cur} g ∧ cur - searchMinutes + 1440 < g := by
  obtain ⟨t, ht, hlow, hle⟩ := exists_before hv cur
  obtain ⟨g, hg, hmax⟩ := Int.exists_greatest_of_bdd (P := fun u => e.Matches u ∧ u ≤ cur)
    ⟨cur, fun u hu => hu.2⟩ ⟨t, ht, hle⟩
  have htg := hmax t ⟨ht, hle⟩
  exact ⟨g, ⟨hg, fun u hu => hmax u hu⟩, by omega⟩

theorem exists_isLeast (hv : e.Valid) (cur : ℤ) :
    ∃ g, IsLeast {u | e.Matches u ∧ cur < u} g ∧ g + 1440 < cur + searchMinutes := by
  obtain ⟨t, ht, hlt, hhigh⟩ := exists_after hv cur
  obtain ⟨g, hg, hmin⟩ := Int.exists_least_of_bdd (P := fun u => e.Matches u ∧ cur < u)
    ⟨cur, fun u hu => hu.2.le⟩ ⟨t, ht, hlt⟩
  have hgt := hmin t ⟨ht, hlt⟩
  exact ⟨g, ⟨hg, fun u hu => hmin u hu⟩, by omega⟩

theorem previousMinute_exact (fold : Bool) (hv : e.Valid) (hroom : Sayable (cur - searchMinutes))
    (hcur : Sayable cur) : ∃ g fold', e.previousMinute cur fold = some (g, fold') ∧
      IsGreatest {u | e.Matches u ∧ u ≤ cur} g := by
  obtain ⟨g, hg, hlow⟩ := exists_isGreatest hv cur
  have hle : g ≤ cur := hg.1.2
  have hsay : Sayable g := by
    unfold Sayable at *
    omega
  obtain ⟨fold', hfrom⟩ : ∃ fold', e.previousFrom (cur - searchMinutes)
      (cur - (cur - searchMinutes)).toNat cur fold = some (g, fold') :=
    previousFrom_eq fold hv hg (by omega) (by omega) hsay hcur
  refine ⟨g, fold', ?_, hg⟩
  unfold previousMinute
  rw [show checked (cur - searchMinutes) = some (cur - searchMinutes) from if_pos hroom]
  rw [Option.bind_some]
  exact hfrom

theorem followingMinute_exact (hv : e.Valid) (hroom : Sayable (cur + 1 + searchMinutes))
    (hcur : Sayable cur) : ∃ g, e.followingMinute cur = some g ∧
      IsLeast {u | e.Matches u ∧ cur < u} g := by
  obtain ⟨g, hg, hhigh⟩ := exists_isLeast hv cur
  have hlt : cur < g := hg.1.2
  have hpos : 0 < searchMinutes := by decide
  have hsay : Sayable (cur + 1) := by
    unfold Sayable at *
    omega
  have hsay' : Sayable g := by
    unfold Sayable at *
    omega
  have hg' : IsLeast {u | e.Matches u ∧ cur + 1 ≤ u} g :=
    ⟨⟨hg.1.1, by omega⟩, fun u hu => hg.2 ⟨hu.1, by have := hu.2; omega⟩⟩
  refine ⟨g, ?_, hg⟩
  unfold followingMinute
  rw [show checked (cur + 1) = some (cur + 1) from if_pos hsay, Option.bind_some,
    show checked (cur + 1 + searchMinutes) = some (cur + 1 + searchMinutes) from if_pos hroom]
  rw [Option.bind_some]
  exact followingFrom_eq hv hg' (by omega) (by omega) hsay hsay'

/-- The walk back of an accepted expression ends at the nearest match. -/
theorem previous_exact {text : Text} (h : parse text = some e) (dt : WallTime)
    (hlow : Sayable (dt.minute - searchMinutes)) (hcur : Sayable dt.minute) :
    ∃ t fold, e.previous dt = some (.ofMinute t fold) ∧
      IsGreatest {u | e.Matches u ∧ u ≤ dt.minute} t := by
  obtain ⟨t, fold, ht, hg⟩ := previousMinute_exact dt.fold (parse_valid h) hlow hcur
  exact ⟨t, fold, by simp [previous, ht], hg⟩

/-- Both walks of an accepted expression end at the nearest match, where a datetime has room for
their bound. -/
theorem ticks_exact {text : Text} (h : parse text = some e) (dt : WallTime)
    (hlow : Sayable (dt.minute - searchMinutes)) (hhigh : Sayable (dt.minute + 1 + searchMinutes)) :
    (∃ t fold, e.previous dt = some (.ofMinute t fold) ∧
      IsGreatest {u | e.Matches u ∧ u ≤ dt.minute} t) ∧
    ∃ t fold, e.following dt = some (.ofMinute t fold) ∧
      IsLeast {u | e.Matches u ∧ dt.minute < u} t := by
  have hv := parse_valid h
  have hcur : Sayable dt.minute := by
    have hpos : 0 < searchMinutes := by decide
    unfold Sayable at *
    omega
  constructor
  · exact previous_exact h dt hlow hcur
  · obtain ⟨t, ht, hg⟩ := followingMinute_exact hv hhigh hcur
    exact ⟨t, false, by simp [following, ht], hg⟩

/-- `0 0 29 2 *`, read at the start of 1970. -/
theorem ticks_exact_leap_day : ∃ e, parse "0 0 29 2 *".toList = some e ∧
    (∃ t fold, e.previous ⟨0, false⟩ = some (.ofMinute t fold) ∧
      IsGreatest {u | e.Matches u ∧ u ≤ epochMinutes} t) ∧
    ∃ t fold, e.following ⟨0, false⟩ = some (.ofMinute t fold) ∧
      IsLeast {u | e.Matches u ∧ epochMinutes < u} t := by
  obtain ⟨e, he⟩ : ∃ e, parse "0 0 29 2 *".toList = some e :=
    Option.isSome_iff_exists.mp (by decide +kernel)
  exact ⟨e, he, ticks_exact he ⟨0, false⟩ (by decide) (by decide)⟩

/-- On 3 January of year 10 nine years are left before the date, and fewer days than the bound of
the walk goes back. -/
theorem previous_overflows : ¬ ∀ (text : Text) (e : CronExpression) (dt : WallTime),
    parse text = some e → 10 ≤ yearOf (dayAt dt.minute) → yearOf (dayAt dt.minute) ≤ 9990 →
      ∃ p, e.previous dt = some p := by
  intro hall
  let dt : WallTime := .ofMinute (toOrdinal 10 1 3 * 1440) false
  obtain ⟨e, he⟩ : ∃ e, parse "* * * * *".toList = some e :=
    Option.isSome_iff_exists.mp (by decide +kernel)
  obtain ⟨p, hp⟩ := hall _ e dt he (by decide) (by decide)
  have hnone : checked (dt.minute - searchMinutes) = none := by decide
  simp [previous, previousMinute, hnone] at hp

end CronExpression

end DjangoOx
