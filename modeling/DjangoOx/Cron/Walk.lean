import DjangoOx.Cron.Expression
import DjangoOx.Schedule.Trigger
import Mathlib.Data.Int.LeastGreatest

/-! The walk of a cron expression from a minute to its tick before or after it. Minutes are counted
from the day before 1 January of year 1. -/
namespace DjangoOx

open Calendar

/-- A minute that a datetime can say: year 1 to year 9999. -/
def Sayable (t : ℤ) : Prop := 1440 ≤ t ∧ t < 3652060 * 1440

instance (t : ℤ) : Decidable (Sayable t) := inferInstanceAs (Decidable (_ ∧ _))

/-- The result of arithmetic on datetimes; `none` for its `OverflowError` or `ValueError`. -/
def checked (t : ℤ) : Option ℤ := if Sayable t then some t else none

/-- `_SEARCH_DAYS`, in minutes. -/
def searchMinutes : ℤ := 366 * 9 * 1440

namespace CronExpression

variable (e : CronExpression)

/-- What the loop of `previous` does with a minute: nothing if it matches, or a jump to an earlier
one, by `replace`, which keeps the fold, or by arithmetic, which drops it. -/
def stepBack (cur : ℤ) : Option (ℤ × Bool) :=
  let n := dayAt cur
  if monthOf n ∉ e.months then some (toOrdinal (yearOf n) (monthOf n) 1 * 1440 - 1, false)
  else if ¬ e.DayMatches n then some (n * 1440 - 1, false)
  else if hourAt cur ∉ e.hours then
    match (e.hours.filter (· < hourAt cur)).getLast? with
    | some hour => some (n * 1440 + hour * 60 + 59, true)
    | none => some (n * 1440 - 1, false)
  else if minuteAt cur ∉ e.minutes then
    match (e.minutes.filter (· < minuteAt cur)).getLast? with
    | some minute => some (cur - minuteAt cur + minute, true)
    | none => some (cur - minuteAt cur - 1, false)
  else none

/-- What the loop of `following` does with a minute. -/
def stepOn (cur : ℤ) : Option ℤ :=
  let n := dayAt cur
  if monthOf n ∉ e.months then
    some ((if monthOf n = 12 then toOrdinal (yearOf n + 1) 1 1
      else toOrdinal (yearOf n) (monthOf n + 1) 1) * 1440)
  else if ¬ e.DayMatches n then some (n * 1440 + 1440)
  else if hourAt cur ∉ e.hours then
    match (e.hours.filter (hourAt cur < ·)).head? with
    | some hour => some (n * 1440 + hour * 60)
    | none => some (n * 1440 + 1440)
  else if minuteAt cur ∉ e.minutes then
    match (e.minutes.filter (minuteAt cur < ·)).head? with
    | some minute => some (cur - minuteAt cur + minute)
    | none => some (cur - minuteAt cur + 60)
  else none

/-- The loop of `previous`. The fuel is the minutes left to the bound. -/
def previousFrom (bound : ℤ) : ℕ → ℤ → Bool → Option (ℤ × Bool)
  | 0, _, _ => none
  | fuel + 1, cur, fold =>
    if cur ≤ bound then none
    else match e.stepBack cur with
      | none => some (cur, fold)
      | some (t, true) => previousFrom bound fuel t fold
      | some (t, false) => (checked t).bind fun t => previousFrom bound fuel t false

/-- The loop of `following`. -/
def followingFrom (bound : ℤ) : ℕ → ℤ → Option ℤ
  | 0, _ => none
  | fuel + 1, cur =>
    if bound ≤ cur then none
    else match e.stepOn cur with
      | none => some cur
      | some t => (checked t).bind fun t => followingFrom bound fuel t

/-- `previous`, of a minute and its fold. -/
def previousMinute (cur : ℤ) (fold : Bool) : Option (ℤ × Bool) :=
  (checked (cur - searchMinutes)).bind fun bound =>
    e.previousFrom bound (cur - bound).toNat cur fold

/-- `following`, of a minute. -/
def followingMinute (cur : ℤ) : Option ℤ :=
  (checked (cur + 1)).bind fun cur => (checked (cur + searchMinutes)).bind fun bound =>
    e.followingFrom bound (bound - cur).toNat cur

end CronExpression

/-- The minutes from the day before year 1 to 1970. -/
def epochMinutes : ℤ := 719163 * 1440

/-- The minute of a clock reading. -/
def WallTime.minute (dt : WallTime) : ℤ := dt.clock / 60000000 + epochMinutes

/-- A minute as a clock reading. -/
def WallTime.ofMinute (t : ℤ) (fold : Bool) : WallTime := ⟨(t - epochMinutes) * 60000000, fold⟩

namespace CronExpression

variable {e : CronExpression} {cur t g bound : ℤ} {fuel : ℕ} {fold : Bool}

/-- `previous` -/
def previous (e : CronExpression) (dt : WallTime) : Option WallTime :=
  (e.previousMinute dt.minute dt.fold).map fun p => .ofMinute p.1 p.2

/-- `following` -/
def following (e : CronExpression) (dt : WallTime) : Option WallTime :=
  (e.followingMinute dt.minute).map fun t => .ofMinute t false

theorem clock_fields (t : ℤ) : (hourAt t : ℤ) = t % 1440 / 60 ∧ (minuteAt t : ℤ) = t % 60 ∧
    t = dayAt t * 1440 + hourAt t * 60 + minuteAt t ∧ hourAt t < 24 ∧ minuteAt t < 60 := by
  unfold hourAt minuteAt dayAt
  omega

/-- The last of the sorted values under a bound is the greatest. -/
theorem getLast_filter_lt {l : List ℕ} {b v : ℕ} (hs : l.Pairwise (· < ·))
    (h : (l.filter (· < b)).getLast? = some v) : v ∈ l ∧ v < b ∧ ∀ w ∈ l, w < b → w ≤ v := by
  obtain ⟨hmem, hlt⟩ := List.mem_filter.mp (List.mem_of_getLast? h)
  refine ⟨hmem, of_decide_eq_true hlt, fun w hw hwb => ?_⟩
  obtain ⟨init, hinit⟩ := List.getLast?_eq_some_iff.mp h
  have hmem' : w ∈ init ++ [v] := hinit ▸ List.mem_filter.mpr ⟨hw, decide_eq_true hwb⟩
  have hsorted : (init ++ [v]).Pairwise (· < ·) := hinit ▸ hs.sublist List.filter_sublist
  rcases List.mem_append.mp hmem' with hmem' | hmem'
  · exact ((List.pairwise_append.mp hsorted).2.2 w hmem' v (by simp)).le
  · exact (List.mem_singleton.mp hmem').le

theorem head_filter_lt {l : List ℕ} {b v : ℕ} (hs : l.Pairwise (· < ·))
    (h : (l.filter (b < ·)).head? = some v) : v ∈ l ∧ b < v ∧ ∀ w ∈ l, b < w → v ≤ w := by
  obtain ⟨hmem, hlt⟩ := List.mem_filter.mp (List.mem_of_head? h)
  refine ⟨hmem, of_decide_eq_true hlt, fun w hw hwb => ?_⟩
  obtain ⟨tail, htail⟩ := List.head?_eq_some_iff.mp h
  have hmem' : w ∈ v :: tail := htail ▸ List.mem_filter.mpr ⟨hw, decide_eq_true hwb⟩
  have hsorted : (v :: tail).Pairwise (· < ·) := htail ▸ hs.sublist List.filter_sublist
  rcases List.mem_cons.mp hmem' with rfl | hmem'
  · exact le_rfl
  · exact (List.rel_of_pairwise_cons hsorted hmem').le

theorem stepBack_none (h : e.stepBack cur = none) : e.Matches cur := by
  unfold stepBack at h
  dsimp only at h
  split_ifs at h with hmonth hday hhour hminute
  · exact ⟨hminute, hhour, hmonth, hday⟩
  · split at h <;> cases h
  · split at h <;> cases h

/-- A jump back passes no match, the minute it leaves included. -/
theorem stepBack_some (hv : e.Valid) {keeps : Bool} (h : e.stepBack cur = some (t, keeps)) :
    t < cur ∧ ∀ u, t < u → u ≤ cur → ¬ e.Matches u := by
  obtain ⟨hh, hm, hcur, hh24, hm60⟩ := clock_fields cur
  have hday := dayOf_bounds (dayAt cur)
  unfold stepBack at h
  dsimp only at h
  split_ifs at h with hmonth hmatch hhour hminute
  · split at h
    · next minute hfound =>
      obtain ⟨rfl, rfl⟩ := Prod.mk.inj (Option.some.inj h)
      obtain ⟨hmem, hlt, hgreatest⟩ := getLast_filter_lt hv.minutes.2.1 hfound
      refine ⟨by omega, fun u hlow hhigh hu => ?_⟩
      obtain ⟨huh, hum, hucur, huh24, hum60⟩ := clock_fields u
      rcases Nat.lt_or_ge (minuteAt u) (minuteAt cur) with hless | hmore
      · have hle := hgreatest _ hu.1 hless
        omega
      · have heq : minuteAt u = minuteAt cur := by omega
        exact hminute (heq ▸ hu.1)
    · next hfound =>
      obtain ⟨rfl, rfl⟩ := Prod.mk.inj (Option.some.inj h)
      have hnone := List.filter_eq_nil_iff.mp (List.getLast?_eq_none_iff.mp hfound)
      refine ⟨by omega, fun u hlow hhigh hu => ?_⟩
      obtain ⟨huh, hum, hucur, huh24, hum60⟩ := clock_fields u
      rcases Nat.lt_or_ge (minuteAt u) (minuteAt cur) with hless | hmore
      · exact hnone _ hu.1 (decide_eq_true hless)
      · have heq : minuteAt u = minuteAt cur := by omega
        exact hminute (heq ▸ hu.1)
  · split at h
    · next hour hfound =>
      obtain ⟨rfl, rfl⟩ := Prod.mk.inj (Option.some.inj h)
      obtain ⟨hmem, hlt, hgreatest⟩ := getLast_filter_lt hv.hours.2.1 hfound
      refine ⟨by omega, fun u hlow hhigh hu => ?_⟩
      obtain ⟨huh, hum, hucur, huh24, hum60⟩ := clock_fields u
      have hu' : dayAt u = dayAt cur := by
        unfold dayAt at *
        omega
      rcases Nat.lt_or_ge (hourAt u) (hourAt cur) with hless | hmore
      · have hle := hgreatest _ hu.2.1 hless
        omega
      · have heq : hourAt u = hourAt cur := by omega
        exact hhour (heq ▸ hu.2.1)
    · next hfound =>
      obtain ⟨rfl, rfl⟩ := Prod.mk.inj (Option.some.inj h)
      have hnone := List.filter_eq_nil_iff.mp (List.getLast?_eq_none_iff.mp hfound)
      refine ⟨by omega, fun u hlow hhigh hu => ?_⟩
      obtain ⟨huh, hum, hucur, huh24, hum60⟩ := clock_fields u
      have hu' : dayAt u = dayAt cur := by
        unfold dayAt at *
        omega
      rcases Nat.lt_or_ge (hourAt u) (hourAt cur) with hless | hmore
      · exact hnone _ hu.2.1 (decide_eq_true hless)
      · have heq : hourAt u = hourAt cur := by omega
        exact hhour (heq ▸ hu.2.1)
  · obtain ⟨rfl, rfl⟩ := Prod.mk.inj (Option.some.inj h)
    refine ⟨by omega, fun u hlow hhigh hu => hmatch ?_⟩
    have hu' : dayAt u = dayAt cur := by
      unfold dayAt at *
      omega
    exact hu' ▸ hu.2.2.2
  · obtain ⟨rfl, rfl⟩ := Prod.mk.inj (Option.some.inj h)
    rw [toOrdinal_first]
    refine ⟨by omega, fun u hlow hhigh hu => hmonth ?_⟩
    have hu' : dayAt cur - dayOf (dayAt cur) < dayAt u ∧ dayAt u ≤ dayAt cur := by
      unfold dayAt at *
      omega
    rw [← (month_of_mem hu'.1 (by omega)).2.1]
    exact hu.2.2.1

theorem stepOn_none (h : e.stepOn cur = none) : e.Matches cur := by
  unfold stepOn at h
  dsimp only at h
  rw [toOrdinal_next] at h
  split_ifs at h with hmonth hday hhour hminute
  · exact ⟨hminute, hhour, hmonth, hday⟩
  · split at h <;> cases h
  · split at h <;> cases h

/-- A jump on passes no match, the minute it leaves included. -/
theorem stepOn_some (hv : e.Valid) (h : e.stepOn cur = some t) :
    cur < t ∧ ∀ u, cur ≤ u → u < t → ¬ e.Matches u := by
  obtain ⟨hh, hm, hcur, hh24, hm60⟩ := clock_fields cur
  have hday := dayOf_bounds (dayAt cur)
  unfold stepOn at h
  dsimp only at h
  rw [toOrdinal_next] at h
  split_ifs at h with hmonth hmatch hhour hminute
  · split at h
    · next minute hfound =>
      obtain rfl := Option.some.inj h
      obtain ⟨hmem, hlt, hleast⟩ := head_filter_lt hv.minutes.2.1 hfound
      have hmin60 := hv.minutes.2.2 minute hmem
      refine ⟨by omega, fun u hlow hhigh hu => ?_⟩
      obtain ⟨huh, hum, hucur, huh24, hum60⟩ := clock_fields u
      rcases Nat.lt_or_ge (minuteAt cur) (minuteAt u) with hmore | hless
      · have hle := hleast _ hu.1 hmore
        omega
      · have heq : minuteAt u = minuteAt cur := by omega
        exact hminute (heq ▸ hu.1)
    · next hfound =>
      obtain rfl := Option.some.inj h
      have hnone := List.filter_eq_nil_iff.mp (List.head?_eq_none_iff.mp hfound)
      refine ⟨by omega, fun u hlow hhigh hu => ?_⟩
      obtain ⟨huh, hum, hucur, huh24, hum60⟩ := clock_fields u
      rcases Nat.lt_or_ge (minuteAt cur) (minuteAt u) with hmore | hless
      · exact hnone _ hu.1 (decide_eq_true hmore)
      · have heq : minuteAt u = minuteAt cur := by omega
        exact hminute (heq ▸ hu.1)
  · split at h
    · next hour hfound =>
      obtain rfl := Option.some.inj h
      obtain ⟨hmem, hlt, hleast⟩ := head_filter_lt hv.hours.2.1 hfound
      have hour24 := hv.hours.2.2 hour hmem
      refine ⟨by omega, fun u hlow hhigh hu => ?_⟩
      obtain ⟨huh, hum, hucur, huh24, hum60⟩ := clock_fields u
      have hu' : dayAt u = dayAt cur := by
        unfold dayAt at *
        omega
      rcases Nat.lt_or_ge (hourAt cur) (hourAt u) with hmore | hless
      · have hle := hleast _ hu.2.1 hmore
        omega
      · have heq : hourAt u = hourAt cur := by omega
        exact hhour (heq ▸ hu.2.1)
    · next hfound =>
      obtain rfl := Option.some.inj h
      have hnone := List.filter_eq_nil_iff.mp (List.head?_eq_none_iff.mp hfound)
      refine ⟨by omega, fun u hlow hhigh hu => ?_⟩
      obtain ⟨huh, hum, hucur, huh24, hum60⟩ := clock_fields u
      have hu' : dayAt u = dayAt cur := by
        unfold dayAt at *
        omega
      rcases Nat.lt_or_ge (hourAt cur) (hourAt u) with hmore | hless
      · exact hnone _ hu.2.1 (decide_eq_true hmore)
      · have heq : hourAt u = hourAt cur := by omega
        exact hhour (heq ▸ hu.2.1)
  · obtain rfl := Option.some.inj h
    refine ⟨by omega, fun u hlow hhigh hu => hmatch ?_⟩
    have hu' : dayAt u = dayAt cur := by
      unfold dayAt at *
      omega
    exact hu' ▸ hu.2.2.2
  · obtain rfl := Option.some.inj h
    refine ⟨by omega, fun u hlow hhigh hu => hmonth ?_⟩
    have hu' : dayAt cur ≤ dayAt u ∧ dayAt u <
        dayAt cur - dayOf (dayAt cur) + daysInMonth (yearOf (dayAt cur)) (monthOf (dayAt cur)) + 1 := by
      unfold dayAt at *
      omega
    rw [← (month_of_mem (i := dayAt u) (n := dayAt cur) (by omega) (by omega)).2.1]
    exact hu.2.2.1

/-- The loop of `previous` finds the last match above its bound. -/
theorem previousFrom_eq (fold : Bool) (hv : e.Valid) (hg : IsGreatest {u | e.Matches u ∧ u ≤ cur} g)
    (hbound : bound < g) (hfuel : cur - bound ≤ fuel) (hlow : Sayable g) (hhigh : Sayable cur) :
    ∃ fold', e.previousFrom bound fuel cur fold = some (g, fold') := by
  induction fuel generalizing cur fold with
  | zero =>
    have hle : g ≤ cur := hg.1.2
    omega
  | succ fuel ih =>
    have hle : g ≤ cur := hg.1.2
    unfold previousFrom
    rw [if_neg (by omega)]
    cases hstep : e.stepBack cur with
    | none =>
      have heq : cur ≤ g := hg.2 ⟨stepBack_none hstep, le_rfl⟩
      obtain rfl : g = cur := by omega
      exact ⟨fold, rfl⟩
    | some jump =>
      obtain ⟨t, keeps⟩ := jump
      obtain ⟨hlt, hpass⟩ := stepBack_some hv hstep
      have hgt : g ≤ t := by
        by_contra hnot
        exact hpass g (by omega) hle hg.1.1
      have hg' : IsGreatest {u | e.Matches u ∧ u ≤ t} g :=
        ⟨⟨hg.1.1, hgt⟩, fun u hu => hg.2 ⟨hu.1, hu.2.trans hlt.le⟩⟩
      have hsay : Sayable t := by
        unfold Sayable at *
        omega
      have hchecked : checked t = some t := if_pos hsay
      cases keeps with
      | true => exact ih fold hg' (by omega) hsay
      | false =>
        dsimp only
        rw [hchecked, Option.bind_some]
        exact ih false hg' (by omega) hsay

/-- The loop of `following` finds the first match under its bound. -/
theorem followingFrom_eq (hv : e.Valid) (hg : IsLeast {u | e.Matches u ∧ cur ≤ u} g)
    (hbound : g < bound) (hfuel : bound - cur ≤ fuel) (hlow : Sayable cur) (hhigh : Sayable g) :
    e.followingFrom bound fuel cur = some g := by
  induction fuel generalizing cur with
  | zero =>
    have hle : cur ≤ g := hg.1.2
    omega
  | succ fuel ih =>
    have hle : cur ≤ g := hg.1.2
    unfold followingFrom
    rw [if_neg (by omega)]
    cases hstep : e.stepOn cur with
    | none =>
      have heq : g ≤ cur := hg.2 ⟨stepOn_none hstep, le_rfl⟩
      obtain rfl : g = cur := by omega
      rfl
    | some t =>
      obtain ⟨hlt, hpass⟩ := stepOn_some hv hstep
      have hgt : t ≤ g := by
        by_contra hnot
        exact hpass g hle (by omega) hg.1.1
      have hg' : IsLeast {u | e.Matches u ∧ t ≤ u} g :=
        ⟨⟨hg.1.1, hgt⟩, fun u hu => hg.2 ⟨hu.1, hlt.le.trans hu.2⟩⟩
      have hsay : Sayable t := by
        unfold Sayable at *
        omega
      have hchecked : checked t = some t := if_pos hsay
      dsimp only
      rw [hchecked, Option.bind_some]
      exact ih hg' (by omega) hsay

end CronExpression

end DjangoOx
