import Mathlib.Data.Int.Order.Basic
import Mathlib.Tactic.SplitIfs
import Mathlib.Tactic.Linarith

/-! The proleptic Gregorian calendar: days counted from 1 January of year 1 as day 1, their year,
month, day and weekday, and the first days of months. -/
namespace Calendar

def isLeap (y : ℤ) : Prop := y % 4 = 0 ∧ (y % 100 ≠ 0 ∨ y % 400 = 0)

instance (y : ℤ) : Decidable (isLeap y) := inferInstanceAs (Decidable (_ ∧ _))

/-- The days before 1 January of a year. -/
def daysBeforeYear (y : ℤ) : ℤ :=
  (y - 1) * 365 + (y - 1) / 4 - (y - 1) / 100 + (y - 1) / 400

/-- A leap year's extra day. -/
def leapDay (y : ℤ) : ℤ := if isLeap y then 1 else 0

def daysInMonth (y : ℤ) : ℕ → ℤ
  | 2 => 28 + leapDay y
  | 4 => 30
  | 6 => 30
  | 9 => 30
  | 11 => 30
  | _ => 31

/-- The days of a year before the first of a month; the thirteenth month is the next year's first. -/
def daysBeforeMonth (y : ℤ) : ℕ → ℤ
  | 0 => 0
  | 1 => 0
  | m + 2 => daysBeforeMonth y (m + 1) + daysInMonth y (m + 1)

/-- The day a year, a month and a day of it name. -/
def toOrdinal (y : ℤ) (m : ℕ) (d : ℤ) : ℤ := daysBeforeYear y + daysBeforeMonth y m + d

/-- The year of a day: near 400 years in 146097 days, and set right. -/
def yearOf (n : ℤ) : ℤ :=
  let y := n * 400 / 146097 + 1
  if n ≤ daysBeforeYear y then y - 1 else if daysBeforeYear (y + 1) < n then y + 1 else y

def dayOfYear (n : ℤ) : ℤ := n - daysBeforeYear (yearOf n)

/-- The first month from `m` on whose end is not before the `k`-th day of a year. -/
def monthFrom (y k : ℤ) : ℕ → ℕ → ℕ
  | 0, m => m
  | fuel + 1, m => if k ≤ daysBeforeMonth y (m + 1) then m else monthFrom y k fuel (m + 1)

def monthOf (n : ℤ) : ℕ := monthFrom (yearOf n) (dayOfYear n) 11 1

def dayOf (n : ℤ) : ℤ := dayOfYear n - daysBeforeMonth (yearOf n) (monthOf n)

/-- Monday is 0. -/
def weekdayOf (n : ℤ) : ℤ := (n + 6) % 7

variable {n y k : ℤ} {m : ℕ}

theorem leapDay_bounds (y : ℤ) : 0 ≤ leapDay y ∧ leapDay y ≤ 1 := by
  unfold leapDay
  split_ifs <;> omega

theorem daysBeforeYear_succ (y : ℤ) : daysBeforeYear (y + 1) = daysBeforeYear y + 365 + leapDay y := by
  unfold daysBeforeYear leapDay isLeap
  split_ifs <;> omega

theorem daysBeforeYear_lt (h : y < k) : daysBeforeYear (y + 1) ≤ daysBeforeYear k := by
  unfold daysBeforeYear
  omega

theorem daysBeforeYear_mono (h : y ≤ k) : daysBeforeYear y ≤ daysBeforeYear k := by
  unfold daysBeforeYear
  omega

/-- Nine years have three leap days at most. -/
theorem daysBeforeYear_nine (y : ℤ) : daysBeforeYear (y + 9) ≤ daysBeforeYear y + 3288 := by
  unfold daysBeforeYear
  omega

/-- The year of a day is the one it lies in. -/
theorem yearOf_spec (n : ℤ) : daysBeforeYear (yearOf n) < n ∧ n ≤ daysBeforeYear (yearOf n + 1) := by
  unfold yearOf
  dsimp only
  split_ifs with hlow hhigh
  · refine ⟨?_, by simpa using hlow⟩
    unfold daysBeforeYear at hlow ⊢
    omega
  · refine ⟨hhigh, ?_⟩
    unfold daysBeforeYear at hlow hhigh ⊢
    omega
  · omega

theorem yearOf_eq (hlow : daysBeforeYear y < n) (hhigh : n ≤ daysBeforeYear (y + 1)) :
    yearOf n = y := by
  obtain ⟨hl, hh⟩ := yearOf_spec n
  rcases lt_trichotomy (yearOf n) y with hlt | heq | hgt
  · have := daysBeforeYear_lt hlt
    omega
  · exact heq
  · have := daysBeforeYear_lt hgt
    omega

theorem dayOfYear_bounds (n : ℤ) : 0 < dayOfYear n ∧ dayOfYear n ≤ 365 + leapDay (yearOf n) := by
  obtain ⟨hl, hh⟩ := yearOf_spec n
  rw [daysBeforeYear_succ] at hh
  unfold dayOfYear
  omega

theorem daysInMonth_bounds (y : ℤ) (m : ℕ) : 28 ≤ daysInMonth y m ∧ daysInMonth y m ≤ 31 := by
  have hleap := leapDay_bounds y
  unfold daysInMonth
  split <;> omega

theorem daysBeforeMonth_succ (y : ℤ) (hm : 1 ≤ m) :
    daysBeforeMonth y (m + 1) = daysBeforeMonth y m + daysInMonth y m := by
  obtain ⟨j, rfl⟩ := Nat.exists_eq_add_of_le' hm
  rfl

/-- The last day of December. -/
theorem daysBeforeMonth_end (y : ℤ) : daysBeforeMonth y 13 = 365 + leapDay y := by
  simp only [daysBeforeMonth, daysInMonth]
  omega

theorem daysBeforeMonth_mono (y : ℤ) {a b : ℕ} (ha : 1 ≤ a) (hab : a ≤ b) :
    daysBeforeMonth y a ≤ daysBeforeMonth y b := by
  induction b, hab using Nat.le_induction with
  | base => rfl
  | succ b hb ih =>
    have hpos := daysInMonth_bounds y b
    rw [daysBeforeMonth_succ y (by omega)]
    omega

theorem monthFrom_spec (fuel : ℕ) {m : ℕ} (hlow : daysBeforeMonth y m < k)
    (hhigh : k ≤ daysBeforeMonth y (m + fuel + 1)) :
    let r := monthFrom y k fuel m
    m ≤ r ∧ r ≤ m + fuel ∧ daysBeforeMonth y r < k ∧ k ≤ daysBeforeMonth y (r + 1) := by
  induction fuel generalizing m with
  | zero => exact ⟨le_rfl, le_rfl, hlow, hhigh⟩
  | succ fuel ih =>
    unfold monthFrom
    dsimp only
    split_ifs with hin
    · exact ⟨le_rfl, by omega, hlow, hin⟩
    · have hnext := ih (m := m + 1) (by omega) (by rwa [show m + 1 + fuel + 1 = m + (fuel + 1) + 1 by omega])
      dsimp only at hnext
      omega

/-- The month of a day is the one of its year it lies in. -/
theorem monthOf_spec (n : ℤ) : 1 ≤ monthOf n ∧ monthOf n ≤ 12 ∧
    daysBeforeMonth (yearOf n) (monthOf n) < dayOfYear n ∧
      dayOfYear n ≤ daysBeforeMonth (yearOf n) (monthOf n + 1) := by
  obtain ⟨hpos, hle⟩ := dayOfYear_bounds n
  have hend := daysBeforeMonth_end (yearOf n)
  exact monthFrom_spec 11 hpos (by simpa [hend] using hle)

theorem dayOf_bounds (n : ℤ) : 1 ≤ dayOf n ∧ dayOf n ≤ daysInMonth (yearOf n) (monthOf n) := by
  obtain ⟨h1, -, hlow, hhigh⟩ := monthOf_spec n
  rw [daysBeforeMonth_succ _ h1] at hhigh
  unfold dayOf
  omega

/-- A day is the one its year, month and day of it name. -/
theorem toOrdinal_of (n : ℤ) : toOrdinal (yearOf n) (monthOf n) (dayOf n) = n := by
  unfold toOrdinal dayOf dayOfYear
  omega

/-- The year, the month and the day of it of a day they name. -/
theorem of_toOrdinal {y d : ℤ} {m : ℕ} (hm : 1 ≤ m) (hm' : m ≤ 12) (hd : 1 ≤ d)
    (hd' : d ≤ daysInMonth y m) :
    yearOf (toOrdinal y m d) = y ∧ monthOf (toOrdinal y m d) = m ∧ dayOf (toOrdinal y m d) = d := by
  have hpos : 0 ≤ daysBeforeMonth y m := daysBeforeMonth_mono y le_rfl hm
  have hsucc := daysBeforeMonth_succ y hm
  have hlast : daysBeforeMonth y (m + 1) ≤ 365 + leapDay y :=
    daysBeforeMonth_end y ▸ daysBeforeMonth_mono y (by omega) (by omega)
  have hyear : yearOf (toOrdinal y m d) = y := by
    apply yearOf_eq
    · unfold toOrdinal
      omega
    · rw [daysBeforeYear_succ]
      unfold toOrdinal
      omega
  have hday : dayOfYear (toOrdinal y m d) = daysBeforeMonth y m + d := by
    unfold dayOfYear
    rw [hyear]
    unfold toOrdinal
    omega
  have hmonth : monthOf (toOrdinal y m d) = m := by
    obtain ⟨h1, h12, hlow, hhigh⟩ := monthOf_spec (toOrdinal y m d)
    rw [hyear, hday] at hlow hhigh
    rcases lt_trichotomy (monthOf (toOrdinal y m d)) m with hlt | heq | hgt
    · have := daysBeforeMonth_mono y (by omega : 1 ≤ monthOf (toOrdinal y m d) + 1) hlt
      omega
    · exact heq
    · have := daysBeforeMonth_mono y (by omega : 1 ≤ m + 1) hgt
      omega
  refine ⟨hyear, hmonth, ?_⟩
  unfold dayOf
  rw [hyear, hday, hmonth]
  omega

/-- The days of a day's month are the days from its first to its last. -/
theorem month_of_mem {i : ℤ} (hlow : n - dayOf n < i)
    (hhigh : i ≤ n - dayOf n + daysInMonth (yearOf n) (monthOf n)) :
    yearOf i = yearOf n ∧ monthOf i = monthOf n ∧ dayOf i = i - (n - dayOf n) := by
  obtain ⟨h1, h12, -, -⟩ := monthOf_spec n
  have hn := toOrdinal_of n
  have hi : i = toOrdinal (yearOf n) (monthOf n) (i - (n - dayOf n)) := by
    unfold toOrdinal at hn ⊢
    omega
  have := of_toOrdinal (y := yearOf n) (d := i - (n - dayOf n)) h1 h12 (by omega) (by omega)
  rwa [← hi] at this

/-- The first of a day's month. -/
theorem toOrdinal_first (n : ℤ) : toOrdinal (yearOf n) (monthOf n) 1 = n - dayOf n + 1 := by
  have hn := toOrdinal_of n
  unfold toOrdinal at hn ⊢
  omega

/-- The first of the month after a day's. -/
theorem toOrdinal_next (n : ℤ) :
    (if monthOf n = 12 then toOrdinal (yearOf n + 1) 1 1 else toOrdinal (yearOf n) (monthOf n + 1) 1) =
      n - dayOf n + daysInMonth (yearOf n) (monthOf n) + 1 := by
  obtain ⟨h1, -, -, -⟩ := monthOf_spec n
  have hn := toOrdinal_of n
  have hsucc := daysBeforeMonth_succ (yearOf n) h1
  unfold toOrdinal at hn ⊢
  split_ifs with hdec
  · have hend := daysBeforeMonth_end (yearOf n)
    rw [hdec] at hsucc hn ⊢
    have hyear := daysBeforeYear_succ (yearOf n)
    have hone : daysBeforeMonth (yearOf n + 1) 1 = 0 := rfl
    simp only [Nat.reduceAdd] at hsucc
    omega
  · omega

/-- Two of eight years in a row are multiples of four, and one of the two is leap. -/
theorem exists_leap (y : ℤ) : ∃ z, y < z ∧ z ≤ y + 8 ∧ isLeap z := by
  by_cases h : isLeap (y + 4 - y % 4)
  · exact ⟨_, by omega, by omega, h⟩
  · refine ⟨y + 8 - y % 4, by omega, by omega, ?_⟩
    unfold isLeap at h ⊢
    omega

end Calendar
