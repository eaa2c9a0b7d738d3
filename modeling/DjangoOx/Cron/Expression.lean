import DjangoOx.Machine.Calendar
import Mathlib.Data.List.Dedup
import Mathlib.Data.List.Sort

/-! Cron expressions: the text they are read from, the values each field allows, and the minutes
that match. Text is a list of characters. -/
namespace DjangoOx

open Calendar

abbrev Text := List Char

/-- The zeros of the runs of ten characters that are decimal digits in some script. -/
def decimalZeros : List ℕ :=
  [0x30, 0x660, 0x6F0, 0x7C0, 0x966, 0x9E6, 0xA66, 0xAE6, 0xB66, 0xBE6, 0xC66, 0xCE6, 0xD66, 0xDE6,
    0xE50, 0xED0, 0xF20, 0x1040, 0x1090, 0x17E0, 0x1810, 0x1946, 0x19D0, 0x1A80, 0x1A90, 0x1B50,
    0x1BB0, 0x1C40, 0x1C50, 0xA620, 0xA8D0, 0xA900, 0xA9D0, 0xA9F0, 0xAA50, 0xABF0, 0xFF10, 0x104A0,
    0x10D30, 0x11066, 0x110F0, 0x11136, 0x111D0, 0x112F0, 0x11450, 0x114D0, 0x11650, 0x116C0,
    0x11730, 0x118E0, 0x11950, 0x11C50, 0x11D50, 0x11DA0, 0x11F50, 0x16A60, 0x16AC0, 0x16B50,
    0x1D7CE, 0x1D7D8, 0x1D7E2, 0x1D7EC, 0x1D7F6, 0x1E140, 0x1E2F0, 0x1E4F0, 0x1E950, 0x1FBF0]

/-- The value of a decimal digit. -/
def decimal (c : Char) : Option ℕ :=
  (decimalZeros.find? fun z => z ≤ c.toNat ∧ c.toNat < z + 10).map fun z => c.toNat - z

/-- More digits of a number, an underscore allowed before each. -/
def digitsFrom (n : ℕ) : Text → Option ℕ
  | [] => some n
  | '_' :: c :: rest => (decimal c).bind fun d => digitsFrom (10 * n + d) rest
  | c :: rest => (decimal c).bind fun d => digitsFrom (10 * n + d) rest

def digits : Text → Option ℕ
  | [] => none
  | c :: rest => (decimal c).bind fun d => digitsFrom d rest

/-- `int(text)`, of a text with no white space; `none` for its `ValueError`. -/
def int (text : Text) : Option ℤ :=
  match text with
  | '-' :: rest => (digits rest).map fun n => -(n : ℤ)
  | '+' :: rest => (digits rest).map fun n => (n : ℤ)
  | rest => (digits rest).map fun n => (n : ℤ)

/-- `text.lower()` as far as it meets ASCII; the Kelvin sign is the one other letter that does. -/
def lower (text : Text) : Text :=
  text.map fun c => if c.toNat = 0x212A then 'k' else c.toLower

def isSpace (c : Char) : Bool :=
  c.toNat ∈ [0x20, 0x85, 0xA0, 0x1680, 0x2028, 0x2029, 0x202F, 0x205F, 0x3000] ∨
    (9 ≤ c.toNat ∧ c.toNat ≤ 13) ∨ (0x1C ≤ c.toNat ∧ c.toNat ≤ 0x1F) ∨
    (0x2000 ≤ c.toNat ∧ c.toNat ≤ 0x200A)

/-- `text.strip()` -/
def strip (text : Text) : Text :=
  ((text.dropWhile isSpace).reverse.dropWhile isSpace).reverse

/-- `text.split()` -/
def split (text : Text) : List Text :=
  (text.splitOnP isSpace).filter (· ≠ [])

/-- What is before the first `c`, and what is after it. -/
def partition (c : Char) (text : Text) : Text × Text :=
  (text.takeWhile (· ≠ c), (text.dropWhile (· ≠ c)).drop 1)

/-- `sorted` of a set. -/
def sortedSet (values : List ℕ) : List ℕ :=
  values.dedup.insertionSort (· ≤ ·)

/-- `range(first, last + 1, step)`, for a first value not above the last. -/
def rangeTo (first last step : ℕ) : List ℕ :=
  List.range' first ((last - first) / step + 1) step

def monthNames : List (Text × ℕ) :=
  [(['j', 'a', 'n'], 1), (['f', 'e', 'b'], 2), (['m', 'a', 'r'], 3), (['a', 'p', 'r'], 4),
    (['m', 'a', 'y'], 5), (['j', 'u', 'n'], 6), (['j', 'u', 'l'], 7), (['a', 'u', 'g'], 8),
    (['s', 'e', 'p'], 9), (['o', 'c', 't'], 10), (['n', 'o', 'v'], 11), (['d', 'e', 'c'], 12)]

def weekdayNames : List (Text × ℕ) :=
  [(['s', 'u', 'n'], 0), (['m', 'o', 'n'], 1), (['t', 'u', 'e'], 2), (['w', 'e', 'd'], 3),
    (['t', 'h', 'u'], 4), (['f', 'r', 'i'], 5), (['s', 'a', 't'], 6)]

def macros : List (Text × Text) :=
  [("@yearly".toList, "0 0 1 1 *".toList), ("@annually".toList, "0 0 1 1 *".toList),
    ("@monthly".toList, "0 0 1 * *".toList), ("@weekly".toList, "0 0 * * 0".toList),
    ("@daily".toList, "0 0 * * *".toList), ("@midnight".toList, "0 0 * * *".toList),
    ("@hourly".toList, "0 * * * *".toList)]

/-- `_parse_value` -/
def parseValue (text : Text) (low high : ℕ) (names : List (Text × ℕ)) : Option ℕ :=
  match names.lookup (lower text) with
  | some value => if low ≤ value ∧ value ≤ high then some value else none
  | none => (int text).bind fun value =>
    if (low : ℤ) ≤ value ∧ value ≤ high then some value.toNat else none

/-- The step of a part: one where none is written. -/
def parseStep (text : Text) (low high : ℕ) : Option ℕ :=
  if text = [] then some 1
  else if text.all fun c => (decimal c).isSome then
    (digits text).bind fun step => if step = 0 ∨ high - low + 1 < step then none else some step
  else none

/-- One part of a field, between two commas. -/
def parsePart (part : Text) (low high : ℕ) (names : List (Text × ℕ)) : Option (List ℕ) := do
  let (body, stepText) := partition '/' part
  let step ← parseStep stepText low high
  if body = ['*'] then some (rangeTo low high step)
  else if '-' ∈ body then do
    let (firstText, lastText) := partition '-' body
    let first ← parseValue firstText low high names
    let last ← parseValue lastText low high names
    if last < first then none else some (rangeTo first last step)
  else do
    let first ← parseValue body low high names
    some (rangeTo first (if stepText = [] then first else high) step)

/-- `_parse_field` -/
def parseField (field : Text) (low high : ℕ) (names : List (Text × ℕ)) :
    Option (List ℕ × Bool) :=
  if field = ['*'] then some (List.range' low (high + 1 - low), false)
  else ((field.splitOn ',').mapM fun part => parsePart part low high names).map fun parts =>
    (sortedSet parts.flatten, true)

/-- The most days a month can have. -/
def maxDays : ℕ → ℕ
  | 2 => 29
  | 4 => 30
  | 6 => 30
  | 9 => 30
  | 11 => 30
  | _ => 31

structure CronExpression where
  minutes : List ℕ
  hours : List ℕ
  daysOfMonth : List ℕ
  months : List ℕ
  daysOfWeek : List ℕ
  domRestricted : Bool
  dowRestricted : Bool

namespace CronExpression

/-- `CronExpression(expression)`; `none` for its `ValueError`. -/
def parse (expression : Text) : Option CronExpression :=
  let text := strip expression
  match split ((macros.lookup (lower text)).getD text) with
  | [minute, hour, dayOfMonth, month, dayOfWeek] => do
    let (minutes, _) ← parseField minute 0 59 []
    let (hours, _) ← parseField hour 0 23 []
    let (daysOfMonth, domRestricted) ← parseField dayOfMonth 1 31 []
    let (months, _) ← parseField month 1 12 monthNames
    let (days, dowRestricted) ← parseField dayOfWeek 0 7 weekdayNames
    let daysOfWeek := sortedSet (days.map fun day => if day = 7 then 0 else day)
    if domRestricted ∧ ¬ dowRestricted ∧
        ¬ (months.any fun month => daysOfMonth.any fun day => day ≤ maxDays month) then none
    else some ⟨minutes, hours, daysOfMonth, months, daysOfWeek, domRestricted, dowRestricted⟩
  | _ => none

/-- `_day_matches`, of a day. -/
def DayMatches (e : CronExpression) (n : ℤ) : Prop :=
  let domOk := (dayOf n).toNat ∈ e.daysOfMonth
  let dowOk := ((weekdayOf n + 1) % 7).toNat ∈ e.daysOfWeek
  if e.domRestricted ∧ e.dowRestricted then domOk ∨ dowOk else domOk ∧ dowOk

instance (e : CronExpression) (n : ℤ) : Decidable (e.DayMatches n) := by
  unfold DayMatches
  infer_instance

end CronExpression

/-- The day, the hour and the minute of a minute counted from the day before year 1. -/
def dayAt (t : ℤ) : ℤ := t / 1440

def hourAt (t : ℤ) : ℕ := (t % 1440 / 60).toNat

def minuteAt (t : ℤ) : ℕ := (t % 60).toNat

/-- `matches` -/
def CronExpression.Matches (e : CronExpression) (t : ℤ) : Prop :=
  minuteAt t ∈ e.minutes ∧ hourAt t ∈ e.hours ∧ monthOf (dayAt t) ∈ e.months ∧ e.DayMatches (dayAt t)

instance (e : CronExpression) (t : ℤ) : Decidable (e.Matches t) :=
  inferInstanceAs (Decidable (_ ∧ _))

/-- What the fields of an accepted expression keep to. -/
structure CronExpression.Valid (e : CronExpression) : Prop where
  minutes : e.minutes ≠ [] ∧ e.minutes.Pairwise (· < ·) ∧ ∀ m ∈ e.minutes, m < 60
  hours : e.hours ≠ [] ∧ e.hours.Pairwise (· < ·) ∧ ∀ h ∈ e.hours, h < 24
  daysOfMonth : e.daysOfMonth ≠ [] ∧ ∀ d ∈ e.daysOfMonth, 1 ≤ d ∧ d ≤ 31
  months : e.months ≠ [] ∧ ∀ m ∈ e.months, 1 ≤ m ∧ m ≤ 12
  daysOfWeek : e.daysOfWeek ≠ [] ∧ ∀ d ∈ e.daysOfWeek, d < 7
  anyDay : e.domRestricted = false → ∀ d, 1 ≤ d → d ≤ 31 → d ∈ e.daysOfMonth
  anyWeekday : e.dowRestricted = false → ∀ d < 7, d ∈ e.daysOfWeek
  reachable : e.domRestricted = true → e.dowRestricted = false →
    ∃ month ∈ e.months, ∃ day ∈ e.daysOfMonth, day ≤ maxDays month

theorem mem_sortedSet {values : List ℕ} {v : ℕ} : v ∈ sortedSet values ↔ v ∈ values := by
  unfold sortedSet
  rw [List.mem_insertionSort, List.mem_dedup]

theorem pairwise_sortedSet (values : List ℕ) : (sortedSet values).Pairwise (· < ·) := by
  have hle := List.pairwise_insertionSort (· ≤ ·) values.dedup
  have hnodup : (values.dedup.insertionSort (· ≤ ·)).Nodup :=
    (List.perm_insertionSort _ _).nodup_iff.mpr (List.nodup_dedup values)
  exact hle.imp₂ (fun _ _ hab hne => lt_of_le_of_ne hab hne) hnodup

theorem mem_rangeTo {first last step v : ℕ} (hs : 0 < step) (hle : first ≤ last) :
    v ∈ rangeTo first last step ↔ ∃ k, first + step * k ≤ last ∧ v = first + step * k := by
  unfold rangeTo
  rw [List.mem_range']
  constructor
  · rintro ⟨k, hk, rfl⟩
    refine ⟨k, ?_, rfl⟩
    have hdiv : step * ((last - first) / step) ≤ last - first := Nat.mul_div_le _ _
    have hmul := Nat.mul_le_mul_left step (Nat.lt_succ_iff.mp hk)
    omega
  · rintro ⟨k, hk, rfl⟩
    refine ⟨k, ?_, rfl⟩
    have hcount : k ≤ (last - first) / step := by
      rw [Nat.le_div_iff_mul_le hs, Nat.mul_comm]
      omega
    omega

theorem parseValue_bounds {text : Text} {low high v : ℕ} {names : List (Text × ℕ)}
    (h : parseValue text low high names = some v) : low ≤ v ∧ v ≤ high := by
  unfold parseValue at h
  split at h
  · obtain ⟨hb, heq⟩ := Option.ite_none_right_eq_some.mp h
    exact Option.some.inj heq ▸ hb
  · obtain ⟨value, -, h⟩ := Option.bind_eq_some_iff.mp h
    obtain ⟨hb, rfl⟩ := by simpa using h
    omega

theorem parseStep_bounds {text : Text} {low high step : ℕ} (h : parseStep text low high = some step) :
    0 < step := by
  unfold parseStep at h
  split_ifs at h with hnil hall
  · exact Option.some.inj h ▸ Nat.one_pos
  · obtain ⟨n, -, h⟩ := Option.bind_eq_some_iff.mp h
    obtain ⟨hn, heq⟩ := Option.ite_none_left_eq_some.mp h
    obtain rfl := Option.some.inj heq
    omega

theorem rangeTo_bounds {first last step low high : ℕ} (hs : 0 < step) (hlow : low ≤ first)
    (hle : first ≤ last) (hhigh : last ≤ high) :
    rangeTo first last step ≠ [] ∧ ∀ v ∈ rangeTo first last step, low ≤ v ∧ v ≤ high := by
  constructor
  · unfold rangeTo
    simp
  · intro v hv
    obtain ⟨k, hk, rfl⟩ := (mem_rangeTo hs hle).mp hv
    omega

theorem parsePart_bounds {part : Text} {low high : ℕ} {names : List (Text × ℕ)} {vs : List ℕ}
    (hlh : low ≤ high) (h : parsePart part low high names = some vs) :
    vs ≠ [] ∧ ∀ v ∈ vs, low ≤ v ∧ v ≤ high := by
  simp only [parsePart, bind] at h
  obtain ⟨step, hstep, h⟩ := Option.bind_eq_some_iff.mp h
  have hs := parseStep_bounds hstep
  split_ifs at h with hstar hdash hnone
  · obtain rfl := Option.some.inj h
    exact rangeTo_bounds hs le_rfl hlh le_rfl
  · obtain ⟨first, hfirst, h⟩ := Option.bind_eq_some_iff.mp h
    obtain ⟨last, hlast, h⟩ := Option.bind_eq_some_iff.mp h
    obtain ⟨hle, heq⟩ := Option.ite_none_left_eq_some.mp h
    obtain rfl := Option.some.inj heq
    exact rangeTo_bounds hs (parseValue_bounds hfirst).1 (by omega) (parseValue_bounds hlast).2
  · obtain ⟨first, hfirst, h⟩ := Option.bind_eq_some_iff.mp h
    obtain rfl := Option.some.inj h
    obtain ⟨hlow, hhigh⟩ := parseValue_bounds hfirst
    exact rangeTo_bounds hs hlow le_rfl hhigh
  · obtain ⟨first, hfirst, h⟩ := Option.bind_eq_some_iff.mp h
    obtain rfl := Option.some.inj h
    obtain ⟨hlow, hhigh⟩ := parseValue_bounds hfirst
    exact rangeTo_bounds hs hlow hhigh le_rfl

/-- What the parts of a field read as, one by one. -/
theorem forall₂_of_mapM {α β : Type} {f : α → Option β} {l : List α} {r : List β}
    (h : l.mapM f = some r) : List.Forall₂ (fun x y => f x = some y) l r := by
  induction l generalizing r with
  | nil =>
    obtain rfl : r = [] := by simpa using h.symm
    exact .nil
  | cons x l ih =>
    rw [List.mapM_cons] at h
    obtain ⟨y, hy, h⟩ := Option.bind_eq_some_iff.mp h
    obtain ⟨ys, hys, h⟩ := Option.bind_eq_some_iff.mp h
    obtain rfl := Option.some.inj h
    exact .cons hy (ih hys)

/-- A field that reads has values, in order and in its range; a bare star has all of them. -/
theorem parseField_bounds {field : Text} {low high : ℕ} {names : List (Text × ℕ)} {vs : List ℕ}
    {restricted : Bool} (hlh : low ≤ high)
    (h : parseField field low high names = some (vs, restricted)) :
    vs ≠ [] ∧ vs.Pairwise (· < ·) ∧ (∀ v ∈ vs, low ≤ v ∧ v ≤ high) ∧
      (restricted = false → ∀ v, low ≤ v → v ≤ high → v ∈ vs) := by
  unfold parseField at h
  split_ifs at h with hstar
  · obtain ⟨rfl, rfl⟩ := Prod.mk.inj (Option.some.inj h)
    refine ⟨?_, List.pairwise_lt_range', ?_, ?_⟩
    · simp
      omega
    · intro v hv
      have := List.mem_range'_1.mp hv
      omega
    · intro _ v hlow hhigh
      exact List.mem_range'_1.mpr (by omega)
  · obtain ⟨parts, hparts, heq⟩ := Option.map_eq_some_iff.mp h
    obtain ⟨rfl, rfl⟩ := Prod.mk.inj heq
    have hall := forall₂_of_mapM hparts
    have hne : parts ≠ [] := by
      rintro rfl
      exact List.splitOnP_ne_nil _ _ (List.forall₂_nil_right_iff.mp hall)
    have hbounds : ∀ vs ∈ parts, vs ≠ [] ∧ ∀ v ∈ vs, low ≤ v ∧ v ≤ high := by
      intro vs hvs
      obtain ⟨i, hi, rfl⟩ := List.getElem_of_mem hvs
      have hlen := hall.length_eq
      exact parsePart_bounds hlh (List.forall₂_iff_get.mp hall |>.2 i (by omega) hi)
    refine ⟨?_, pairwise_sortedSet _, fun v hv => ?_, by simp⟩
    · obtain ⟨vs, hvs⟩ := List.exists_mem_of_ne_nil _ hne
      obtain ⟨v, hv⟩ := List.exists_mem_of_ne_nil _ (hbounds vs hvs).1
      exact List.ne_nil_of_mem (mem_sortedSet.mpr (List.mem_flatten.mpr ⟨vs, hvs, hv⟩))
    · obtain ⟨vs, hvs, hmem⟩ := List.mem_flatten.mp (mem_sortedSet.mp hv)
      exact (hbounds vs hvs).2 v hmem

namespace CronExpression

/-- What `parse` gives once its five fields read. -/
theorem parse_fields {expression : Text} {e : CronExpression} (h : parse expression = some e) :
    ∃ minute hour dayOfMonth month dayOfWeek days bm bh bo,
      split ((macros.lookup (lower (strip expression))).getD (strip expression)) =
        [minute, hour, dayOfMonth, month, dayOfWeek] ∧
      parseField minute 0 59 [] = some (e.minutes, bm) ∧
      parseField hour 0 23 [] = some (e.hours, bh) ∧
      parseField dayOfMonth 1 31 [] = some (e.daysOfMonth, e.domRestricted) ∧
      parseField month 1 12 monthNames = some (e.months, bo) ∧
      parseField dayOfWeek 0 7 weekdayNames = some (days, e.dowRestricted) ∧
      e.daysOfWeek = sortedSet (days.map fun day => if day = 7 then 0 else day) ∧
      ¬ (e.domRestricted ∧ ¬ e.dowRestricted ∧
        ¬ (e.months.any fun month => e.daysOfMonth.any fun day => day ≤ maxDays month)) := by
  unfold parse at h
  dsimp only at h
  split at h
  · next minute hour dayOfMonth month dayOfWeek heq =>
    simp only [bind] at h
    obtain ⟨⟨minutes, bm⟩, hm, h⟩ := Option.bind_eq_some_iff.mp h
    obtain ⟨⟨hours, bh⟩, hh, h⟩ := Option.bind_eq_some_iff.mp h
    obtain ⟨⟨daysOfMonth, bd⟩, hd, h⟩ := Option.bind_eq_some_iff.mp h
    obtain ⟨⟨months, bo⟩, ho, h⟩ := Option.bind_eq_some_iff.mp h
    obtain ⟨⟨days, bw⟩, hw, h⟩ := Option.bind_eq_some_iff.mp h
    dsimp only at h
    obtain ⟨hnot, h⟩ := Option.ite_none_left_eq_some.mp h
    obtain rfl := Option.some.inj h
    exact ⟨minute, hour, dayOfMonth, month, dayOfWeek, days, bm, bh, bo, heq, hm, hh, hd, ho, hw, rfl,
      hnot⟩
  · cases h

theorem parse_valid {expression : Text} {e : CronExpression} (h : parse expression = some e) :
    e.Valid := by
  obtain ⟨_, _, _, _, _, days, _, _, _, -, hm, hh, hd, ho, hw, hdow, hnot⟩ := parse_fields h
  obtain ⟨hm1, hm2, hm3, -⟩ := parseField_bounds (by omega) hm
  obtain ⟨hh1, hh2, hh3, -⟩ := parseField_bounds (by omega) hh
  obtain ⟨hd1, -, hd3, hd4⟩ := parseField_bounds (by omega) hd
  obtain ⟨ho1, -, ho3, -⟩ := parseField_bounds (by omega) ho
  obtain ⟨hw1, -, hw3, hw4⟩ := parseField_bounds (by omega) hw
  have hmem : ∀ d, d ∈ e.daysOfWeek ↔ ∃ day ∈ days, (if day = 7 then 0 else day) = d := by
    intro d
    rw [hdow, mem_sortedSet, List.mem_map]
  refine ⟨⟨hm1, hm2, fun m hm => ?_⟩, ⟨hh1, hh2, fun h hh => ?_⟩, ⟨hd1, hd3⟩, ⟨ho1, ho3⟩, ⟨?_, ?_⟩,
    hd4, ?_, ?_⟩
  · have := hm3 m hm
    omega
  · have := hh3 h hh
    omega
  · obtain ⟨day, hday⟩ := List.exists_mem_of_ne_nil _ hw1
    exact List.ne_nil_of_mem ((hmem _).mpr ⟨day, hday, rfl⟩)
  · intro d hd
    obtain ⟨day, hday, rfl⟩ := (hmem d).mp hd
    have := hw3 day hday
    split_ifs <;> omega
  · intro hfree d hlt
    exact (hmem d).mpr ⟨d, hw4 hfree d (by omega) (by omega), if_neg (by omega)⟩
  · intro hdom hfree
    by_contra hnone
    refine hnot ⟨hdom, by simp [hfree], fun hany => hnone ?_⟩
    obtain ⟨month, hmonth, hany⟩ := List.any_eq_true.mp hany
    obtain ⟨day, hday, hle⟩ := List.any_eq_true.mp hany
    exact ⟨month, hmonth, day, hday, of_decide_eq_true hle⟩

end CronExpression

end DjangoOx
