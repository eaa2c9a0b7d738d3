import DjangoOx.Cron.Expression
import Mathlib.Order.Lattice
import Mathlib.Data.List.Lex
import Mathlib.Data.Char

/-! A crontab's five sets of values written as one cron expression. A set is a list, and a mask is
the list of its values from the lowest up. -/
namespace DjangoOx

/-- One crontab field: its column, and the range it is expanded over. -/
structure CrontabField where
  column : String
  low : ℕ
  high : ℕ
  deriving DecidableEq

def minuteField : CrontabField := ⟨"minute", 0, 59⟩

def hourField : CrontabField := ⟨"hour", 0, 23⟩

def dayOfMonthField : CrontabField := ⟨"day_of_month", 1, 31⟩

def monthField : CrontabField := ⟨"month_of_year", 1, 12⟩

def dayOfWeekField : CrontabField := ⟨"day_of_week", 0, 6⟩

/-- The values a stored crontab fires on. -/
structure CrontabSets where
  minutes : List ℕ
  hours : List ℕ
  days : List ℕ
  months : List ℕ
  weekdays : List ℕ

/-- The values of a field, each once and in order. -/
def CrontabField.whole (field : CrontabField) : List ℕ :=
  List.range' field.low (field.high + 1 - field.low)

/-- `_narrows` -/
def narrows (values : List ℕ) (field : CrontabField) : Bool :=
  (sortedSet values).length < field.high - field.low + 1

/-- `LONGEST_MONTHS` -/
def longestMonths : ℕ → ℕ
  | 2 => 29
  | 4 => 30
  | 6 => 30
  | 9 => 30
  | 11 => 30
  | _ => 31

/-- `without_redundant_days` -/
def withoutRedundantDays (fields : CrontabSets) : CrontabSets :=
  if narrows fields.weekdays dayOfWeekField ∧ ∀ month ∈ fields.months,
      ∀ day ∈ List.range' 1 (longestMonths month), day ∈ fields.days then
    { fields with days := dayOfMonthField.whole }
  else fields

/-- `narrows_both_day_fields` -/
def narrowsBothDayFields (fields : CrontabSets) : Bool :=
  narrows fields.days dayOfMonthField && narrows fields.weekdays dayOfWeekField

/-- `str(n)` -/
def str (n : ℕ) : Text := Nat.toDigits 10 n

/-- `f"{first}-{last}"` -/
def rangeText (first last : ℕ) : Text := str first ++ '-' :: str last

/-- `f"{text}/{step}"` -/
def stepText (text : Text) (step : ℕ) : Text := text ++ '/' :: str step

/-- `",".join(parts)` -/
def joined (parts : List Text) : Text := [','].intercalate parts

/-- How far the values go on at one distance: the last that does, how many more there are, and what
is left. -/
def stretch (step : ℕ) : ℕ → List ℕ → ℕ × ℕ × List ℕ
  | last, [] => (last, 0, [])
  | last, next :: rest =>
    if next - last = step then
      let (last, count, rest) := stretch step next rest
      (last, count + 1, rest)
    else (last, 0, next :: rest)

/-- The parts of `_written` from a value on. Three values make a step; the second of a pair is looked
at afresh. -/
def writtenParts : ℕ → List ℕ → List Text
  | 0, _ => []
  | _, [] => []
  | _, [first] => [str first]
  | fuel + 1, first :: next :: rest =>
    let step := next - first
    let (last, count, left) := stretch step next rest
    if step = 1 then rangeText first last :: writtenParts fuel left
    else if 3 ≤ count + 2 then stepText (rangeText first last) step :: writtenParts fuel left
    else str first :: writtenParts fuel (next :: rest)

/-- `_written` -/
def written (values : List ℕ) (field : CrontabField) : Text :=
  let ordered := sortedSet values
  if ordered = field.whole then ['*']
  else
    match ordered with
    | first :: second :: _ :: _ =>
      if ordered = rangeTo field.low field.high (second - first) then
        stepText ['*'] (second - first)
      else joined (writtenParts ordered.length ordered)
    | _ => joined (writtenParts ordered.length ordered)

/-- `expression` -/
def expression (fields : CrontabSets) : Text :=
  [' '].intercalate [written fields.minutes minuteField, written fields.hours hourField,
    written fields.days dayOfMonthField, written fields.months monthField,
    written fields.weekdays dayOfWeekField]

/-- `min(texts, key=len)`, the first of the shortest. -/
def minByLength (text : Text) (texts : List Text) : Text :=
  texts.foldl (fun best text => if text.length < best.length then text else best) text

/-- `_progression`: the shortest spelling, and of those the last listed. -/
def progression (first step count : ℕ) (field : CrontabField) : Text :=
  let last := first + step * (count - 1)
  let top := if field = dayOfWeekField then 7 else field.high
  let spellings := [stepText (rangeText first last) step] ++
    (if step = 1 then [rangeText first last] else []) ++
    (if top < last + step then
      [stepText (str first) step] ++ (if first = field.low then [stepText ['*'] step] else [])
    else [])
  match spellings.reverse with
  | [] => []
  | text :: texts => minByLength text texts

/-- How many values of the set a progression takes from `count` on. -/
def progressionLength (held : List ℕ) (first step high : ℕ) : ℕ → ℕ → ℕ
  | 0, count => count
  | fuel + 1, count =>
    if first + step * count ≤ high ∧ first + step * count ∈ held then
      progressionLength held first step high fuel (count + 1)
    else count

/-- Every progression of two values or more that the set holds, from its first value as far as the
set goes. -/
def candidates (ordered : List ℕ) (field : CrontabField) : List (List ℕ × Text) :=
  ordered.flatMap fun first =>
    (List.range' 1 (field.high - field.low)).filterMap fun step =>
      if field.low + step ≤ first ∧ first - step ∈ ordered then none
      else
        let count := progressionLength ordered first step field.high (field.high + 1) 1
        if 2 ≤ count then
          some ((List.range count).map fun k => first + step * k, progression first step count field)
        else none

/-- `_listed`: the length of values written out, each with its comma. -/
def listed (mask : List ℕ) : ℤ :=
  let oneDigit := mask.countP (· < 10)
  2 * oneDigit + 3 * (mask.length - oneDigit)

/-- A cover's parts in order of their first values, and then of their texts. -/
def sortedParts (parts : List (ℕ × Text)) : Text :=
  joined ((parts.insertionSort fun a b => a.1 < b.1 ∨ a.1 = b.1 ∧ a.2 ≤ b.2).map (·.2))

/-- The candidate that saves the most characters, if one saves any. -/
def mostSaving (candidates : List (List ℕ × Text)) (left : List ℕ) : Option (List ℕ × Text) :=
  (candidates.foldl (fun (best : Option (List ℕ × Text) × ℤ) candidate =>
    let saving := listed (candidate.1.filter (· ∈ left)) - (candidate.2.length + 1)
    if best.2 < saving then (some candidate, saving) else best) (none, 0)).1

/-- The rounds of `_by_saving`. -/
def savingRounds (candidates : List (List ℕ × Text)) :
    ℕ → List ℕ → List (ℕ × Text) → List ℕ × List (ℕ × Text)
  | 0, left, parts => (left, parts)
  | fuel + 1, left, parts =>
    match mostSaving candidates left with
    | none => (left, parts)
    | some (mask, text) =>
      savingRounds candidates fuel (left.filter (· ∉ mask)) (parts ++ [(mask.headD 0, text)])

/-- `_by_saving` -/
def bySaving (candidates : List (List ℕ × Text)) (ordered : List ℕ) : Text :=
  let (left, parts) := savingRounds candidates (ordered.length + 1) ordered []
  sortedParts (parts ++ (ordered.filter (· ∈ left)).map fun value => (value, str value))

/-- The choice that costs the fewest characters a newly covered value, and of two the same the one
that covers more. -/
def bestRate (choices : List (List ℕ × Text)) (left : List ℕ) : Option (List ℕ × Text) × ℕ × ℕ :=
  choices.foldl (fun (best : Option (List ℕ × Text) × ℕ × ℕ) choice =>
    let (_, cost, covers) := best
    let new := (choice.1.filter (· ∈ left)).length
    if new ≠ 0 ∧ (covers = 0 ∨ (choice.2.length + 1) * covers < cost * new ∨
        ((choice.2.length + 1) * covers = cost * new ∧ covers < new)) then
      (some choice, choice.2.length + 1, new)
    else best) (choices.head?, 0, 0)

/-- The rounds of `_by_rate`. -/
def rateRounds (choices : List (List ℕ × Text)) :
    ℕ → List ℕ → List (ℕ × Text) → List ℕ × List (ℕ × Text)
  | 0, left, parts => (left, parts)
  | fuel + 1, left, parts =>
    if left = [] then (left, parts)
    else match (bestRate choices left).1 with
      | none => (left, parts)
      | some (mask, text) =>
        rateRounds choices fuel (left.filter (· ∉ mask)) (parts ++ [(mask.headD 0, text)])

/-- `_by_rate` -/
def byRate (candidates : List (List ℕ × Text)) (ordered : List ℕ) : Text :=
  let choices := candidates ++ ordered.map fun value => ([value], str value)
  sortedParts (rateRounds choices (ordered.length + 1) ordered []).2

/-- `_covered` -/
def covered (values : List ℕ) (field : CrontabField) : Text :=
  let ordered := sortedSet values
  if ordered = field.whole then ['*']
  else
    let candidates := candidates ordered field
    minByLength (bySaving candidates ordered) [byRate candidates ordered]

/-- `shortest` -/
def shortest (fields : CrontabSets) (limit : ℤ) : Text :=
  if (expression fields).length ≤ limit then expression fields
  else
    let field (values : List ℕ) (field : CrontabField) : Text :=
      minByLength (written values field) [covered values field]
    [' '].intercalate [field fields.minutes minuteField, field fields.hours hourField,
      field fields.days dayOfMonthField, field fields.months monthField,
      field fields.weekdays dayOfWeekField]

end DjangoOx
