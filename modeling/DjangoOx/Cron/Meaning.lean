import DjangoOx.Cron.Covering

/-! A stored crontab, printed as one cron expression and read back, fires on the same minutes. -/
namespace DjangoOx

open Calendar

/-- Celery's reading: every field allows the minute. -/
def CrontabSets.FiresAt (sets : CrontabSets) (t : ℤ) : Prop :=
  minuteAt t ∈ sets.minutes ∧ hourAt t ∈ sets.hours ∧ (dayOf (dayAt t)).toNat ∈ sets.days ∧
    monthOf (dayAt t) ∈ sets.months ∧ ((weekdayOf (dayAt t) + 1) % 7).toNat ∈ sets.weekdays

/-- A field's values: some, and in its range. -/
def CrontabField.Holds (field : CrontabField) (values : List ℕ) : Prop :=
  values ≠ [] ∧ ∀ v ∈ values, field.low ≤ v ∧ v ≤ field.high

structure CrontabSets.Ok (sets : CrontabSets) : Prop where
  minutes : minuteField.Holds sets.minutes
  hours : hourField.Holds sets.hours
  days : dayOfMonthField.Holds sets.days
  months : monthField.Holds sets.months
  weekdays : dayOfWeekField.Holds sets.weekdays

theorem readTo_minute : minuteField.ReadTo 59 [] := ⟨named_nil, by decide, by decide⟩

theorem readTo_hour : hourField.ReadTo 23 [] := ⟨named_nil, by decide, by decide⟩

theorem readTo_dayOfMonth : dayOfMonthField.ReadTo 31 [] := ⟨named_nil, by decide, by decide⟩

theorem readTo_month : monthField.ReadTo 12 monthNames := ⟨named_months, by decide, by decide⟩

theorem readTo_dayOfWeek : dayOfWeekField.ReadTo 7 weekdayNames :=
  ⟨named_weekdays, by decide, by decide⟩

theorem CrontabField.mem_whole {field : CrontabField} {v : ℕ} (hlt : field.low < field.high) :
    v ∈ field.whole ↔ field.low ≤ v ∧ v ≤ field.high := by
  unfold CrontabField.whole
  rw [List.mem_range'_1]
  omega

/-- A set that is not the whole field has fewer values than it. -/
theorem narrows_of_ne_whole {field : CrontabField} {values : List ℕ} (hlt : field.low < field.high)
    (hin : ∀ v ∈ values, field.low ≤ v ∧ v ≤ field.high) (hne : sortedSet values ≠ field.whole) :
    narrows values field = true := by
  have hsorted := pairwise_sortedSet values
  have hnodup : (sortedSet values).Nodup := hsorted.imp (fun h => h.ne)
  have hsub : sortedSet values ⊆ field.whole := by
    intro v hv
    exact (CrontabField.mem_whole hlt).mpr (hin v (mem_sortedSet.mp hv))
  have hlen : field.whole.length = field.high - field.low + 1 := by
    unfold CrontabField.whole
    rw [List.length_range']
    omega
  have hperm := List.subperm_of_subset hnodup hsub
  unfold narrows
  rw [decide_eq_true_eq]
  by_contra hnot
  have heq := hperm.perm_of_length_le (by omega)
  apply hne
  have hwhole : field.whole.Pairwise (· < ·) := List.pairwise_lt_range'
  exact heq.eq_of_pairwise (fun a b _ _ hab hba => absurd hab (lt_asymm hba)) hsorted hwhole

section

variable {field : CrontabField} {top : ℕ} {names : List (Text × ℕ)} {values : List ℕ} {text : Text}

theorem Prints.noSpace (h : Prints field top names values text) : ∀ c ∈ text, isSpace c = false := by
  unfold Prints at h
  split_ifs at h with hwhole
  · intro c hc
    rw [h] at hc
    obtain rfl := List.mem_singleton.mp hc
    decide
  · obtain ⟨parts, rfl, hcovers⟩ := h
    exact hcovers.noSpace

theorem Prints.ne_nil (h : Prints field top names values text) (hne : values ≠ []) : text ≠ [] := by
  unfold Prints at h
  split_ifs at h with hwhole
  · simp [h]
  · obtain ⟨parts, rfl, hcovers⟩ := h
    obtain ⟨v, hv⟩ := List.exists_mem_of_ne_nil _ hne
    have hsorted : sortedSet values ≠ [] := List.ne_nil_of_mem (mem_sortedSet.mpr hv)
    intro hnil
    have hsplit := hcovers.splitOn hsorted
    rw [hnil] at hsplit
    obtain ⟨held, hspell, -⟩ := hcovers.sound [] (by rw [← hsplit]; decide)
    exact hspell.ne_nil rfl

/-- What a printed field reads as. -/
theorem Prints.reads (hf : field.ReadTo top names) (hin : field.Holds values)
    (h : Prints field top names values text) {out : List ℕ} {restricted : Bool}
    (hread : parseField text field.low top names = some (out, restricted)) :
    (restricted = true → narrows values field = true ∧ ∀ v ∈ out, v ≤ field.high) ∧
      ∀ v, field.low ≤ v → v ≤ field.high → (v ∈ out ↔ v ∈ values) := by
  have htop := hf.high_le
  unfold Prints at h
  split_ifs at h with hwhole
  · subst h
    unfold parseField at hread
    rw [if_pos rfl] at hread
    obtain ⟨rfl, rfl⟩ := Prod.mk.inj (Option.some.inj hread)
    refine ⟨by simp, fun v hlow hhigh => ?_⟩
    have hall : v ∈ values := by
      rw [← mem_sortedSet, hwhole, CrontabField.mem_whole hf.lt]
      exact ⟨hlow, hhigh⟩
    rw [iff_true_right hall, List.mem_range'_1]
    omega
  · obtain ⟨parts, rfl, hcovers⟩ := h
    obtain ⟨v, hv⟩ := List.exists_mem_of_ne_nil _ hin.1
    have hne : sortedSet values ≠ [] := List.ne_nil_of_mem (mem_sortedSet.mpr hv)
    obtain ⟨read, hread', hmem⟩ := hcovers.parseField hne
    rw [hread'] at hread
    obtain ⟨rfl, rfl⟩ := Prod.mk.inj (Option.some.inj hread)
    refine ⟨fun _ => ⟨narrows_of_ne_whole hf.lt hin.2 hwhole, fun v hv => ?_⟩, fun v _ _ => ?_⟩
    · exact (hin.2 v (mem_sortedSet.mp ((hmem v).mp hv))).2
    · rw [hmem, mem_sortedSet]

end

/-- Fields separated by spaces are split back. -/
theorem split_intercalate {texts : List Text} (hspace : ∀ text ∈ texts, ∀ c ∈ text, isSpace c = false)
    (hne : ∀ text ∈ texts, text ≠ []) (htexts : texts ≠ []) :
    split ([' '].intercalate texts) = texts := by
  have hsplit : ([' '].intercalate texts).splitOnP isSpace = texts := by
    induction texts with
    | nil => exact absurd rfl htexts
    | cons text texts ih =>
      have htext := hspace text List.mem_cons_self
      match texts, ih, hspace, hne with
      | [], _, _, _ => simpa using List.splitOnP_eq_singleton htext
      | next :: rest, ih, hspace, hne =>
        rw [List.intercalate_cons_cons, List.append_assoc]
        change (text ++ ' ' :: [' '].intercalate (next :: rest)).splitOnP isSpace = _
        rw [List.splitOnP_append_cons_of_forall_mem htext ' ' (by decide)]
        rw [ih (fun t ht => hspace t (List.mem_cons_of_mem _ ht))
          (fun t ht => hne t (List.mem_cons_of_mem _ ht)) (by simp)]
  unfold split
  rw [hsplit, List.filter_eq_self]
  simpa using hne

/-- Text that starts and ends with no white space is left as it is. -/
theorem strip_eq {first last : Text} (middle : Text) (hfirst : ∀ c ∈ first, isSpace c = false)
    (hlast : ∀ c ∈ last, isSpace c = false) (hf : first ≠ []) (hl : last ≠ []) :
    strip (first ++ (middle ++ last)) = first ++ (middle ++ last) := by
  have hdrop : ∀ (text rest : Text), text ≠ [] → (∀ c ∈ text, isSpace c = false) →
      (text ++ rest).dropWhile isSpace = text ++ rest := by
    intro text rest hne htext
    match text, hne with
    | c :: text, _ =>
      rw [List.cons_append]
      exact List.dropWhile_cons_of_neg (by simp [htext c List.mem_cons_self])
  unfold strip
  rw [hdrop first _ hf hfirst]
  have hrev : (first ++ (middle ++ last)).reverse = last.reverse ++ (middle.reverse ++ first.reverse) := by
    simp
  rw [hrev, hdrop last.reverse _ (by simpa using hl) (by simpa using hlast), ← hrev,
    List.reverse_reverse]

/-- A text with a space in it is no macro. -/
theorem lookup_macros {text : Text} (h : ' ' ∈ text) : macros.lookup (lower text) = none := by
  have hkeys : ∀ p ∈ macros, ' ' ∉ p.1 := by decide +kernel
  have hspace : ' ' ∈ lower text := by
    unfold lower
    exact List.mem_map.mpr ⟨' ', h, by decide⟩
  rw [List.lookup_eq_none_iff]
  intro p hp
  by_contra heq
  have : lower text = p.1 := by simpa using heq
  exact hkeys p hp (this ▸ hspace)

/-- A set of days dropped as redundant left out no date. -/
theorem daysInMonth_le_longest (y : ℤ) (m : ℕ) : daysInMonth y m ≤ longestMonths m := by
  have hleap := leapDay_bounds y
  unfold daysInMonth longestMonths
  split
  · push_cast
    omega
  all_goals simp

theorem dayOf_le_longest (n : ℤ) : 1 ≤ (dayOf n).toNat ∧ (dayOf n).toNat ≤ longestMonths (monthOf n) := by
  obtain ⟨hlow, hhigh⟩ := dayOf_bounds n
  have hlongest := daysInMonth_le_longest (yearOf n) (monthOf n)
  omega

theorem longestMonths_le (m : ℕ) : longestMonths m ≤ 31 := by
  unfold longestMonths
  split <;> omega

theorem CrontabSets.Ok.withoutRedundantDays {sets : CrontabSets} (h : sets.Ok) :
    (withoutRedundantDays sets).Ok := by
  unfold DjangoOx.withoutRedundantDays
  split_ifs with hdays
  · have hwhole : dayOfMonthField.whole ≠ [] := by decide
    exact ⟨h.minutes, h.hours, ⟨hwhole, fun v hv => (CrontabField.mem_whole (by decide)).mp hv⟩,
      h.months, h.weekdays⟩
  · exact h

theorem firesAt_withoutRedundantDays (sets : CrontabSets) (t : ℤ) :
    (withoutRedundantDays sets).FiresAt t ↔ sets.FiresAt t := by
  unfold withoutRedundantDays
  split_ifs with hdays
  · obtain ⟨-, hall⟩ := hdays
    obtain ⟨hlow, hhigh⟩ := dayOf_le_longest (dayAt t)
    have hwhole : (dayOf (dayAt t)).toNat ∈ dayOfMonthField.whole := by
      rw [CrontabField.mem_whole (by decide)]
      exact ⟨hlow, hhigh.trans (longestMonths_le _)⟩
    have hdate : monthOf (dayAt t) ∈ sets.months → (dayOf (dayAt t)).toNat ∈ sets.days := by
      intro hmonth
      apply hall _ hmonth
      rw [List.mem_range'_1]
      omega
    unfold CrontabSets.FiresAt
    constructor
    · rintro ⟨hm, hh, -, hmonth, hw⟩
      exact ⟨hm, hh, hdate hmonth, hmonth, hw⟩
    · rintro ⟨hm, hh, -, hmonth, hw⟩
      exact ⟨hm, hh, hwhole, hmonth, hw⟩
  · exact Iff.rfl

/-- Either printer's text of five fields. -/
theorem shortest_prints {sets : CrontabSets} (h : sets.Ok) (limit : ℤ) :
    ∃ minute hour dayOfMonth month dayOfWeek,
      shortest sets limit = [' '].intercalate [minute, hour, dayOfMonth, month, dayOfWeek] ∧
      Prints minuteField 59 [] sets.minutes minute ∧ Prints hourField 23 [] sets.hours hour ∧
      Prints dayOfMonthField 31 [] sets.days dayOfMonth ∧
      Prints monthField 12 monthNames sets.months month ∧
      Prints dayOfWeekField 7 weekdayNames sets.weekdays dayOfWeek := by
  have hfield : ∀ {field : CrontabField} {top : ℕ} {names : List (Text × ℕ)} {values : List ℕ},
      field.ReadTo top names → field.Holds values → Prints field top names values
        (minByLength (written values field) [covered values field]) := by
    intro field top names values hf hin
    rcases List.mem_cons.mp (minByLength_mem (written values field) [covered values field]) with heq | hmem
    · rw [heq]
      exact prints_written hf hin.2
    · rw [List.mem_singleton.mp hmem]
      exact prints_covered hf hin.2
  unfold shortest
  split_ifs with hfits
  · exact ⟨_, _, _, _, _, rfl, prints_written readTo_minute h.minutes.2,
      prints_written readTo_hour h.hours.2, prints_written readTo_dayOfMonth h.days.2,
      prints_written readTo_month h.months.2, prints_written readTo_dayOfWeek h.weekdays.2⟩
  · exact ⟨_, _, _, _, _, rfl, hfield readTo_minute h.minutes, hfield readTo_hour h.hours,
      hfield readTo_dayOfMonth h.days, hfield readTo_month h.months,
      hfield readTo_dayOfWeek h.weekdays⟩

/-- Five fields joined by spaces are read as the five. -/
theorem split_fields {minute hour dayOfMonth month dayOfWeek : Text}
    (hspace : ∀ text ∈ [minute, hour, dayOfMonth, month, dayOfWeek], ∀ c ∈ text, isSpace c = false)
    (hne : ∀ text ∈ [minute, hour, dayOfMonth, month, dayOfWeek], text ≠ []) :
    let text := strip ([' '].intercalate [minute, hour, dayOfMonth, month, dayOfWeek])
    split ((macros.lookup (lower text)).getD text) = [minute, hour, dayOfMonth, month, dayOfWeek] := by
  intro text
  have htext : [' '].intercalate [minute, hour, dayOfMonth, month, dayOfWeek] =
      minute ++ ((' ' :: hour ++ ' ' :: dayOfMonth ++ ' ' :: month ++ [' ']) ++ dayOfWeek) := by
    simp [List.intercalate_cons_cons]
  have hstrip : text = [' '].intercalate [minute, hour, dayOfMonth, month, dayOfWeek] := by
    change strip _ = _
    rw [htext]
    exact strip_eq _ (hspace minute (by simp)) (hspace dayOfWeek (by simp)) (hne minute (by simp))
      (hne dayOfWeek (by simp))
  have hmem : ' ' ∈ text := by
    rw [hstrip, htext]
    simp
  rw [lookup_macros hmem, Option.getD_none, hstrip]
  exact split_intercalate hspace hne (by simp)

/-- The printed expression, read back, matches the minutes that all five sets allow. -/
theorem matches_shortest {sets : CrontabSets} (hok : sets.Ok) (limit : ℤ) {e : CronExpression}
    (hboth : narrowsBothDayFields sets = false)
    (h : CronExpression.parse (shortest sets limit) = some e) (t : ℤ) :
    e.Matches t ↔ sets.FiresAt t := by
  obtain ⟨minute, hour, dayOfMonth, month, dayOfWeek, htext, pm, ph, pd, po, pw⟩ :=
    shortest_prints hok limit
  rw [htext] at h
  obtain ⟨_, _, _, _, _, days, _, _, _, hsplit, hm, hh, hd, ho, hw, hdow, -⟩ :=
    CronExpression.parse_fields h
  have hspace : ∀ text ∈ [minute, hour, dayOfMonth, month, dayOfWeek], ∀ c ∈ text,
      isSpace c = false := by
    simp only [List.forall_mem_cons]
    exact ⟨pm.noSpace, ph.noSpace, pd.noSpace, po.noSpace, pw.noSpace, by simp⟩
  have hne : ∀ text ∈ [minute, hour, dayOfMonth, month, dayOfWeek], text ≠ [] := by
    simp only [List.forall_mem_cons]
    exact ⟨pm.ne_nil hok.minutes.1, ph.ne_nil hok.hours.1, pd.ne_nil hok.days.1,
      po.ne_nil hok.months.1, pw.ne_nil hok.weekdays.1, by simp⟩
  rw [split_fields hspace hne] at hsplit
  injection hsplit with h1 hsplit
  injection hsplit with h2 hsplit
  injection hsplit with h3 hsplit
  injection hsplit with h4 hsplit
  injection hsplit with h5 hsplit
  subst h1 h2 h3 h4 h5
  obtain ⟨-, hminute⟩ := pm.reads readTo_minute hok.minutes hm
  obtain ⟨-, hhour⟩ := ph.reads readTo_hour hok.hours hh
  obtain ⟨hdom, hday⟩ := pd.reads readTo_dayOfMonth hok.days hd
  obtain ⟨-, hmonth⟩ := po.reads readTo_month hok.months ho
  obtain ⟨hdowr, hweekday⟩ := pw.reads readTo_dayOfWeek hok.weekdays hw
  have hfree := (parseField_bounds (by omega) hw).2.2.2
  -- At most one day field narrows, so both have to allow the day.
  have hone : ¬ (e.domRestricted ∧ e.dowRestricted) := by
    rintro ⟨h1, h2⟩
    simp [narrowsBothDayFields, (hdom h1).1, (hdowr h2).1] at hboth
  have hw7 : ∀ w ≤ 6, (w ∈ e.daysOfWeek ↔ w ∈ sets.weekdays) := by
    intro w hle
    rw [hdow, mem_sortedSet, List.mem_map, ← hweekday w (Nat.zero_le w) hle]
    constructor
    · rintro ⟨day, hday, heq⟩
      split_ifs at heq with hseven
      · cases hrestricted : e.dowRestricted with
        | false => exact hfree hrestricted w (Nat.zero_le w) (by omega)
        | true =>
          have hle := (hdowr hrestricted).2 day hday
          exact absurd hle (by rw [hseven]; decide)
      · exact heq ▸ hday
    · intro hmem
      exact ⟨w, hmem, if_neg (by omega)⟩
  obtain ⟨hdlow, hdhigh⟩ := dayOf_le_longest (dayAt t)
  obtain ⟨holow, hohigh, -⟩ := monthOf_spec (dayAt t)
  have hweek : ((weekdayOf (dayAt t) + 1) % 7).toNat ≤ 6 := by omega
  have hmin : minuteAt t ≤ 59 := by
    unfold minuteAt
    omega
  have hhr : hourAt t ≤ 23 := by
    unfold hourAt
    omega
  unfold CronExpression.Matches CronExpression.DayMatches CrontabSets.FiresAt
  dsimp only
  rw [if_neg hone, hminute _ (Nat.zero_le _) hmin, hhour _ (Nat.zero_le _) hhr,
    hmonth _ holow hohigh, hday _ hdlow (hdhigh.trans (longestMonths_le _)), hw7 _ hweek]
  constructor
  · rintro ⟨hm, hh, ho, hd, hw⟩
    exact ⟨hm, hh, hd, ho, hw⟩
  · rintro ⟨hm, hh, hd, ho, hw⟩
    exact ⟨hm, hh, ho, hd, hw⟩

/-- A crontab whose day fields do not both narrow, once a redundant day of the month is dropped,
means what its printed expression does: the minutes all five of its own sets allow. -/
theorem shortest_exact {sets : CrontabSets} (hok : sets.Ok) (limit : ℤ) {e : CronExpression}
    (hboth : narrowsBothDayFields (withoutRedundantDays sets) = false)
    (h : CronExpression.parse (shortest (withoutRedundantDays sets) limit) = some e) (t : ℤ) :
    e.Matches t ↔ sets.FiresAt t :=
  (matches_shortest hok.withoutRedundantDays limit hboth h t).trans
    (firesAt_withoutRedundantDays sets t)

/-- Every fifth minute and every fifth from the second, on Mondays in February. -/
theorem shortest_exact_february : ∃ e sets,
    sets = CrontabSets.mk [0, 2, 5, 7, 10, 12] [9] (List.range' 1 29) [2] [1] ∧
    CronExpression.parse (shortest (withoutRedundantDays sets) 20) = some e ∧
    ∀ t, e.Matches t ↔ sets.FiresAt t := by
  let sets := CrontabSets.mk [0, 2, 5, 7, 10, 12] [9] (List.range' 1 29) [2] [1]
  have hok : sets.Ok := by
    constructor <;> exact ⟨by decide, by decide⟩
  obtain ⟨e, he⟩ : ∃ e, CronExpression.parse (shortest (withoutRedundantDays sets) 20) = some e :=
    Option.isSome_iff_exists.mp (by decide +kernel)
  exact ⟨e, sets, rfl, he, fun t => shortest_exact hok 20 (by decide +kernel) he t⟩

end DjangoOx
