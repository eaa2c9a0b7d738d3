import DjangoOx.Cron.Exact
import DjangoOx.Machine.Offsets

/-! The instant a dispatch pass derives in a zone whose clock repeats hours. -/
namespace DjangoOx

open Calendar

/-- A zone by its offsets, as `zoneinfo` reads one: the fold is set on the second pass. -/
def Zone.ofOffsets (o : Offsets) : Zone where
  localtime now := ⟨o.label now, o.again now⟩
  makeAware t := o.instant t.clock t.fold

def CronExpression.trigger (e : CronExpression) : Trigger := ⟨e.previous⟩

/-- The ticks of an expression, as clock readings. -/
def CronExpression.ticks (e : CronExpression) : Set ℤ :=
  {x | ∃ t, e.Matches t ∧ x = (WallTime.ofMinute t false).clock}

/-- The walk back from a minute stays in its hour, or in an earlier hour of its day where the hour is
not one of the expression's: it replaces hour and minute, and the fold is kept. -/
def CronExpression.KeepsFold (e : CronExpression) (t : ℤ) : Prop :=
  monthOf (dayAt t) ∈ e.months ∧ e.DayMatches (dayAt t) ∧
    if hourAt t ∈ e.hours then ∃ m ∈ e.minutes, m ≤ minuteAt t else ∃ h ∈ e.hours, h < hourAt t

instance (e : CronExpression) (t : ℤ) : Decidable (e.KeepsFold t) := by
  unfold CronExpression.KeepsFold
  infer_instance

namespace CronExpression

variable {e : CronExpression} {cur t g bound : ℤ} {fuel : ℕ} {fold : Bool}

/-- A jump by `replace` is one the walk may go on from with the fold; any other one loses it. -/
theorem stepBack_keeps (hv : e.Valid) {keeps : Bool} (h : e.stepBack cur = some (t, keeps)) :
    if keeps then e.KeepsFold cur ∧ e.KeepsFold t else ¬ e.KeepsFold cur := by
  obtain ⟨hh, hm, hcur, hh24, hm60⟩ := clock_fields cur
  unfold stepBack at h
  dsimp only at h
  split_ifs at h with hmonth hmatch hhour hminute
  · split at h
    · next minute hfound =>
      obtain ⟨rfl, rfl⟩ := Prod.mk.inj (Option.some.inj h)
      obtain ⟨hmem, hlt, -⟩ := getLast_filter_lt hv.minutes.2.1 hfound
      have hday : dayAt (cur - minuteAt cur + minute) = dayAt cur := by
        unfold dayAt at *
        omega
      have hhour' : hourAt (cur - minuteAt cur + minute) = hourAt cur := by
        unfold hourAt at *
        omega
      have hmin' : minuteAt (cur - minuteAt cur + minute) = minute := by
        unfold minuteAt at *
        omega
      unfold KeepsFold
      rw [hday, hhour', hmin', if_pos hhour, if_pos hhour]
      exact ⟨⟨hmonth, hmatch, minute, hmem, hlt.le⟩, hmonth, hmatch, minute, hmem, le_rfl⟩
    · next hfound =>
      obtain ⟨rfl, rfl⟩ := Prod.mk.inj (Option.some.inj h)
      have hnone := List.filter_eq_nil_iff.mp (List.getLast?_eq_none_iff.mp hfound)
      rintro ⟨-, -, hkeep⟩
      rw [if_pos hhour] at hkeep
      obtain ⟨m, hmem, hle⟩ := hkeep
      have hne : m ≠ minuteAt cur := by
        rintro rfl
        exact hminute hmem
      exact hnone m hmem (decide_eq_true (by omega))
  · split at h
    · next hour hfound =>
      obtain ⟨rfl, rfl⟩ := Prod.mk.inj (Option.some.inj h)
      obtain ⟨hmem, hlt, -⟩ := getLast_filter_lt hv.hours.2.1 hfound
      have hday : dayAt (dayAt cur * 1440 + hour * 60 + 59) = dayAt cur := by
        unfold dayAt at *
        omega
      have hhour' : hourAt (dayAt cur * 1440 + hour * 60 + 59) = hour := by
        unfold hourAt at *
        omega
      have hmin' : minuteAt (dayAt cur * 1440 + hour * 60 + 59) = 59 := by
        unfold minuteAt at *
        omega
      obtain ⟨m, hm'⟩ := List.exists_mem_of_ne_nil _ hv.minutes.1
      have hm60' := hv.minutes.2.2 m hm'
      unfold KeepsFold
      rw [hday, hhour', hmin', if_neg hhour, if_pos hmem]
      exact ⟨⟨hmonth, hmatch, hour, hmem, hlt⟩, hmonth, hmatch, m, hm', by omega⟩
    · next hfound =>
      obtain ⟨rfl, rfl⟩ := Prod.mk.inj (Option.some.inj h)
      have hnone := List.filter_eq_nil_iff.mp (List.getLast?_eq_none_iff.mp hfound)
      rintro ⟨-, -, hkeep⟩
      rw [if_neg hhour] at hkeep
      obtain ⟨hour, hmem, hlt⟩ := hkeep
      exact hnone hour hmem (decide_eq_true hlt)
  · obtain ⟨rfl, rfl⟩ := Prod.mk.inj (Option.some.inj h)
    exact fun hkeep => hmatch hkeep.2.1
  · obtain ⟨rfl, rfl⟩ := Prod.mk.inj (Option.some.inj h)
    exact fun hkeep => hmonth hkeep.1

theorem keepsFold_of_matches (h : e.Matches cur) : e.KeepsFold cur := by
  obtain ⟨hminute, hhour, hmonth, hday⟩ := h
  unfold KeepsFold
  rw [if_pos hhour]
  exact ⟨hmonth, hday, _, hminute, le_rfl⟩

/-- The fold the walk ends with. -/
theorem previousFrom_fold (hv : e.Valid) {fold' : Bool}
    (h : e.previousFrom bound fuel cur fold = some (g, fold')) :
    fold' = (if e.KeepsFold cur then fold else false) := by
  induction fuel generalizing cur fold with
  | zero => cases h
  | succ fuel ih =>
    unfold previousFrom at h
    obtain ⟨-, h⟩ := Option.ite_none_left_eq_some.mp h
    cases hstep : e.stepBack cur with
    | none =>
      rw [hstep] at h
      obtain ⟨-, rfl⟩ := Prod.mk.inj (Option.some.inj h)
      rw [if_pos (keepsFold_of_matches (stepBack_none hstep))]
    | some jump =>
      obtain ⟨t, keeps⟩ := jump
      have hkeeps := stepBack_keeps hv hstep
      rw [hstep] at h
      cases keeps with
      | true =>
        obtain ⟨hcur, ht⟩ : e.KeepsFold cur ∧ e.KeepsFold t := hkeeps
        rw [ih h, if_pos ht, if_pos hcur]
      | false =>
        have hcur : ¬ e.KeepsFold cur := hkeeps
        obtain ⟨t', -, h⟩ := Option.bind_eq_some_iff.mp h
        rw [ih h, if_neg hcur, ite_self]

theorem previous_fold (hv : e.Valid) {dt p : WallTime} (h : e.previous dt = some p) :
    p.fold = (if e.KeepsFold dt.minute then dt.fold else false) := by
  obtain ⟨⟨t, fold⟩, hmin, rfl⟩ := Option.map_eq_some_iff.mp h
  obtain ⟨bound, -, hfrom⟩ := Option.bind_eq_some_iff.mp hmin
  exact previousFrom_fold hv hfrom

end CronExpression

/-- The latest instant whose label is a tick, each pass of a repeated label counted. -/
def LatestTick (o : Offsets) (ticks : Set ℤ) (now tau : ℤ) : Prop :=
  IsGreatest {u | o.label u ∈ ticks ∧ u ≤ now} tau

section

variable {o : Offsets} {now tau : ℤ}

/-- A trigger that gives the latest tick label gives the latest tick, where no label on the way was
skipped, the clock has not gone back past the label, and the fold given names the tick's pass. -/
theorem due_of_previous {s : Schedule} {ticks : Set ℤ} {p : WallTime}
    (hprev : s.trigger.previous ((Zone.ofOffsets o).localtime now) = some p)
    (hp : IsGreatest {x | x ∈ ticks ∧ x ≤ o.label now} p.clock) (htau : LatestTick o ticks now tau)
    (hforward : ∀ u, tau < u → u ≤ now → ¬ o.Forward u) (hle : o.label tau ≤ o.label now)
    (hnames : o.Names p.fold tau) : s.due (Zone.ofOffsets o) now = some tau := by
  obtain ⟨⟨htick, hnow⟩, hlatest⟩ := htau
  have hlabel : o.label tau = p.clock := by
    apply le_antisymm (hp.2 ⟨htick, hle⟩)
    by_contra hlt
    obtain ⟨v, hv, hvnow, hvlabel⟩ := o.exists_label hforward hnow (not_le.mp hlt) hp.1.2
    have hvtick : o.label v ∈ ticks := by
      rw [hvlabel]
      exact hp.1.1
    have hvle : v ≤ tau := hlatest ⟨hvtick, hvnow⟩
    omega
  have haware : (Zone.ofOffsets o).makeAware p = tau := by
    change o.instant p.clock p.fold = tau
    rw [← hlabel]
    exact Offsets.instant_of_names hnames
  unfold Schedule.due Schedule.tickAt
  rw [hprev, Option.map_some, haware]
  exact Option.filter_eq_some_iff.mpr ⟨rfl, decide_eq_true hnow⟩

/-- Whole minutes up to a time are those up to its minute. -/
theorem ticks_isGreatest {e : CronExpression} {dt : WallTime} {t : ℤ}
    (h : IsGreatest {u | e.Matches u ∧ u ≤ dt.minute} t) (fold : Bool) :
    IsGreatest {x | x ∈ e.ticks ∧ x ≤ dt.clock} (WallTime.ofMinute t fold).clock := by
  have hle : ∀ u, u ≤ dt.minute ↔ (u - epochMinutes) * 60000000 ≤ dt.clock := by
    intro u
    unfold WallTime.minute
    omega
  constructor
  · exact ⟨⟨t, h.1.1, rfl⟩, (hle t).mp h.1.2⟩
  · rintro x ⟨⟨u, hu, rfl⟩, hx⟩
    have hut : u ≤ t := h.2 ⟨hu, (hle u).mpr hx⟩
    change (u - epochMinutes) * 60000000 ≤ (t - epochMinutes) * 60000000
    omega

/-- A pass derives the latest tick instant, repeated labels counted, for an interval and for an
expression: no label on the way was skipped, the clock has not gone back past the tick's label, and
the fold that the trigger keeps names the tick's pass of it. An interval is read from the epoch on,
where its arithmetic stays within datetimes (`wall_previousTick`). -/
theorem due_latest (s : Schedule) (hforward : ∀ u, tau < u → u ≤ now → ¬ o.Forward u)
    (hle : o.label tau ≤ o.label now) :
    (∀ every phase, s.trigger = IntervalTrigger every phase → 0 < every →
      LatestTick o (intervalTicks every phase) now tau → o.Names (o.again now) tau →
      s.due (Zone.ofOffsets o) now = some tau) ∧
    ∀ text e, CronExpression.parse text = some e → s.trigger = e.trigger →
      let dt := (Zone.ofOffsets o).localtime now
      Sayable (dt.minute - searchMinutes) → Sayable dt.minute → LatestTick o e.ticks now tau →
      o.Names (if e.KeepsFold dt.minute then dt.fold else false) tau →
      s.due (Zone.ofOffsets o) now = some tau := by
  constructor
  · intro every phase htrigger he htau hnames
    obtain ⟨p, hp, hgreatest⟩ : ∃ p,
        (IntervalTrigger every phase).previous ((Zone.ofOffsets o).localtime now) = some p ∧
          IsGreatest {x | x ∈ intervalTicks every phase ∧ x ≤ o.label now} p.clock :=
      intervalTrigger_isGreatest he _
    have hfold : p.fold = o.again now := by
      rw [← Option.some.inj hp]
      rfl
    rw [← hfold] at hnames
    rw [← htrigger] at hp
    exact due_of_previous hp hgreatest htau hforward hle hnames
  · intro text e he htrigger dt hroom hsay htau hnames
    have hv := CronExpression.parse_valid he
    obtain ⟨t, fold, ht, hg⟩ := CronExpression.previousMinute_exact dt.fold hv hroom hsay
    have hp : e.previous dt = some (.ofMinute t fold) := by
      unfold CronExpression.previous
      rw [ht]
      rfl
    rw [← CronExpression.previous_fold hv hp] at hnames
    have hp' : s.trigger.previous dt = some (.ofMinute t fold) := by
      rw [htrigger]
      exact hp
    exact due_of_previous hp' (ticks_isGreatest hg fold) htau hforward hle hnames

end

/-- A clock put back by an hour at the epoch. -/
def fallBack : Offsets := ⟨3600000000, [(0, 0)], by simp⟩

theorem label_fallBack (u : ℤ) : fallBack.label u = if u < 0 then u + 3600000000 else u := by
  unfold Offsets.label Offsets.offsetAt fallBack
  by_cases h : u < 0
  · rw [if_pos h, List.filter_cons_of_neg (by simpa using h)]
    rfl
  · rw [if_neg h, List.filter_cons_of_pos (by simpa using h)]
    exact add_zero u

theorem not_forward_fallBack (u : ℤ) : ¬ fallBack.Forward u := by
  have hprev := label_fallBack (u - 1)
  have hlabel := label_fallBack u
  unfold Offsets.Forward
  unfold Offsets.label at hprev hlabel
  split_ifs at hprev hlabel <;> omega

theorem names_fallBack : fallBack.Names true 1800000000 := by
  left
  refine ⟨-1800000000, by decide, by decide, fun w hw heq => ?_⟩
  have hnot : ¬ (1800000000 : ℤ) < 0 := by decide
  rw [label_fallBack w, label_fallBack 1800000000, if_neg hnot] at heq
  split_ifs at heq <;> omega

/-- Every quarter of an hour, as an interval and as an expression, half past on the second pass. -/
theorem due_latest_second_pass :
    Schedule.due ⟨IntervalTrigger 900000000 0, none, none, none, false⟩ (Zone.ofOffsets fallBack)
      1800000000 = some 1800000000 ∧
    ∃ e, CronExpression.parse "*/15 * * * *".toList = some e ∧
      Schedule.due ⟨e.trigger, none, none, none, false⟩ (Zone.ofOffsets fallBack) 1800000000 =
        some 1800000000 := by
  have hforward : ∀ u, (1800000000 : ℤ) < u → u ≤ 1800000000 → ¬ fallBack.Forward u :=
    fun u _ _ => not_forward_fallBack u
  constructor
  · have htau : LatestTick fallBack (intervalTicks 900000000 0) 1800000000 1800000000 :=
      ⟨⟨⟨2, by decide⟩, le_rfl⟩, fun u hu => hu.2⟩
    exact (due_latest _ hforward le_rfl).1 900000000 0 rfl (by decide) htau names_fallBack
  · let dt := (Zone.ofOffsets fallBack).localtime 1800000000
    have hall : (CronExpression.parse "*/15 * * * *".toList).map
        (fun e => decide (e.Matches dt.minute ∧ e.KeepsFold dt.minute)) = some true := by
      decide +kernel
    obtain ⟨e, he, hkeeps⟩ := Option.map_eq_some_iff.mp hall
    obtain ⟨hmatch, hkeeps⟩ := of_decide_eq_true hkeeps
    have htau : LatestTick fallBack e.ticks 1800000000 1800000000 :=
      ⟨⟨⟨dt.minute, hmatch, by decide⟩, le_rfl⟩, fun u hu => hu.2⟩
    refine ⟨e, he, (due_latest _ hforward le_rfl).2 _ e he rfl (by decide) (by decide) htau ?_⟩
    rw [if_pos hkeeps]
    exact names_fallBack

/-- At two o'clock after the repeated hour the latest half past midnight is the second one; every
four hours from there, a pass derives the first. -/
theorem due_before_second_pass : ¬ ∀ (o : Offsets) (s : Schedule) (every phase now tau : ℤ),
    s.trigger = IntervalTrigger every phase → 0 ≤ phase → phase < every →
      LatestTick o (intervalTicks every phase) now tau →
      (∀ u, tau < u → u ≤ now → ¬ o.Forward u) → s.due (Zone.ofOffsets o) now = some tau := by
  intro hall
  have htau : LatestTick fallBack (intervalTicks 14400000000 1800000000) 7200000000 1800000000 := by
    refine ⟨⟨⟨0, by decide⟩, by decide⟩, fun u hu => ?_⟩
    obtain ⟨⟨n, hn⟩, hle⟩ := hu
    have hle : u ≤ 7200000000 := hle
    rw [label_fallBack] at hn
    split_ifs at hn <;> omega
  have hdue := hall fallBack ⟨IntervalTrigger 14400000000 1800000000, none, none, none, false⟩ _ _ _ _
    rfl (by decide) (by decide) htau (fun u _ _ => not_forward_fallBack u)
  exact absurd hdue (by decide +kernel)

end DjangoOx
