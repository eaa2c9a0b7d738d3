import DjangoOx.Beat.EveryMinute

/-! The run times that the importer expects a change of offset to repeat or to skip are those the
dispatcher's passes give. -/
namespace DjangoOx

open Calendar Offsets

/-- The wall clock times that a change repeats or skips: from the first up to the end. -/
def lowLabel (c : Change) : ℤ := c.instant + min c.before c.after

def highLabel (c : Change) : ℤ := c.instant + max c.before c.after

/-- A change of less than a day, in whole minutes, with no other within two days. -/
structure Single (z : TimeZone) (c : Change) : Prop where
  mem : c ∈ z.moves
  differs : c.before ≠ c.after
  alone : ∀ m ∈ z.moves,
    m = c ∨ m.instant + 2 * day ≤ c.instant ∨ c.instant + 2 * day ≤ m.instant
  forward : c.after - c.before < day
  back : c.before - c.after < day
  whole : aMinute ∣ c.instant ∧ aMinute ∣ c.before ∧ aMinute ∣ c.after

/-- The searches for ticks about a change have room: nine years before the first wall clock time
looked at, and after the last. -/
def Roomy (c : Change) : Prop :=
  Sayable (minuteOf (lowLabel c) - searchMinutes) ∧
    Sayable (minuteOf (c.instant + max c.before (2 * c.after - c.before)) + searchMinutes)

/-- The passes of a dispatcher, at every whole minute from the schedule's start. -/
def passesFrom (e : CronExpression) (z : TimeZone) (now : ℤ) (n : ℕ) : List (ℤ × ℤ) :=
  dispatched (storedAt e now) z.zone (firstPass now) n

/-- The importer's account of a change is the dispatcher's: each pass, with its tick. -/
structure ClockAgrees (e : CronExpression) (z : TimeZone) (c : Change) (now : ℤ) : Prop where
  /-- Of the ticks repeated, those kept run on the second pass, each at its instant there. -/
  again : c.after < c.before → ∃ again, keptRepeated e c now true = some again ∧
    ∀ n, c.instant + (c.before - c.after) ≤ passAt (firstPass now) n →
      ((passesFrom e z now n).filter fun p => c.instant ≤ p.1 ∧
        p.1 < c.instant + (c.before - c.after) ∧ c.instant ≤ p.2) =
        again.map fun tick => (tick - c.after, tick - c.after)
  /-- Of the ticks skipped, the stored runs are those up to the last one's instant. -/
  landed : c.before < c.after → ∃ runs, skippedRuns e c now true = some runs ∧
    match runs with
    | none => ∀ t, ¬ IsTick e (lowLabel c) (highLabel c) t
    | some (_, storedRuns) => ∃ last, IsGreatest {t | IsTick e (lowLabel c) (highLabel c) t} last ∧
      ∀ n, last - c.before < passAt (firstPass now) n →
        ((passesFrom e z now n).filter fun p => c.instant ≤ p.1 ∧ p.1 ≤ last - c.before) =
          storedRuns.map fun run => (run, run)
  ticks : ∃ found, ticks e (lowLabel c) (highLabel c) = some found ∧ found.Pairwise (· < ·) ∧
    ∀ t, t ∈ found ↔ IsTick e (lowLabel c) (highLabel c) t

variable {e : CronExpression} {z : TimeZone} {c : Change} {now t tick l u : ℤ} {cur g : ℤ}
  {fold fold' second : Bool} {n : ℕ}

theorem minute_eq (dt : WallTime) : dt.minute = minuteOf dt.clock := by
  unfold WallTime.minute minuteOf
  rw [aMinute_eq]

theorem clock_ofMinute (m : ℤ) (fold : Bool) : (WallTime.ofMinute m fold).clock = clockOf m := by
  unfold WallTime.ofMinute clockOf
  rw [aMinute_eq]

/-- What is due at an instant: the tick walked back to, as the zone reads it, once it has come. -/
theorem due_storedAt : (storedAt e now).due z.zone t = some tick ↔
    ∃ g fold, e.previousMinute (minuteOf (z.label t)) (z.foldAt t) = some (g, fold) ∧
      clockOf g - z.readOffset (clockOf g) fold = tick ∧ tick ≤ t := by
  unfold Schedule.due
  rw [Option.filter_eq_some_iff, decide_eq_true_eq]
  constructor
  · rintro ⟨h, hle⟩
    obtain ⟨dt, hdt, rfl⟩ := Option.map_eq_some_iff.mp h
    obtain ⟨⟨g, fold⟩, hg, rfl⟩ := Option.map_eq_some_iff.mp hdt
    rw [minute_eq] at hg
    refine ⟨g, fold, hg, ?_, hle⟩
    change _ = (WallTime.ofMinute g fold).clock - z.readOffset (WallTime.ofMinute g fold).clock fold
    rw [clock_ofMinute]
  · rintro ⟨g, fold, hg, rfl, hle⟩
    refine ⟨?_, hle⟩
    have hprevious : e.previous (z.zone.localtime t) = some (.ofMinute g fold) := by
      unfold CronExpression.previous
      rw [minute_eq]
      change (e.previousMinute (minuteOf (z.label t)) (z.foldAt t)).map _ = _
      rw [hg, Option.map_some]
    change (e.previous (z.zone.localtime t)).map z.zone.makeAware = _
    rw [hprevious, Option.map_some]
    change some ((WallTime.ofMinute g fold).clock -
      z.readOffset (WallTime.ofMinute g fold).clock fold) = _
    rw [clock_ofMinute]

/-- A minute that matches is its own tick, on its own pass. -/
theorem previousMinute_of_matches (h : e.Matches cur) (hroom : Sayable (cur - searchMinutes)) :
    e.previousMinute cur fold = some (cur, fold) := by
  have hstep : e.stepBack cur = none := by
    obtain ⟨hminute, hhour, hmonth, hday⟩ := h
    unfold CronExpression.stepBack
    dsimp only
    rw [if_neg (not_not.mpr hmonth), if_neg (not_not.mpr hday), if_neg (not_not.mpr hhour),
      if_neg (not_not.mpr hminute)]
  have hpos : 0 < searchMinutes := by decide
  unfold CronExpression.previousMinute
  rw [show checked (cur - searchMinutes) = some (cur - searchMinutes) from if_pos hroom,
    Option.bind_some]
  obtain ⟨fuel, hfuel⟩ : ∃ fuel, (cur - (cur - searchMinutes)).toNat = fuel + 1 :=
    Nat.exists_eq_succ_of_ne_zero (by omega)
  rw [hfuel]
  unfold CronExpression.previousFrom
  rw [if_neg (by omega), hstep]

/-- A walk that does not begin on a second pass does not end on one. -/
theorem previousFrom_first {bound : ℤ} {fuel : ℕ}
    (h : e.previousFrom bound fuel cur false = some (g, fold)) : fold = false := by
  induction fuel generalizing cur with
  | zero => cases h
  | succ fuel ih =>
    unfold CronExpression.previousFrom at h
    split_ifs at h
    split at h
    · obtain ⟨-, rfl⟩ := Prod.mk.inj (Option.some.inj h)
      rfl
    · exact ih h
    · obtain ⟨t, -, h⟩ := Option.bind_eq_some_iff.mp h
      exact ih h

theorem previousMinute_first (h : e.previousMinute cur false = some (g, fold)) : fold = false := by
  obtain ⟨bound, -, h⟩ := Option.bind_eq_some_iff.mp h
  exact previousFrom_first h

theorem clockChecked_of_sayable (h : Sayable (minuteOf t)) : clockChecked t = some t := by
  have hmin := minClock_eq
  have hmax := maxClock_eq
  apply clockChecked_of <;> unfold Sayable minuteOf epochMinutes at h <;> rw [aMinute_eq] at h <;>
    omega

/-- The wall clock times about a change have room. -/
theorem Roomy.label (h : Roomy c) (hlow : lowLabel c ≤ l)
    (hhigh : l ≤ c.instant + max c.before (2 * c.after - c.before)) :
    Sayable (minuteOf l - searchMinutes) ∧ Sayable (minuteOf l) := by
  have hpos : 0 < searchMinutes := by decide
  obtain ⟨hfirst, hlast⟩ := h
  unfold Sayable minuteOf at *
  rw [aMinute_eq] at *
  omega

/-- A search from a wall clock time about a change has room. -/
theorem Roomy.search (h : Roomy c) (hc : Single z c) {m : ℤ} (hlow : lowLabel c ≤ clockOf m)
    (hhigh : clockOf m < c.instant + max c.before (2 * c.after - c.before)) :
    Sayable (m + 1 + searchMinutes) := by
  have hpos : 0 < searchMinutes := by decide
  obtain ⟨hfirst, hlast⟩ := h
  have hwhole := hc.whole
  unfold lowLabel Sayable minuteOf clockOf at *
  rw [aMinute_eq] at *
  omega

/-- Instants within a day after a change are datetimes. -/
theorem Roomy.clock (h : Roomy c) (hc : Single z c) (hlow : c.instant ≤ t)
    (hhigh : t ≤ c.instant + day) : clockChecked t = some t := by
  obtain ⟨hbefore, hafter⟩ := z.moves_bounds hc.mem
  obtain ⟨hfirst, hlast⟩ := h
  have hsearch : searchMinutes = 4743360 := by decide
  apply clockChecked_of_sayable
  unfold lowLabel Sayable minuteOf day at *
  rw [aMinute_eq] at *
  omega

theorem notBefore_eq {ticks : List ℤ} {shift : ℤ}
    (h : ∀ tick ∈ ticks, clockChecked (tick - shift) = some (tick - shift)) :
    notBefore now shift ticks = some (ticks.filter fun tick => now ≤ tick - shift) := by
  have hall : (ticks.mapM fun tick => (instantBy tick shift).map fun run => (tick, run)) =
      some (ticks.map fun tick => (tick, tick - shift)) := by
    apply mapM_eq_map
    intro tick htick
    unfold instantBy
    rw [h tick htick, Option.map_some]
  unfold notBefore
  rw [hall, Option.map_some, List.filter_map, List.map_map]
  congr 1
  exact List.map_id _

theorem runsNotBefore_eq {ticks : List ℤ} {shift : ℤ}
    (h : ∀ tick ∈ ticks, clockChecked (tick - shift) = some (tick - shift)) :
    runsNotBefore now shift ticks = some ((ticks.map (· - shift)).filter (now ≤ ·)) := by
  have hall : ticks.mapM (instantBy · shift) = some (ticks.map (· - shift)) := mapM_eq_map h
  unfold runsNotBefore
  rw [hall, Option.map_some]

/-- The runs of a list of ticks, or of one where it is empty. -/
theorem mem_storedRuns {reached : List ℤ} {landing shift run : ℤ} :
    run ∈ (((if reached = [] then [landing] else reached).map (· - shift)).filter (now ≤ ·)) ↔
      now ≤ run ∧ (run + shift ∈ reached ∨ run = landing - shift ∧ reached = []) := by
  have hmapped : ∀ ticks : List ℤ, run ∈ ticks.map (· - shift) ↔ run + shift ∈ ticks := by
    intro ticks
    rw [List.mem_map]
    constructor
    · rintro ⟨t, ht, rfl⟩
      rwa [sub_add_cancel]
    · exact fun ht => ⟨run + shift, ht, by omega⟩
  rw [List.mem_filter, decide_eq_true_eq, and_comm, hmapped]
  refine and_congr_right fun _ => ?_
  split_ifs with hnil
  · rw [hnil, List.mem_singleton]
    simp only [List.not_mem_nil, and_true, false_or]
    omega
  · simp [hnil]

namespace Single

theorem offsetAt (h : Single z c) (hlow : c.instant ≤ u) (hhigh : u < c.instant + 2 * day) :
    z.offsetAt u = c.after := by
  rw [offsetAt_eq]
  refine offsetBy_upto h.mem fun m hm => ?_
  rcases h.alone m hm with rfl | hm | hm
  · omega
  · unfold day at *
    omega
  · unfold day at *
    omega

theorem foldAt (h : Single z c) (hlow : c.instant ≤ u) (hhigh : u < c.instant + 2 * day) :
    z.foldAt u = decide (u - c.instant < c.before - c.after) := by
  refine foldAt_of_last h.mem hlow fun m hm hle => ?_
  rcases h.alone m hm with rfl | hm | hm
  · exact le_rfl
  · unfold day at *
    omega
  · unfold day at *
    omega

/-- Near the change, the labels before its turn are read with the offset before it. -/
theorem read_before (h : Single z c) (hnear : c.instant - day ≤ l) (hnear' : l < c.instant + day)
    (hturn : l < c.turn second) : z.readOffset l second = c.before := by
  refine offsetBy_before h.mem fun m hm => ?_
  obtain ⟨hbefore, hafter⟩ := z.moves_bounds hm
  rcases h.alone m hm with rfl | hm | hm
  · omega
  · unfold Change.turn day at *
    split_ifs <;> omega
  · unfold Change.turn day at *
    split_ifs <;> omega

/-- From its turn on they are read with the offset after it, up to the next change's turn. -/
theorem read_after (h : Single z c) (hz : z.Ordered) (hnear : c.instant - day ≤ l)
    (hturn : c.turn second ≤ l)
    (hnext : ∀ k : Change, k.before = c.after → c.instant + 2 * day ≤ k.instant →
      -day < k.after → l < k.turn second) : z.readOffset l second = c.after := by
  refine offsetBy_upto h.mem fun m hm => ?_
  obtain ⟨hbefore, hafter⟩ := z.moves_bounds hm
  have hnext' : ∀ k ∈ z.moves, c.instant < k.instant → k.before = c.after → l < k.turn second := by
    intro k hk hlt heq
    refine hnext k heq ?_ (z.moves_bounds hk).2.1
    rcases h.alone k hk with rfl | hk | hk
    · omega
    · unfold day at *
      omega
    · exact hk
  rcases h.alone m hm with rfl | hm' | hm'
  · exact iff_of_true hturn le_rfl
  · unfold Change.turn day at *
    split_ifs <;> omega
  · have hlt := hz.lt_turn h.mem hnext' hm (by unfold day at *; omega)
    unfold day at *
    omega


/-- On the second pass a tick that is due is one of those repeated, and each is due at its instant
there. -/
theorem due_again (now : ℤ) (h : Single z c) (hz : z.Ordered) (hv : e.Valid) (hroom : Roomy c)
    (hback : c.after < c.before) (ht : aMinute ∣ t) (hlow : c.instant ≤ t)
    (hhigh : t < c.instant + (c.before - c.after)) :
    (∀ tick, (storedAt e now).due z.zone t = some tick → c.instant ≤ tick →
      IsTick e (lowLabel c) (highLabel c) (tick + c.after)) ∧
    (IsTick e (lowLabel c) (highLabel c) (t + c.after) →
      (storedAt e now).due z.zone t = some t) := by
  obtain ⟨hbefore, hafter⟩ := z.moves_bounds h.mem
  have hsize := h.back
  have hbounds : lowLabel c = c.instant + c.after ∧ highLabel c = c.instant + c.before := by
    unfold lowLabel highLabel
    omega
  have hlabel : z.label t = t + c.after := by
    unfold label
    rw [h.offsetAt hlow (by unfold day at *; omega)]
  have hfold : z.foldAt t = true := by
    rw [h.foldAt hlow (by unfold day at *; omega)]
    exact decide_eq_true (by omega)
  obtain ⟨hsearch, hsay⟩ := hroom.label (l := t + c.after) (by omega) (by omega)
  have hfirst : c.turn false = highLabel c := rfl
  have hsecond : ∀ l, lowLabel c ≤ l → l < highLabel c → z.readOffset l true = c.after := by
    intro l hl hl'
    refine h.read_after hz (by unfold day at *; omega) ?_ fun k hk hfar hkafter => ?_
    · unfold Change.turn
      rw [if_pos rfl]
      omega
    · unfold Change.turn day at *
      rw [if_pos rfl]
      omega
  constructor
  · intro tick htick hge
    obtain ⟨g, fold, hg, rfl, hle⟩ := due_storedAt.mp htick
    rw [hlabel, hfold] at hg
    obtain ⟨g', fold', hg', hgreatest⟩ := CronExpression.previousMinute_exact true hv hsearch hsay
    obtain ⟨rfl, rfl⟩ := Prod.mk.inj (Option.some.inj (hg.symm.trans hg'))
    have hupto : clockOf g ≤ t + c.after := by
      rw [clockOf_le (Int.dvd_add ht h.whole.2.2)]
      exact hgreatest.1.2
    by_cases hstretch : lowLabel c ≤ clockOf g
    · cases fold with
      | true =>
        rw [hsecond _ hstretch (by omega)] at hge hle ⊢
        rw [sub_add_cancel]
        exact ⟨dvd_clockOf g, by rw [minuteOf_clockOf]; exact hgreatest.1.1, hstretch, by omega⟩
      | false =>
        rw [h.read_before (by unfold day at *; omega) (by unfold day at *; omega)
          (by omega)] at hge
        omega
    · by_cases hfar : c.instant - day ≤ clockOf g
      · have hturn : clockOf g < c.turn fold := by
          unfold Change.turn
          split_ifs <;> omega
        rw [h.read_before hfar (by unfold day at *; omega) hturn] at hge
        omega
      · have hread := z.offsetBy_bounds fun m => m.turn fold ≤ clockOf g
        unfold readOffset at hge
        omega
  · rintro ⟨hdvd, hmatch, hge, hlt⟩
    refine due_storedAt.mpr ⟨minuteOf (t + c.after), true, ?_, ?_, le_rfl⟩
    · rw [hlabel, hfold]
      exact previousMinute_of_matches hmatch hsearch
    · rw [clockOf_minuteOf hdvd, hsecond _ hge hlt]
      omega

/-- Once the clock has landed, the walk back ends at a tick it has reached, or at the last one it
skipped. -/
theorem walk_landed (h : Single z c) (hz : z.Ordered) (hv : e.Valid) (hroom : Roomy c)
    (hforward : c.before < c.after) {last : ℤ}
    (hlast : IsGreatest {t | IsTick e (lowLabel c) (highLabel c) t} last) (ht : aMinute ∣ t)
    (hlow : c.instant ≤ t) (hhigh : t ≤ last - c.before) :
    ∃ g, e.previousMinute (minuteOf (z.label t)) (z.foldAt t) = some (g, false) ∧
      ((IsTick e (highLabel c) (t + c.after + 1) (clockOf g) ∧
          (IsTick e (highLabel c) (t + c.after + 1) (t + c.after) → clockOf g = t + c.after) ∧
          z.readOffset (clockOf g) false = c.after) ∨
        (∀ x, ¬ IsTick e (highLabel c) (t + c.after + 1) x) ∧ clockOf g = last ∧
          z.readOffset last false = c.before) := by
  obtain ⟨hbefore, hafter⟩ := z.moves_bounds h.mem
  have hsize := h.forward
  have hbounds : lowLabel c = c.instant + c.before ∧ highLabel c = c.instant + c.after := by
    unfold lowLabel highLabel
    omega
  have hturn : c.turn false = highLabel c := rfl
  obtain ⟨hdvd, hmatch, hskip, hskip'⟩ : IsTick e (lowLabel c) (highLabel c) last := hlast.1
  have hlabel : z.label t = t + c.after := by
    unfold label
    rw [h.offsetAt hlow (by unfold day at *; omega)]
  have hfold : z.foldAt t = false := by
    rw [h.foldAt hlow (by unfold day at *; omega)]
    exact decide_eq_false (by omega)
  have hwhole : aMinute ∣ t + c.after := Int.dvd_add ht h.whole.2.2
  obtain ⟨hsearch, hsay⟩ := hroom.label (l := t + c.after) (by omega) (by omega)
  obtain ⟨g, fold, hg, hgreatest⟩ := CronExpression.previousMinute_exact false hv hsearch hsay
  obtain rfl := previousMinute_first hg
  have hupto : clockOf g ≤ t + c.after := (clockOf_le hwhole).mpr hgreatest.1.2
  have hmost : ∀ x, aMinute ∣ x → e.Matches (minuteOf x) → x ≤ t + c.after → x ≤ clockOf g := by
    intro x hx hm hle
    have hmin : minuteOf x ≤ minuteOf (t + c.after) := by
      rw [← clockOf_le hwhole, clockOf_minuteOf hx]
      exact hle
    have hle := hgreatest.2 ⟨hm, hmin⟩
    have hmono := (clockOf_le (dvd_clockOf g)).mpr (hle.trans (minuteOf_clockOf g).ge)
    rwa [clockOf_minuteOf hx] at hmono
  have hgmatch : e.Matches (minuteOf (clockOf g)) := by
    rw [minuteOf_clockOf]
    exact hgreatest.1.1
  rw [hlabel, hfold]
  refine ⟨g, hg, ?_⟩
  by_cases hreached : highLabel c ≤ clockOf g
  · refine .inl ⟨⟨dvd_clockOf g, hgmatch, hreached, by omega⟩, fun htick => ?_, ?_⟩
    · exact le_antisymm hupto (hmost _ htick.1 htick.2.1 le_rfl)
    · refine h.read_after hz (by unfold day at *; omega) (by omega) fun k hk hfar _ => ?_
      unfold Change.turn day at *
      rw [if_neg (by decide)]
      omega
  · have hlastg := hmost last hdvd hmatch (by omega)
    have hskipped : clockOf g ≤ last :=
      hlast.2 ⟨dvd_clockOf g, hgmatch, by omega, by omega⟩
    refine .inr ⟨fun x hx => ?_, by omega, ?_⟩
    · have := hmost x hx.1 hx.2.1 (by have := hx.2.2.2; omega)
      have := hx.2.2.1
      omega
    · exact h.read_before (by unfold day at *; omega) (by unfold day at *; omega) (by omega)

/-- What a pass is due once the clock has landed, at its own instant: a tick that the clock reaches
by the last skipped one's instant, or at that instant the last skipped one where it reaches none. -/
theorem due_landed_self (now : ℤ) (h : Single z c) (hz : z.Ordered) (hv : e.Valid) (hroom : Roomy c)
    (hforward : c.before < c.after) {last : ℤ}
    (hlast : IsGreatest {t | IsTick e (lowLabel c) (highLabel c) t} last) (ht : aMinute ∣ t)
    (hlow : c.instant ≤ t) (hhigh : t ≤ last - c.before) :
    (storedAt e now).due z.zone t = some t ↔
      IsTick e (highLabel c) (last + (c.after - c.before) + aMinute) (t + c.after) ∨
        t = last - c.before ∧
          ∀ x, ¬ IsTick e (highLabel c) (last + (c.after - c.before) + aMinute) x := by
  obtain ⟨g, hg, hwalk⟩ := h.walk_landed hz hv hroom hforward hlast ht hlow hhigh
  have hpos := aMinute_eq
  have hdue : (storedAt e now).due z.zone t = some t ↔
      clockOf g - z.readOffset (clockOf g) false = t := by
    rw [due_storedAt]
    constructor
    · rintro ⟨g', fold', hg', heq, -⟩
      obtain ⟨rfl, rfl⟩ := Prod.mk.inj (Option.some.inj (hg.symm.trans hg'))
      exact heq
    · exact fun heq => ⟨g, false, hg, heq, le_rfl⟩
  rw [hdue]
  rcases hwalk with ⟨htick, hself, hread⟩ | ⟨hnone, hgl, hread⟩
  · rw [hread]
    constructor
    · intro heq
      have hg : clockOf g = t + c.after := by omega
      rw [hg] at htick
      exact .inl ⟨htick.1, htick.2.1, htick.2.2.1, by omega⟩
    · rintro (hx | ⟨-, hx⟩)
      · have := hself ⟨hx.1, hx.2.1, hx.2.2.1, by omega⟩
        omega
      · have := htick.2.2.2
        exact absurd ⟨htick.1, htick.2.1, htick.2.2.1, by omega⟩ (hx (clockOf g))
  · rw [hgl, hread]
    constructor
    · rintro rfl
      refine .inr ⟨rfl, fun x hx => hnone x ⟨hx.1, hx.2.1, hx.2.2.1, ?_⟩⟩
      have hlt := hx.2.2.2
      have hwhole := h.whole
      obtain ⟨hdvd, -⟩ := hlast.1
      have hx := hx.1
      rw [hpos] at *
      omega
    · rintro (hx | ⟨heq, -⟩)
      · exact absurd ⟨hx.1, hx.2.1, hx.2.2.1, by omega⟩ (hnone (t + c.after))
      · exact heq.symm

/-- What is due once the clock has landed is due at its own instant. -/
theorem due_landed_own (now : ℤ) (h : Single z c) (hz : z.Ordered) (hv : e.Valid) (hroom : Roomy c)
    (hforward : c.before < c.after) {last : ℤ}
    (hlast : IsGreatest {t | IsTick e (lowLabel c) (highLabel c) t} last) (ht : aMinute ∣ t)
    (hlow : c.instant ≤ t) (hhigh : t ≤ last - c.before)
    (hdue : (storedAt e now).due z.zone t = some tick) :
    c.instant ≤ tick ∧ aMinute ∣ tick ∧ (storedAt e now).due z.zone tick = some tick := by
  obtain ⟨g, hg, hwalk⟩ := h.walk_landed hz hv hroom hforward hlast ht hlow hhigh
  have hpos := aMinute_eq
  have hbounds : highLabel c = c.instant + c.after := by
    unfold highLabel
    omega
  obtain ⟨g', fold', hg', heq, hle⟩ := due_storedAt.mp hdue
  obtain ⟨rfl, rfl⟩ := Prod.mk.inj (Option.some.inj (hg.symm.trans hg'))
  rcases hwalk with ⟨htick, -, hread⟩ | ⟨hnone, hgl, hread⟩
  · rw [hread] at heq
    obtain ⟨hdvd, hmatch, hreached, hupto⟩ := htick
    have hclock : clockOf g = tick + c.after := by omega
    rw [hclock] at hdvd hmatch hreached
    have hwhole : aMinute ∣ tick := (Int.dvd_add_left h.whole.2.2).mp hdvd
    refine ⟨by omega, hwhole, ?_⟩
    rw [h.due_landed_self now hz hv hroom hforward hlast hwhole (by omega) (by omega)]
    exact .inl ⟨hdvd, hmatch, hreached, by omega⟩
  · rw [hgl, hread] at heq
    obtain rfl : t = tick := by omega
    exact ⟨hlow, ht, hdue⟩

/-- The ticks repeated or skipped are listed. -/
theorem ticks_eq (h : Single z c) (hv : e.Valid) (hroom : Roomy c) :
    ∃ found, ticks e (lowLabel c) (highLabel c) = some found ∧ found.Pairwise (· < ·) ∧
      ∀ t, t ∈ found ↔ IsTick e (lowLabel c) (highLabel c) t := by
  have hwhole := h.whole
  have hdiffers := h.differs
  refine ticks_spec hv (hroom.label le_rfl ?_).2 fun m hlow hhigh => hroom.search h hlow ?_
  · unfold lowLabel
    omega
  · unfold lowLabel highLabel at *
    rw [aMinute_eq] at *
    omega

/-- What `_repeated` keeps is what the second passes give. -/
theorem again_eq (h : Single z c) (hz : z.Ordered) (hv : e.Valid) (hroom : Roomy c)
    (hback : c.after < c.before) : ∃ again, keptRepeated e c now true = some again ∧
      ∀ n, c.instant + (c.before - c.after) ≤ passAt (firstPass now) n →
        ((passesFrom e z now n).filter fun p => c.instant ≤ p.1 ∧
          p.1 < c.instant + (c.before - c.after) ∧ c.instant ≤ p.2) =
          again.map fun tick => (tick - c.after, tick - c.after) := by
  have hsize := h.back
  have hbounds : lowLabel c = c.instant + c.after ∧ highLabel c = c.instant + c.before := by
    unfold lowLabel highLabel
    omega
  obtain ⟨twice, htwice, hsorted, hmem⟩ := h.ticks_eq hv hroom
  have hlow : clockChecked (lowLabel c) = some (lowLabel c) :=
    clockChecked_of_sayable (hroom.label le_rfl (by omega)).2
  have hhigh : clockChecked (highLabel c) = some (highLabel c) :=
    clockChecked_of_sayable (hroom.label (by omega) (by omega)).2
  have hkept : keptRepeated e c now true =
      some (twice.filter fun tick => now ≤ tick - c.after) := by
    have hnot : notBefore now c.after twice =
        some (twice.filter fun tick => now ≤ tick - c.after) := notBefore_eq fun tick htick => by
      have htick := (hmem tick).mp htick
      exact hroom.clock h (t := tick - c.after) (by have := htick.2.2.1; omega)
        (by have := htick.2.2.2; omega)
    have hspan : lowLabel c + (c.before - c.after) = highLabel c := by omega
    unfold keptRepeated wallAt
    rw [← hbounds.1, hlow]
    change (do
      let twice ← ticks e (lowLabel c) (← clockChecked (lowLabel c + (c.before - c.after)))
      if true then notBefore now c.after twice
      else if c.instant ≤ now ∧ now < c.instant + (c.before - c.after) then
        (clockChecked (now + c.after)).map fun wall => twice.filter (wall ≤ ·)
      else some []) = _
    rw [hspan, hhigh]
    change (ticks e (lowLabel c) (highLabel c)).bind _ = _
    rw [htwice]
    exact hnot
  refine ⟨_, hkept, fun n hn => ?_⟩
  have hruns : (twice.filter fun tick => decide (now ≤ tick - c.after)).map
      (fun tick => (tick - c.after, tick - c.after)) =
      ((twice.filter fun tick => decide (now ≤ tick - c.after)).map (· - c.after)).map
        fun run => (run, run) := by
    rw [List.map_map]
    rfl
  rw [hruns]
  apply filter_dispatched
  · rw [List.pairwise_map]
    exact (hsorted.filter _).imp fun hlt => by omega
  intro p
  rw [mem_dispatched, List.mem_map]
  have hdue := fun t (ht : aMinute ∣ t) (hge : c.instant ≤ t)
    (hle : t ≤ c.instant + (c.before - c.after) - 1) =>
      h.due_again now hz hv hroom hback ht hge (by omega)
  have hiff : ∀ k tick, c.instant ≤ passAt (firstPass now) k →
      passAt (firstPass now) k ≤ c.instant + (c.before - c.after) - 1 →
      (dispatchedAt (storedAt e now) z.zone (firstPass now) k = some tick ∧ c.instant ≤ tick ↔
        tick = passAt (firstPass now) k ∧ (storedAt e now).due z.zone tick = some tick) := by
    intro k tick hge hle
    refine dispatched_iff (fun t tick ht hge hle htick hlate => ?_) hge hle
    have hmem := (hdue t ht hge hle).1 tick htick hlate
    have hwhole : aMinute ∣ tick := (Int.dvd_add_left h.whole.2.2).mp hmem.1
    have hown := Schedule.due_le htick
    exact ⟨hwhole, (hdue tick hwhole hlate (by omega)).2 hmem⟩
  constructor
  · rintro ⟨⟨k, hk, hdispatched, hp⟩, hge, hlt, hlate⟩
    rw [hp] at hge hlt
    obtain ⟨heq, hown⟩ := (hiff k p.2 hge (by omega)).mp ⟨hdispatched, hlate⟩
    rw [heq] at hown
    have hpass := dvd_passAt now k
    have htick := (hdue _ hpass hge (by omega)).1 _ hown hge
    refine ⟨hp.trans heq.symm, passAt (firstPass now) k + c.after, ?_, by omega⟩
    rw [List.mem_filter, hmem]
    exact ⟨htick, decide_eq_true (by have := le_passAt now k; omega)⟩
  · rintro ⟨heq, tick, htick, hp⟩
    obtain ⟨htick, hnow⟩ := List.mem_filter.mp htick
    have htick := (hmem tick).mp htick
    have hnow : now ≤ p.2 := by
      have := of_decide_eq_true hnow
      omega
    have hwhole : aMinute ∣ p.2 := by
      rw [← hp]
      exact Int.dvd_sub htick.1 h.whole.2.2
    obtain ⟨k, hk⟩ := exists_passAt hwhole hnow
    have hrange : c.instant ≤ p.2 ∧ p.2 < c.instant + (c.before - c.after) := by
      have := htick.2.2
      omega
    have hown := (hdue p.2 hwhole hrange.1 (by omega)).2 (by
      rw [show p.2 + c.after = tick by omega]
      exact htick)
    have hkn : passAt (firstPass now) k < passAt (firstPass now) n := by omega
    refine ⟨⟨k, passAt_lt.mp hkn, ?_, by omega⟩, by omega, by omega, hrange.1⟩
    exact ((hiff k p.2 (by omega) (by omega)).mpr ⟨hk.symm, hown⟩).1

/-- The instants of the ticks the clock reaches by the last skipped one's instant, or that instant
where it reaches none, are those that the passes up to then dispatch at. -/
theorem passes_landed (h : Single z c) (hz : z.Ordered) (hv : e.Valid) (hroom : Roomy c)
    (hforward : c.before < c.after) {last : ℤ} {runs : List ℤ}
    (hlast : IsGreatest {t | IsTick e (lowLabel c) (highLabel c) t} last)
    (hsorted : runs.Pairwise (· < ·))
    (hruns : ∀ run, run ∈ runs ↔ now ≤ run ∧
      (IsTick e (highLabel c) (last + (c.after - c.before) + aMinute) (run + c.after) ∨
        run = last - c.before ∧
          ∀ x, ¬ IsTick e (highLabel c) (last + (c.after - c.before) + aMinute) x))
    (hn : last - c.before < passAt (firstPass now) n) :
    ((passesFrom e z now n).filter fun p => c.instant ≤ p.1 ∧ p.1 ≤ last - c.before) =
      runs.map fun run => (run, run) := by
  have hbounds : lowLabel c = c.instant + c.before ∧ highLabel c = c.instant + c.after := by
    unfold lowLabel highLabel
    omega
  have hself := fun t (ht : aMinute ∣ t) hge hle =>
    h.due_landed_self now hz hv hroom hforward hlast ht hge hle
  have hown := fun t tick (ht : aMinute ∣ t) hge hle
    (hdue : (storedAt e now).due z.zone t = some tick) =>
      h.due_landed_own now hz hv hroom hforward hlast ht hge hle hdue
  have hiff : ∀ k tick, c.instant ≤ passAt (firstPass now) k →
      passAt (firstPass now) k ≤ last - c.before →
      (dispatchedAt (storedAt e now) z.zone (firstPass now) k = some tick ∧ c.instant ≤ tick ↔
        tick = passAt (firstPass now) k ∧ (storedAt e now).due z.zone tick = some tick) :=
    fun k tick hge hle => dispatched_iff (fun t tick ht hge hle htick _ =>
      (hown t tick ht hge hle htick).2) hge hle
  apply filter_dispatched hsorted
  intro p
  rw [mem_dispatched, hruns]
  constructor
  · rintro ⟨⟨k, hk, hdispatched, hp⟩, hge, hle⟩
    rw [hp] at hge hle
    have hdue := (dispatchedAt_eq_some.mp hdispatched).1
    have hlate := (hown _ _ (dvd_passAt now k) hge hle hdue).1
    obtain ⟨heq, hown'⟩ := (hiff k p.2 hge hle).mp ⟨hdispatched, hlate⟩
    rw [heq] at hown' ⊢
    exact ⟨hp, le_passAt now k, (hself _ (dvd_passAt now k) hge hle).mp hown'⟩
  · rintro ⟨heq, hnow, hrun⟩
    obtain ⟨hdvd, -, hskip, -⟩ : IsTick e (lowLabel c) (highLabel c) last := hlast.1
    have hwhole : aMinute ∣ p.2 := by
      rcases hrun with htick | ⟨hlast', -⟩
      · exact (Int.dvd_add_left h.whole.2.2).mp htick.1
      · rw [hlast']
        exact Int.dvd_sub hdvd h.whole.2.1
    have hrange : c.instant ≤ p.2 ∧ p.2 ≤ last - c.before := by
      rcases hrun with ⟨-, -, hreached, hupto⟩ | ⟨hlast', -⟩
      · have hwhole' := h.whole
        rw [aMinute_eq] at *
        omega
      · omega
    obtain ⟨k, hk⟩ := exists_passAt hwhole hnow
    have hkn : passAt (firstPass now) k < passAt (firstPass now) n := by omega
    have hdue := (hself p.2 hwhole hrange.1 hrange.2).mpr hrun
    refine ⟨⟨k, passAt_lt.mp hkn, ?_, by omega⟩, by omega, by omega⟩
    exact ((hiff k p.2 (by omega) (by omega)).mpr ⟨hk.symm, hdue⟩).1

/-- The runs that `_skipped` expects of a stored schedule are what the passes give. -/
theorem landed_eq (h : Single z c) (hz : z.Ordered) (hv : e.Valid) (hroom : Roomy c)
    (hforward : c.before < c.after) : ∃ runs, skippedRuns e c now true = some runs ∧
      match runs with
      | none => ∀ t, ¬ IsTick e (lowLabel c) (highLabel c) t
      | some (_, storedRuns) => ∃ last,
        IsGreatest {t | IsTick e (lowLabel c) (highLabel c) t} last ∧
        ∀ n, last - c.before < passAt (firstPass now) n →
          ((passesFrom e z now n).filter fun p => c.instant ≤ p.1 ∧ p.1 ≤ last - c.before) =
            storedRuns.map fun run => (run, run) := by
  have hsize := h.forward
  have hpos := aMinute_eq
  have hbounds : lowLabel c = c.instant + c.before ∧ highLabel c = c.instant + c.after := by
    unfold lowLabel highLabel
    omega
  obtain ⟨skipped, hskipped, hsorted, hmem⟩ := h.ticks_eq hv hroom
  have hclock : ∀ l, lowLabel c ≤ l → l ≤ c.instant + max c.before (2 * c.after - c.before) →
      clockChecked l = some l :=
    fun l hl hl' => clockChecked_of_sayable (hroom.label hl hl').2
  have hlow := hclock (lowLabel c) le_rfl (by omega)
  have hhigh := hclock (highLabel c) (by omega) (by omega)
  have hspan : lowLabel c + (c.after - c.before) = highLabel c := by omega
  cases hlast : skipped.getLast? with
  | none =>
    obtain rfl := List.getLast?_eq_none_iff.mp hlast
    refine ⟨none, ?_, fun t ht => ?_⟩
    · unfold skippedRuns wallAt
      simp only [← hbounds.1, hlow, hspan, hhigh, hskipped, Option.bind_eq_bind, Option.bind_some]
      rfl
    cases (hmem t).mpr ht
  | some last =>
    obtain ⟨first, hfirst⟩ : ∃ first, skipped.head? = some first :=
      Option.isSome_iff_exists.mp (List.isSome_head?.mpr fun hnil => by simp [hnil] at hlast)
    have hfirstTick := (hmem first).mp (List.mem_of_head? hfirst)
    have hlastTick := (hmem last).mp (List.mem_of_getLast? hlast)
    have hgreatest : IsGreatest {t | IsTick e (lowLabel c) (highLabel c) t} last := by
      refine ⟨hlastTick, fun t ht => ?_⟩
      obtain ⟨init, hinit⟩ := List.getLast?_eq_some_iff.mp hlast
      have ht := hinit ▸ (hmem t).mpr ht
      rcases List.mem_append.mp ht with ht | ht
      · exact ((List.pairwise_append.mp (hinit ▸ hsorted)).2.2 t ht last (by simp)).le
      · exact (List.mem_singleton.mp ht).le
    have htop : last + (c.after - c.before) + aMinute ≤ c.instant + max c.before
        (2 * c.after - c.before) := by
      have hwhole := h.whole
      have hdvd := hlastTick.1
      have hlt := hlastTick.2.2.2
      rw [hpos] at *
      omega
    have hlowTick := hlastTick.2.2.1
    have hfirstLow := hfirstTick.2.2.1
    have hfirstHigh := hfirstTick.2.2.2
    have hminute : highLabel c + aMinute ≤ c.instant + max c.before (2 * c.after - c.before) := by
      have hwhole := h.whole
      rw [hpos] at *
      omega
    obtain ⟨reached, hreached, hsorted', hmem'⟩ : ∃ found,
        ticks e (highLabel c) (last + (c.after - c.before) + aMinute) = some found ∧
        found.Pairwise (· < ·) ∧
        ∀ t, t ∈ found ↔ IsTick e (highLabel c) (last + (c.after - c.before) + aMinute) t :=
      ticks_spec hv (hroom.label (by omega) (by omega)).2
        fun m hm hm' => hroom.search h (by omega) (by omega)
    have hrange : ∀ t, highLabel c ≤ t → t ≤ c.instant + max c.before (2 * c.after - c.before) →
        clockChecked (t - c.after) = some (t - c.after) := by
      intro t ht ht'
      exact hroom.clock h (by omega) (by omega)
    have hin : ∀ t ∈ reached, clockChecked (t - c.after) = some (t - c.after) := by
      intro t ht
      have ht := ((hmem' t).mp ht).2.2
      exact hrange t ht.1 (by omega)
    set stored := if reached = [] then [last + (c.after - c.before)] else reached with hset
    have hinStored : ∀ t ∈ stored, clockChecked (t - c.after) = some (t - c.after) := by
      rw [hset]
      split_ifs with hnil
      · intro t ht
        rw [List.mem_singleton.mp ht]
        exact hrange _ (by omega) (by omega)
      · exact hin
    have hinBeat : ∀ t ∈ (first + (c.after - c.before)) ::
        reached.filter (first + (c.after - c.before) < ·),
          clockChecked (t - c.after) = some (t - c.after) := by
      intro t ht
      rcases List.mem_cons.mp ht with rfl | ht
      · exact hrange _ (by omega) (by omega)
      · exact hin t (List.mem_of_mem_filter ht)
    have hsortedStored : stored.Pairwise (· < ·) := by
      rw [hset]
      split_ifs
      · exact List.pairwise_singleton _ _
      · exact hsorted'
    have hruns : skippedRuns e c now true = some (some
        ((((first + (c.after - c.before)) ::
          reached.filter (first + (c.after - c.before) < ·)).map (· - c.after)).filter (now ≤ ·),
        (stored.map (· - c.after)).filter (now ≤ ·))) := by
      unfold skippedRuns wallAt
      simp only [← hbounds.1, hlow, hspan, hhigh, hskipped, hfirst, hlast,
        hclock (first + (c.after - c.before)) (by omega) (by omega),
        hclock (last + (c.after - c.before)) (by omega) (by omega),
        hclock (last + (c.after - c.before) + aMinute) (by omega) htop, hreached, if_true,
        Option.bind_eq_bind, Option.bind_some, runsNotBefore_eq hinBeat]
      rw [← hset, runsNotBefore_eq hinStored, Option.bind_some]
    refine ⟨_, hruns, last, hgreatest, fun n hn =>
      h.passes_landed hz hv hroom hforward hgreatest ?_ (fun run => ?_) hn⟩
    · refine List.Pairwise.filter _ ?_
      rw [List.pairwise_map]
      exact hsortedStored.imp fun hlt => by omega
    · have hnone : reached = [] ↔
          ∀ x, ¬ IsTick e (highLabel c) (last + (c.after - c.before) + aMinute) x := by
        simp only [← hmem', List.eq_nil_iff_forall_not_mem]
      rw [hset, mem_storedRuns, hmem', ← hnone]
      refine and_congr_right fun _ => or_congr_right (and_congr_left fun _ => ?_)
      omega

end Single

/-- The importer's account of a change is the dispatcher's, where the searches about it have room;
and a list of ticks is that of the matching minutes. -/
theorem clockAgrees {text : Text} (he : CronExpression.parse text = some e) (hz : z.Ordered)
    (hc : Single z c) (hroom : Roomy c) (now : ℤ) :
    ClockAgrees e z c now ∧ ∀ low high, Sayable (minuteOf low) →
      (∀ m, low ≤ clockOf m → clockOf m < high ∨ clockOf m < low + aMinute →
        Sayable (m + 1 + searchMinutes)) →
      ∃ found, ticks e low high = some found ∧ found.Pairwise (· < ·) ∧
        ∀ t, t ∈ found ↔ IsTick e low high t := by
  have hv := CronExpression.parse_valid he
  refine ⟨⟨?_, ?_, ?_⟩, fun low high hlow hsearch => ticks_spec hv hlow hsearch⟩
  · exact hc.again_eq hz hv hroom
  · exact hc.landed_eq hz hv hroom
  · exact hc.ticks_eq hv hroom

/-- Five hours behind UTC, and four from 10 March to 3 November 2024. -/
def newYork : TimeZone where
  initial := -5 * anHour
  changes := [(midnight (toOrdinal 2024 3 10) + 7 * anHour, -4 * anHour),
    (midnight (toOrdinal 2024 11 3) + 6 * anHour, -5 * anHour)]
  sorted := by decide
  bounded := by decide

/-- `30 2 * * *`, where New York skips half past two. -/
theorem clockAgrees_newYork : ∃ e, CronExpression.parse "30 2 * * *".toList = some e ∧
    ClockAgrees e newYork ⟨midnight (toOrdinal 2024 3 10) + 7 * anHour, -5 * anHour, -4 * anHour⟩
      0 := by
  obtain ⟨e, he⟩ : ∃ e, CronExpression.parse "30 2 * * *".toList = some e :=
    Option.isSome_iff_exists.mp (by decide +kernel)
  have hsingle : Single newYork
      ⟨midnight (toOrdinal 2024 3 10) + 7 * anHour, -5 * anHour, -4 * anHour⟩ :=
    ⟨by decide, by decide, by decide, by decide, by decide, by decide⟩
  exact ⟨e, he, (clockAgrees he (by unfold Ordered; decide) hsingle (by unfold Roomy; decide) 0).1⟩

/-- An hour back at the beginning of 9995. -/
def lateBack : TimeZone where
  initial := 0
  changes := [(newYear 9995, -1 * anHour)]
  sorted := by decide
  bounded := by decide

/-- Forward by 23 hours, and two days later to 23 hours behind for a minute. -/
def outOfOrder : TimeZone where
  initial := 0
  changes := [(4 * day, 23 * anHour), (6 * day, -23 * anHour), (6 * day + aMinute, -22 * anHour)]
  sorted := by decide
  bounded := by decide

/-- The searches about a late change overflow; and where changes come out of order on the wall
clock, a tick that is reached is read with the offset of a later one. -/
theorem not_clockAgrees :
    (¬ ∀ (text : Text) (e : CronExpression) (z : TimeZone) (c : Change) (now : ℤ),
      CronExpression.parse text = some e → z.Ordered → Single z c → ClockAgrees e z c now) ∧
    ¬ ∀ (text : Text) (e : CronExpression) (z : TimeZone) (c : Change) (now : ℤ),
      CronExpression.parse text = some e → Single z c → Roomy c → ClockAgrees e z c now := by
  constructor
  · intro h
    obtain ⟨e, he⟩ : ∃ e, CronExpression.parse "* * * * *".toList = some e :=
      Option.isSome_iff_exists.mp (by decide +kernel)
    have hnone : ((CronExpression.parse "* * * * *".toList).bind fun e =>
        ticks e (newYear 9995 - anHour) (newYear 9995)) = none := by decide +kernel
    have hsingle : Single lateBack ⟨newYear 9995, 0, -1 * anHour⟩ :=
      ⟨by decide, by decide, by decide, by decide, by decide, by decide⟩
    obtain ⟨found, hfound, -⟩ := (h _ e lateBack _ 0 he (by unfold Ordered; decide) hsingle).ticks
    rw [he, Option.bind_some] at hnone
    have hsome : ticks e (newYear 9995 - anHour) (newYear 9995) = some found := hfound
    rw [hnone] at hsome
    cases hsome
  · intro h
    obtain ⟨e, he⟩ : ∃ e, CronExpression.parse "0 6,7 * * *".toList = some e :=
      Option.isSome_iff_exists.mp (by decide +kernel)
    have hruns : ((CronExpression.parse "0 6,7 * * *".toList).bind fun e =>
        skippedRuns e ⟨4 * day, 0, 23 * anHour⟩ (4 * day + 7 * anHour) true) =
          some (some ([4 * day + 7 * anHour], [4 * day + 7 * anHour])) := by decide +kernel
    have hdue : ((CronExpression.parse "0 6,7 * * *".toList).bind fun e =>
        (storedAt e (4 * day + 7 * anHour)).due outOfOrder.zone (4 * day + 7 * anHour)) = none := by
      decide +kernel
    have hsingle : Single outOfOrder ⟨4 * day, 0, 23 * anHour⟩ :=
      ⟨by decide, by decide, by decide, by decide, by decide, by decide⟩
    obtain ⟨runs, hskipped, hagree⟩ :=
      (h _ e outOfOrder _ (4 * day + 7 * anHour) he hsingle (by unfold Roomy; decide)).landed
        (by decide)
    rw [he, Option.bind_some] at hruns hdue
    obtain rfl := Option.some.inj (hruns.symm.trans hskipped)
    obtain ⟨last, -, hpasses⟩ := hagree
    have hn := hpasses ((last - firstPass (4 * day + 7 * anHour)).toNat + 1) (by
      change last - 0 < _
      unfold passAt
      rw [aMinute_eq]
      omega)
    have hfiltered := (congrArg ((4 * day + 7 * anHour, 4 * day + 7 * anHour) ∈ ·) hn).mpr
      List.mem_cons_self
    have hmem := List.mem_of_mem_filter hfiltered
    obtain ⟨k, -, hdispatched, hk⟩ := mem_dispatched.mp hmem
    have hself := (dispatchedAt_eq_some.mp hdispatched).1
    rw [← hk, hdue] at hself
    cases hself

end DjangoOx
