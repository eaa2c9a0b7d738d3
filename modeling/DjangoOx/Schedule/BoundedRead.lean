import DjangoOx.Schedule.Trigger
import Mathlib.Data.List.MinMax
import Mathlib.Data.List.Nodup
import Mathlib.Order.MinMax

/-! One dispatch pass over all its schedules. The tick log is read once, as far back as the oldest
due tick of the pass. -/
namespace DjangoOx

/-- What a pass does with a schedule that is due. -/
inductive PassOutcome
  /-- Before `start_time` or after `end_time`. -/
  | outOfBounds
  | recorded
  /-- Past the starting deadline. -/
  | late
  | notAdmitted
  /-- Another worker's tick row is in; the constraint refuses this one. -/
  | lost
  | anchored
  | beforeAnchor
  | fired
  deriving DecidableEq, Repr

/-- A schedule of a pass, and what its turn meets. -/
structure PassSchedule (κ : Type) where
  key : κ
  schedule : Schedule
  /-- `schedule.refresh()`, for a schedule that has one; `some none` when the row is gone. -/
  refresh : Option (Option Schedule)
  /-- The clock once the row's lock is held. -/
  admittedAt : ℤ
  /-- What other workers recorded for the schedule since the log was read. -/
  raced : List ℤ
  /-- The transaction of a tick commits. -/
  commits : Bool

namespace PassSchedule

variable {κ : Type}

/-- The schedule as it stands under its lock. -/
def current (e : PassSchedule κ) : Option Schedule :=
  e.refresh.getD (some e.schedule)

/-- The pass's decision about a due tick. `last` is the newest tick the pass read of the schedule,
`log` the schedule's ticks at its turn. -/
def outcome (e : PassSchedule κ) (z : Zone) (now scheduledFor : ℤ) (log : List ℤ)
    (last : Option ℤ) : PassOutcome :=
  if ¬ e.schedule.InBounds scheduledFor then .outOfBounds
  else if last.any fun l => scheduledFor ≤ l ∧ l ≤ now then .recorded
  -- The newest tick is in the future: the log is asked about this instant.
  else if last.any (scheduledFor ≤ ·) ∧ scheduledFor ∈ log then .recorded
  else if e.schedule.Late scheduledFor now then .late
  else match e.current with
    | none => .notAdmitted
    | some current =>
      if ¬ current.StillDue z scheduledFor (z.localtime now) e.admittedAt then .notAdmitted
      else if scheduledFor ∈ log then .lost
      else if last = none ∧ current.anchors then
        -- `_anchor_boundary`
        match log.min? with
        | none => .anchored
        | some anchor => if scheduledFor < anchor then .beforeAnchor else .fired
      else .fired

/-- The rules for a schedule that nobody else dispatches meanwhile, over its complete history. -/
def rule (e : PassSchedule κ) (z : Zone) (now scheduledFor : ℤ) (history : List ℤ) : PassOutcome :=
  if ¬ e.schedule.InBounds scheduledFor then .outOfBounds
  else if history.max?.any fun l => scheduledFor ≤ l ∧ (l ≤ now ∨ scheduledFor ∈ history) then
    .recorded
  else if e.schedule.Late scheduledFor now then .late
  else match e.current with
    | none => .notAdmitted
    | some current =>
      if ¬ current.StillDue z scheduledFor (z.localtime now) e.admittedAt then .notAdmitted
      else if history = [] ∧ current.anchors then .anchored
      else .fired

end PassSchedule

/-- The tick row stays in the log. -/
def PassOutcome.records : PassOutcome → Bool
  | .anchored | .fired => true
  | _ => false

/-- The recorded ticks of a schedule. -/
def history {κ : Type} [DecidableEq κ] (log : List (κ × ℤ)) (key : κ) : List ℤ :=
  (log.filter (·.1 = key)).map Prod.snd

/-- The schedules of a pass, one to a key. -/
structure SchedulePass (κ : Type) where
  schedules : List (PassSchedule κ)
  keys_nodup : (schedules.map PassSchedule.key).Nodup

namespace SchedulePass

variable {κ : Type} [DecidableEq κ] (p : SchedulePass κ) (z : Zone) (now : ℤ)

/-- The schedules that are due, each with its tick. -/
def due : List (PassSchedule κ × ℤ) :=
  p.schedules.filterMap fun e => (e.schedule.due z now).map (e, ·)

/-- `_latest_ticks`: the newest tick of a schedule at or after `since`. -/
def latestTicks (log : List (κ × ℤ)) (since : ℤ) (key : κ) : Option ℤ :=
  ((history log key).filter (since ≤ ·)).max?

/-- The schedules take their turns; a tick row that commits is in the log of the turns after. -/
def takeTurns (latest : κ → Option ℤ) :
    List (κ × ℤ) → List (PassSchedule κ × ℤ) → List (κ × PassOutcome)
  | _, [] => []
  | log, (e, scheduledFor) :: rest =>
    let o := e.outcome z now scheduledFor (history log e.key ++ e.raced) (latest e.key)
    (e.key, o) :: takeTurns latest
      (if o.records ∧ e.commits then log ++ [(e.key, scheduledFor)] else log) rest

/-- `dispatch_schedules` -/
def dispatchSchedules (log : List (κ × ℤ)) : List (κ × PassOutcome) :=
  match ((p.due z now).map Prod.snd).min? with
  | none => []
  | some since => takeTurns z now (latestTicks log since) log (p.due z now)

/-- Each schedule decided by its own complete history. -/
def dispatchByHistory (log : List (κ × ℤ)) : List (κ × PassOutcome) :=
  (p.due z now).map fun (e, scheduledFor) =>
    (e.key, e.outcome z now scheduledFor (history log e.key ++ e.raced) (history log e.key).max?)

end SchedulePass

theorem history_append_of_ne {κ : Type} [DecidableEq κ] {log : List (κ × ℤ)} {k key : κ} {t : ℤ}
    (h : k ≠ key) : history (log ++ [(k, t)]) key = history log key := by
  simp [history, List.filter_append, h]

/-- A newest tick inside the bound is the newest of all. -/
theorem max?_of_max?_filter {since l : ℤ} {ticks : List ℤ}
    (h : (ticks.filter (since ≤ ·)).max? = some l) : ticks.max? = some l := by
  obtain ⟨hl, hmax⟩ := List.max?_eq_some_iff.mp h
  simp only [List.mem_filter, decide_eq_true_eq] at hl hmax
  refine List.max?_eq_some_iff.mpr ⟨hl.1, fun x hx => ?_⟩
  by_cases hsince : since ≤ x
  · exact hmax x ⟨hx, hsince⟩
  · have : since ≤ l := hl.2
    omega

/-- With no tick inside the bound, every tick is before it. -/
theorem lt_of_max?_filter {since x : ℤ} {ticks : List ℤ}
    (h : (ticks.filter (since ≤ ·)).max? = none) (hx : x ∈ ticks) : x < since := by
  have hnil : ticks.filter (since ≤ ·) = [] := List.max?_eq_none_iff.mp h
  by_contra hle
  have : x ∈ ticks.filter (since ≤ ·) := by
    simp only [List.mem_filter, decide_eq_true_eq]
    exact ⟨hx, by omega⟩
  rw [hnil] at this
  exact List.not_mem_nil this

namespace PassSchedule

variable {κ : Type} {e : PassSchedule κ} {z : Zone} {now since t : ℤ} {ticks raced : List ℤ}

/-- A newest tick from before the due one decides as none does: the first sighting finds a tick
that is no later. -/
theorem outcome_of_newest_lt {m : ℤ} (hm : ticks.max? = some m) (hlt : m < t) :
    e.outcome z now t (ticks ++ raced) none = e.outcome z now t (ticks ++ raced) (some m) := by
  have hfirst : ∃ a, (ticks ++ raced).min? = some a ∧ a < t := by
    have hmem : m ∈ ticks ++ raced := List.mem_append_left _ (List.max?_mem hm)
    cases ha : (ticks ++ raced).min? with
    | none => simp [List.min?_eq_none_iff.mp ha] at hmem
    | some a =>
      have hle : a ≤ m := (List.min?_eq_some_iff.mp ha).2 m hmem
      exact ⟨a, rfl, by omega⟩
  obtain ⟨a, ha, hat⟩ := hfirst
  unfold outcome
  have hnot : ¬ t ≤ m := by omega
  have hna : ¬ t < a := by omega
  simp [hnot, ha, hna]

/-- The newest tick at or after the bound decides as the newest of the complete history. -/
theorem outcome_bounded (hsince : since ≤ t) :
    e.outcome z now t (ticks ++ raced) (ticks.filter (since ≤ ·)).max? =
      e.outcome z now t (ticks ++ raced) ticks.max? := by
  cases hb : (ticks.filter (since ≤ ·)).max? with
  | some l => rw [max?_of_max?_filter hb]
  | none =>
    cases hm : ticks.max? with
    | none => rfl
    | some m =>
      have : m < since := lt_of_max?_filter hb (List.max?_mem hm)
      exact outcome_of_newest_lt hm (by omega)

/-- With nobody else recording, the decision is the rule's. -/
theorem outcome_eq_rule : e.outcome z now t ticks ticks.max? = e.rule z now t ticks := by
  unfold outcome rule
  cases hm : ticks.max? with
  | none =>
    have hnil : ticks = [] := List.max?_eq_none_iff.mp hm
    simp [hnil]
  | some l =>
    obtain ⟨hmem, hmax⟩ := List.max?_eq_some_iff.mp hm
    have hne : ticks ≠ [] := List.ne_nil_of_mem hmem
    by_cases hle : t ≤ l
    · by_cases hnow : l ≤ now
      · simp [hle, hnow]
      · by_cases ht : t ∈ ticks <;> simp [hle, hnow, ht, hne]
    · -- No tick of the history is at the due instant.
      have ht : t ∉ ticks := fun h => hle (hmax t h)
      simp [hle, ht, hne]

end PassSchedule

namespace SchedulePass

variable {κ : Type} [DecidableEq κ] {p q : SchedulePass κ} {z : Zone} {now t : ℤ}
  {log log' : List (κ × ℤ)} {e : PassSchedule κ} {o : PassOutcome}

omit [DecidableEq κ] in
theorem mem_due : (e, t) ∈ p.due z now ↔ e ∈ p.schedules ∧ e.schedule.due z now = some t := by
  unfold due
  simp only [List.mem_filterMap, Option.map_eq_some_iff, Prod.mk.injEq]
  constructor
  · rintro ⟨e', he, t', ht, rfl, rfl⟩
    exact ⟨he, ht⟩
  · exact fun ⟨he, ht⟩ => ⟨e, he, t, ht, rfl, rfl⟩

omit [DecidableEq κ] in
theorem due_keys_nodup : ((p.due z now).map fun d => d.1.key).Nodup := by
  have hsub : ∀ l : List (PassSchedule κ),
      ((l.filterMap fun e => (e.schedule.due z now).map (e, ·)).map fun d => d.1.key).Sublist
        (l.map PassSchedule.key) := by
    intro l
    induction l with
    | nil => exact List.Sublist.slnil
    | cons e l ih =>
      cases h : e.schedule.due z now with
      | none => simpa [h] using ih.cons e.key
      | some t => simpa [h] using ih
  exact p.keys_nodup.sublist (hsub p.schedules)

/-- A turn leaves the history of every other schedule as the pass read it. -/
theorem takeTurns_eq (latest : κ → Option ℤ) (rest : List (PassSchedule κ × ℤ))
    (log : List (κ × ℤ)) (hkeys : (rest.map fun d => d.1.key).Nodup) :
    takeTurns z now latest log rest = rest.map fun (e, t) =>
      (e.key, e.outcome z now t (history log e.key ++ e.raced) (latest e.key)) := by
  induction rest generalizing log with
  | nil => rfl
  | cons d rest ih =>
    obtain ⟨e, t⟩ := d
    obtain ⟨hne, hrest⟩ := List.nodup_cons.mp hkeys
    have hlater : ∀ d ∈ rest, e.key ≠ d.1.key :=
      fun d hd h => hne (List.mem_map.mpr ⟨d, hd, h.symm⟩)
    simp only [takeTurns, List.map_cons, List.cons.injEq, true_and]
    rw [ih _ hrest]
    apply List.map_congr_left
    intro d hd
    simp only
    split
    · rw [history_append_of_ne (hlater d hd)]
    · rfl

/-- The bounded read decides as each schedule's complete history does. -/
theorem dispatchSchedules_eq (p : SchedulePass κ) (z : Zone) (now : ℤ) (log : List (κ × ℤ)) :
    p.dispatchSchedules z now log = p.dispatchByHistory z now log := by
  unfold dispatchSchedules dispatchByHistory
  cases hmin : ((p.due z now).map Prod.snd).min? with
  | none =>
    have hnil : p.due z now = [] := List.map_eq_nil_iff.mp (List.min?_eq_none_iff.mp hmin)
    rw [hnil]
    rfl
  | some since =>
    have hsince := (List.min?_eq_some_iff.mp hmin).2
    change takeTurns z now (latestTicks log since) log (p.due z now) = _
    rw [takeTurns_eq _ _ _ due_keys_nodup]
    apply List.map_congr_left
    intro ⟨e, t⟩ hd
    have hle : since ≤ t := hsince t (List.mem_map_of_mem hd)
    exact congrArg (Prod.mk e.key) (PassSchedule.outcome_bounded hle)

theorem mem_dispatchSchedules (he : e ∈ p.schedules) :
    (e.key, o) ∈ p.dispatchSchedules z now log ↔ ∃ t, e.schedule.due z now = some t ∧
      o = e.outcome z now t (history log e.key ++ e.raced) (history log e.key).max? := by
  rw [dispatchSchedules_eq]
  unfold dispatchByHistory
  simp only [List.mem_map, Prod.mk.injEq, Prod.exists]
  constructor
  · rintro ⟨e', t, hd, hkey, rfl⟩
    obtain ⟨he', ht⟩ := mem_due.mp hd
    obtain rfl := List.inj_on_of_nodup_map p.keys_nodup he' he hkey
    exact ⟨t, ht, rfl⟩
  · rintro ⟨t, ht, rfl⟩
    exact ⟨e, t, mem_due.mpr ⟨he, ht⟩, rfl, rfl⟩

/-- What the bounded read of a pass decides: for every schedule what its complete history decides,
by the rules, whichever other schedules the pass holds. -/
theorem bounded_read_decides (p : SchedulePass κ) (z : Zone) (now : ℤ) (log : List (κ × ℤ)) :
    p.dispatchSchedules z now log = p.dispatchByHistory z now log ∧
      (∀ e ∈ p.schedules, e.raced = [] → ∀ t, e.schedule.due z now = some t →
        ∀ o, (e.key, o) ∈ p.dispatchSchedules z now log ↔
          o = e.rule z now t (history log e.key)) ∧
      ∀ (q : SchedulePass κ) (log' : List (κ × ℤ)), ∀ e ∈ p.schedules, e ∈ q.schedules →
        history log e.key = history log' e.key →
          ∀ o, (e.key, o) ∈ p.dispatchSchedules z now log ↔
            (e.key, o) ∈ q.dispatchSchedules z now log' := by
  refine ⟨dispatchSchedules_eq p z now log, ?_, ?_⟩
  · intro e he hraced t ht o
    rw [mem_dispatchSchedules he, hraced, List.append_nil]
    constructor
    · rintro ⟨t', ht', rfl⟩
      obtain rfl := Option.some.inj (ht.symm.trans ht')
      exact PassSchedule.outcome_eq_rule
    · rintro rfl
      exact ⟨t, ht, PassSchedule.outcome_eq_rule.symm⟩
  · intro q log' e hp hq hlog o
    rw [mem_dispatchSchedules hp, mem_dispatchSchedules hq, hlog]

end SchedulePass

end DjangoOx
