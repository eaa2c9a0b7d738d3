import DjangoOx.Supervisor.Conserved

/-! The deaths the supervisor counts, the backoff they make, and why it stops. -/
namespace DjangoOx

open Machine

/-- The exits of a slot that were not recycles, in the order they were seen. -/
def deathsOf (slot : ℕ) (exits : List SlotExit) : List SlotExit :=
  exits.filter fun e => e.slot = slot ∧ e.code ≠ recycleExitCode

/-- The backoff after one more death. -/
def nextBackoff (o : SupervisorOptions) (backoff : Option ℤ) (e : SlotExit) : Option ℤ :=
  let backoff := if o.backoffReset ≤ e.lived then none else backoff
  some (min (backoff.getD o.restartDelay * 2) o.backoffMax)

/-- A slot has had more than `restart_cap` deaths within `restart_window`. -/
def OverCap (o : SupervisorOptions) (exits : List SlotExit) : Prop :=
  ∃ slot, Window.Crowded o.restartWindow o.restartCap ((deathsOf slot exits).map (·.seen))

theorem deathsOf_concat (slot : ℕ) (exits : List SlotExit) (e : SlotExit) :
    deathsOf slot (exits ++ [e]) =
      deathsOf slot exits ++ if e.slot = slot ∧ e.code ≠ recycleExitCode then [e] else [] := by
  unfold deathsOf
  rw [List.filter_append, List.filter_singleton]
  congr 1
  by_cases h : e.slot = slot ∧ e.code ≠ recycleExitCode
  · rw [if_pos h, decide_eq_true h]
    rfl
  · rw [if_neg h, decide_eq_false h]
    rfl

theorem deathsOf_recycle (slot : ℕ) (exits : List SlotExit) {e : SlotExit}
    (h : e.code = recycleExitCode) : deathsOf slot (exits ++ [e]) = deathsOf slot exits := by
  rw [deathsOf_concat, if_neg (fun hd => hd.2 h), List.append_nil]

theorem deathsOf_other {slot : ℕ} (exits : List SlotExit) {e : SlotExit} (h : e.slot ≠ slot) :
    deathsOf slot (exits ++ [e]) = deathsOf slot exits := by
  rw [deathsOf_concat, if_neg (fun hd => h hd.1), List.append_nil]

theorem deathsOf_death {slot : ℕ} (exits : List SlotExit) {e : SlotExit} (hs : e.slot = slot)
    (h : e.code ≠ recycleExitCode) : deathsOf slot (exits ++ [e]) = deathsOf slot exits ++ [e] := by
  rw [deathsOf_concat, if_pos ⟨hs, h⟩]

namespace Supervisor

variable {o : SupervisorOptions} {s t : Supervisor}

/-- What the supervisor keeps about deaths is what its exits say. -/
structure Counted (o : SupervisorOptions) (s : Supervisor) : Prop where
  deaths : ∀ i, s.deaths i = Window.queue o.restartWindow ((deathsOf i s.exits).map (·.seen))
  backoff : s.capTripped = false →
    ∀ i, s.backoff i = (deathsOf i s.exits).foldl (nextBackoff o) none
  sorted : s.exits.Pairwise fun d e => d.seen ≤ e.seen
  past : ∀ e ∈ s.exits, e.seen ≤ s.clock
  tripped : s.capTripped = true ↔ OverCap o s.exits

/-- No child is started and no death seen, and a stop stands. -/
structure Frame (s t : Supervisor) : Prop where
  deaths : t.deaths = s.deaths
  backoff : t.backoff = s.backoff
  exits : t.exits = s.exits
  capTripped : t.capTripped = s.capTripped
  clock : s.clock ≤ t.clock
  started : t.processes.length = s.processes.length
  stopping : s.stopping = true → t.stopping = true

theorem Frame.trans {u : Supervisor} (h : s.Frame t) (h' : t.Frame u) : s.Frame u :=
  ⟨h'.deaths.trans h.deaths, h'.backoff.trans h.backoff, h'.exits.trans h.exits,
    h'.capTripped.trans h.capTripped, h.clock.trans h'.clock, h'.started.trans h.started,
    h'.stopping ∘ h.stopping⟩

theorem Frame.counted (h : s.Frame t) (hs : s.Counted o) : t.Counted o := by
  constructor
  · rw [h.deaths, h.exits]
    exact hs.deaths
  · rw [h.backoff, h.exits, h.capTripped]
    exact hs.backoff
  · rw [h.exits]
    exact hs.sorted
  · rw [h.exits]
    exact fun e he => (hs.past e he).trans h.clock
  · rw [h.capTripped, h.exits]
    exact hs.tripped

theorem Signalled.frame (h : s.Signalled t) : s.Frame t := by
  have hlength : t.processes.length = s.processes.length := by
    simpa [Supervisor.faces] using congrArg List.length h.faces
  rw [h.eq]
  exact ⟨rfl, rfl, rfl, rfl, le_rfl, hlength, id⟩

theorem frame_killOverdue (s : Supervisor) : s.Frame s.killOverdue := by
  unfold Supervisor.killOverdue
  split
  · exact ⟨rfl, rfl, rfl, rfl, le_rfl, rfl, id⟩
  · split_ifs
    · exact ⟨rfl, rfl, rfl, rfl, le_rfl, rfl, id⟩
    · have hsignalled := signalled_signalChildren { s with killAt := none } sigkill
      have hframe : s.Frame { s with killAt := none } := ⟨rfl, rfl, rfl, rfl, le_rfl, rfl, id⟩
      exact hframe.trans hsignalled.frame

theorem frame_actOnSignal (o : SupervisorOptions) (s : Supervisor) : s.Frame (s.actOnSignal o) := by
  obtain ⟨killAt, heq⟩ := actOnSignal_eq o s
  rw [heq]
  let u : Supervisor := { s with signalsSeen := s.signalsSeen + 1, killAt := killAt, asked := true }
  have hframe : s.Frame u.requestStop := ⟨rfl, rfl, rfl, rfl, le_rfl, rfl, fun _ => rfl⟩
  exact hframe.trans (signalled_signalChildren u.requestStop sigterm).frame

theorem Frame.goto (h : s.Frame t) (stage : Stage) : s.Frame (t.goto stage) :=
  ⟨h.deaths, h.backoff, h.exits, h.capTripped, h.clock, h.started, h.stopping⟩

theorem Frame.refl (s : Supervisor) : s.Frame s := ⟨rfl, rfl, rfl, rfl, le_rfl, rfl, id⟩

/-- A start, an exit seen while not stopping, or a step that is neither. -/
theorem advance_cases (ht : s.advance o = some t) :
    s.Frame t ∨
      (∃ i dues, s.stage = .opening i dues ∧
        t = (s.opened i).goto (.opened i s.processes.length dues)) ∨
      ∃ i code rest k, s.stage = .timing i code rest k ∧ t = s.judge o i code rest k := by
  have hgoto (stage : Stage) : s.Frame (s.goto stage) := (Frame.refl s).goto stage
  unfold Supervisor.advance at ht
  cases hstage : s.stage <;> rw [hstage] at ht
  case timing i code rest k =>
    cases ht
    exact .inr (.inr ⟨i, code, rest, k, rfl, rfl⟩)
  case opening i dues =>
    cases ht
    exact .inr (.inl ⟨i, dues, rfl, rfl⟩)
  all_goals left
  case processSignals k =>
    dsimp only at ht
    split at ht
    · cases ht
      exact hgoto _
    · next rest hrest =>
      cases ht
      have hframe : s.Frame { s with stage := .processSignals k, signals := rest } :=
        ⟨rfl, rfl, rfl, rfl, le_rfl, rfl, id⟩
      exact hframe.trans (frame_actOnSignal o _)
  case opened i pid dues =>
    cases ht
    split_ifs
    · exact (signalled_send _ _).frame.goto _
    · exact hgoto _
  case reaping rest k =>
    cases rest with
    | nil =>
      cases ht
      exact hgoto _
    | cons e rest =>
      dsimp only at ht
      split at ht <;> cases ht
      · exact hgoto _
      · exact ⟨rfl, rfl, rfl, rfl, le_rfl, rfl, id⟩
  case putting i due rest k =>
    cases ht
    split_ifs <;> exact ⟨rfl, rfl, rfl, rfl, le_rfl, rfl, id⟩
  case dueLoop now rest =>
    cases rest <;> cases ht <;> exact hgoto _
  case killOverdue k =>
    cases ht
    exact (frame_killOverdue s).goto _
  case closing raising =>
    cases ht
    have hframe : s.Frame s.requestStop := ⟨rfl, rfl, rfl, rfl, le_rfl, rfl, fun _ => rfl⟩
    exact (hframe.trans (signalled_signalChildren _ sigterm).frame).goto _
  case returned | raised => cases ht
  all_goals
    cases ht
    exact ⟨rfl, rfl, rfl, rfl, le_rfl, rfl, id⟩

theorem step_cases {a : Action} (ht : s.step o a = some t) :
    s.Frame t ∨
      (∃ i dues, s.stage = .opening i dues ∧
        t = (s.opened i).goto (.opened i s.processes.length dues)) ∨
      ∃ i code rest k, s.stage = .timing i code rest k ∧ t = s.judge o i code rest k := by
  unfold Supervisor.step at ht
  cases a with
  | run => exact advance_cases ht
  | fail =>
    left
    dsimp only at ht
    split at ht <;> cases ht
    exact ⟨rfl, rfl, rfl, rfl, le_rfl, rfl, id⟩
  | receive signum =>
    cases ht
    exact .inl ⟨rfl, rfl, rfl, rfl, le_rfl, rfl, id⟩
  | request =>
    dsimp only at ht
    split_ifs at ht
    cases ht
    exact .inl ⟨rfl, rfl, rfl, rfl, le_rfl, rfl, fun _ => rfl⟩
  | exit pid code =>
    dsimp only at ht
    split_ifs at ht
    cases ht
    exact .inl ⟨rfl, rfl, rfl, rfl, le_rfl, List.length_modify .., id⟩
  | tick elapsed =>
    cases ht
    exact .inl ⟨rfl, rfl, rfl, rfl, by simp, rfl, id⟩

section judge

variable {i : ℕ} {code : ℤ} {rest : List (ℕ × ℕ)} {k : Caller}

/-- The exit a reap judges. -/
def exitSeen (s : Supervisor) (i : ℕ) (code : ℤ) : SlotExit :=
  ⟨i, code, s.clock - (s.startedAt i).getD s.clock, s.clock⟩

/-- A recycle leaves the deaths and the backoff alone, and waits the base delay. -/
theorem judge_recycle (h : code = recycleExitCode) :
    s.judge o i code rest k = { s with
      exits := s.exits ++ [s.exitSeen i code]
      stage := .putting i (s.clock + o.restartDelay) rest k } := by
  unfold judge
  dsimp only
  rw [if_pos h]
  rfl

/-- The queue of the slot's deaths after one more. -/
def deathQueue (o : SupervisorOptions) (s : Supervisor) (i : ℕ) : List ℤ :=
  Window.slide o.restartWindow (s.deaths i) s.clock

/-- A death that trips the cap. -/
theorem judge_over (h : code ≠ recycleExitCode) (hcap : o.restartCap < (s.deathQueue o i).length) :
    s.judge o i code rest k = (signalChildren (requestStop { s with
      exits := s.exits ++ [s.exitSeen i code]
      deaths := Function.update s.deaths i (s.deathQueue o i)
      capTripped := true }) sigterm).goto (.reaping rest k) := by
  unfold judge
  dsimp only
  rw [if_neg h]
  exact if_pos hcap

/-- A death under the cap doubles the backoff. -/
theorem judge_under (rest : List (ℕ × ℕ)) (k : Caller) (h : code ≠ recycleExitCode)
    (hcap : ¬ o.restartCap < (s.deathQueue o i).length) :
    ∃ due, s.judge o i code rest k = { s with
      exits := s.exits ++ [s.exitSeen i code]
      deaths := Function.update s.deaths i (s.deathQueue o i)
      backoff := Function.update s.backoff i (nextBackoff o (s.backoff i) (s.exitSeen i code))
      stage := .putting i due rest k } := by
  unfold judge
  dsimp only
  rw [if_neg h]
  exact ⟨_, if_neg hcap⟩

end judge

/-- The exit is judged by what the window holds once it is in it. -/
theorem Counted.judge {i : ℕ} {code : ℤ} {rest : List (ℕ × ℕ)} {k : Caller} (h : s.Counted o)
    (hfresh : s.capTripped = false) : (s.judge o i code rest k).Counted o := by
  have hsorted : (s.exits ++ [s.exitSeen i code]).Pairwise fun d e => d.seen ≤ e.seen := by
    apply List.pairwise_append.mpr
    refine ⟨h.sorted, List.pairwise_singleton _ _, ?_⟩
    intro d hd e he
    rw [List.mem_singleton] at he
    exact he ▸ h.past d hd
  have hpast : ∀ e ∈ s.exits ++ [s.exitSeen i code], e.seen ≤ s.clock := by
    intro e he
    rcases List.mem_append.mp he with he | he
    · exact h.past e he
    · rw [List.mem_singleton] at he
      exact he ▸ le_rfl
  have hopen : ¬ OverCap o s.exits := by
    intro hover
    rw [h.tripped.mpr hover] at hfresh
    cases hfresh
  by_cases hcode : code = recycleExitCode
  · rw [judge_recycle hcode]
    have hdeaths (j : ℕ) : deathsOf j (s.exits ++ [s.exitSeen i code]) = deathsOf j s.exits :=
      deathsOf_recycle j s.exits hcode
    constructor
    · intro j
      rw [hdeaths j]
      exact h.deaths j
    · intro hcap j
      rw [hdeaths j]
      exact h.backoff hcap j
    · exact hsorted
    · exact hpast
    · unfold OverCap
      simp only [hdeaths]
      exact h.tripped
  · have hdeath : deathsOf i (s.exits ++ [s.exitSeen i code]) = deathsOf i s.exits ++ [s.exitSeen i code] :=
      deathsOf_death s.exits rfl hcode
    have hother {j : ℕ} (hj : j ≠ i) :
        deathsOf j (s.exits ++ [s.exitSeen i code]) = deathsOf j s.exits :=
      deathsOf_other s.exits (Ne.symm hj)
    have hqueue (j : ℕ) : Function.update s.deaths i (s.deathQueue o i) j =
        Window.queue o.restartWindow
          ((deathsOf j (s.exits ++ [s.exitSeen i code])).map (·.seen)) := by
      by_cases hj : j = i
      · subst hj
        rw [Function.update_self, hdeath, List.map_append, List.map_singleton, Window.queue_concat,
          ← h.deaths]
        rfl
      · rw [Function.update_of_ne hj, hother hj]
        exact h.deaths j
    have hcrowded : (deathsOf i (s.exits ++ [s.exitSeen i code])).map (·.seen) =
        (deathsOf i s.exits).map (·.seen) ++ [s.clock] := by
      rw [hdeath, List.map_append]
      rfl
    have htimes : ((deathsOf i s.exits).map (·.seen) ++ [s.clock]).Pairwise (· ≤ ·) := by
      rw [← hcrowded]
      exact List.pairwise_map.mpr (hsorted.sublist List.filter_sublist)
    have hover : OverCap o (s.exits ++ [s.exitSeen i code]) ↔
        o.restartCap < (s.deathQueue o i).length := by
      have hmine := Window.crowded_concat o.restartWindow o.restartCap htimes
      rw [← hcrowded, ← hqueue i, Function.update_self] at hmine
      constructor
      · rintro ⟨j, hj⟩
        by_cases hji : j = i
        · subst hji
          exact (hmine.mp hj).resolve_left fun hold => hopen ⟨j, hold⟩
        · rw [hother hji] at hj
          exact absurd ⟨j, hj⟩ hopen
      · intro hlen
        exact ⟨i, hmine.mpr (.inr hlen)⟩
    by_cases hcap : o.restartCap < (s.deathQueue o i).length
    · rw [judge_over hcode hcap]
      apply Frame.counted ((signalled_signalChildren _ sigterm).frame.goto _)
      constructor
      · exact hqueue
      · intro hfalse
        cases hfalse
      · exact hsorted
      · exact hpast
      · exact iff_of_true rfl (hover.mpr hcap)
    · obtain ⟨due, heq⟩ := judge_under rest k hcode hcap
      rw [heq]
      constructor
      · exact hqueue
      · intro _ j
        dsimp only
        by_cases hj : j = i
        · subst hj
          rw [Function.update_self, hdeath, List.foldl_append, ← h.backoff hfresh]
          rfl
        · rw [Function.update_of_ne hj, hother hj]
          exact h.backoff hfresh j
      · exact hsorted
      · exact hpast
      · exact iff_of_false (by simp [hfresh]) fun h => hcap (hover.mp h)

/-- An exception is on its way out of `run`. -/
def Stage.raising : Stage → Bool
  | .processSignals (.closing raising) | .reaping _ (.closing raising)
  | .recording _ _ _ (.closing raising) | .judging _ _ _ (.closing raising)
  | .killOverdue (.closing raising) | .closing raising | .leaving raising => raising
  | .raised => true
  | _ => false

/-- Why the supervisor is stopping, and what it answers. -/
structure Reasons (s : Supervisor) : Prop where
  stops : s.capTripped = true → s.stopping = true
  why : s.stopping = true → s.asked = true ∨ s.failed = true ∨ s.capTripped = true
  raising : s.failed = s.stage.raising
  apart : s.failed = true → s.capTripped = false
  fresh : ∀ i code rest k, s.stage = .timing i code rest k → s.capTripped = false
  done : s.stage = .closing false → s.stopping = true
  answer : ∀ code, s.stage = .returned code → s.stopping = true ∧ (s.capTripped = true → code = 1)

/-- The flags are the same, but that a stop may be asked for. -/
structure SameFlags (s t : Supervisor) : Prop where
  capTripped : t.capTripped = s.capTripped
  failed : t.failed = s.failed
  stopping : s.stopping = true → t.stopping = true
  asked : s.asked = true → t.asked = true
  stopped : t.stopping = true → s.stopping = true ∨ t.asked = true ∨ t.failed = true

/-- The stages at which nothing is known of the flags. -/
def Stage.plain : Stage → Bool
  | .timing _ _ _ _ | .closing false | .returned _ => false
  | _ => true

theorem SameFlags.refl (s : Supervisor) : s.SameFlags s :=
  ⟨rfl, rfl, id, id, .inl⟩

theorem Signalled.flags {u : Supervisor} (h : t.Signalled u) (hs : s.SameFlags t) : s.SameFlags u := by
  constructor <;> rw [h.eq]
  · exact hs.capTripped
  · exact hs.failed
  · exact hs.stopping
  · exact hs.asked
  · exact hs.stopped

theorem SameFlags.why (h : s.SameFlags t) (hs : s.Reasons) :
    t.stopping = true → t.asked = true ∨ t.failed = true ∨ t.capTripped = true := by
  intro hstop
  rw [h.capTripped, h.failed]
  rcases h.stopped hstop with hold | hasked | hfailed
  · exact (hs.why hold).imp h.asked id
  · exact .inl hasked
  · exact .inr (.inl (h.failed ▸ hfailed))

/-- From one stage to the next, with what the next one asks for. -/
theorem SameFlags.reasons (h : s.SameFlags t) (hs : s.Reasons) {stage : Stage}
    (hraising : stage.raising = s.stage.raising)
    (hfresh : ∀ i code rest k, stage = .timing i code rest k → s.capTripped = false)
    (hdone : stage = .closing false → t.stopping = true)
    (hanswer : ∀ code, stage = .returned code →
      t.stopping = true ∧ (s.capTripped = true → code = 1)) : (t.goto stage).Reasons where
  stops hcap := h.stopping (hs.stops (h.capTripped ▸ hcap))
  why := h.why hs
  raising := h.failed.trans (hs.raising.trans hraising.symm)
  apart hfailed := h.capTripped.trans (hs.apart (h.failed ▸ hfailed))
  fresh i code rest k hstage := h.capTripped.trans (hfresh i code rest k hstage)
  done := hdone
  answer code hstage := ⟨(hanswer code hstage).1, fun hcap => (hanswer code hstage).2 (h.capTripped ▸ hcap)⟩

theorem SameFlags.goto (h : s.SameFlags t) (hs : s.Reasons) {stage : Stage}
    (hraising : stage.raising = s.stage.raising) (hplain : stage.plain = true) :
    (t.goto stage).Reasons := by
  apply h.reasons hs hraising
  · rintro i code rest k rfl
    cases hplain
  · rintro rfl
    cases hplain
  · rintro code rfl
    cases hplain

/-- The same stage, with no new flag but a stop that was asked for. -/
theorem SameFlags.stay (h : s.SameFlags t) (hs : s.Reasons) (hstage : t.stage = s.stage) :
    t.Reasons := by
  have hgoto : t = t.goto s.stage := by
    rw [← hstage]
    rfl
  rw [hgoto]
  apply h.reasons hs rfl hs.fresh
  · exact fun hclosing => h.stopping (hs.done hclosing)
  · exact fun code hreturned => ⟨h.stopping (hs.answer code hreturned).1, (hs.answer code hreturned).2⟩

theorem flags_killOverdue (s : Supervisor) : s.SameFlags s.killOverdue := by
  unfold Supervisor.killOverdue
  split
  · exact .refl s
  · split_ifs
    · exact .refl s
    · exact (signalled_signalChildren _ sigkill).flags ⟨rfl, rfl, id, id, .inl⟩

theorem Reasons.actOnSignal (hs : s.Reasons) : (s.actOnSignal o).Reasons := by
  obtain ⟨killAt, heq⟩ := actOnSignal_eq o s
  rw [heq]
  let u : Supervisor := { s with signalsSeen := s.signalsSeen + 1, killAt := killAt, asked := true }
  have hsignalled := signalled_signalChildren u.requestStop sigterm
  have hflags : s.SameFlags u.requestStop :=
    ⟨rfl, rfl, fun _ => rfl, fun _ => rfl, fun _ => .inr (.inl rfl)⟩
  apply (hsignalled.flags hflags).stay hs
  rw [hsignalled.eq]
  rfl

theorem Reasons.judge {i : ℕ} {code : ℤ} {rest : List (ℕ × ℕ)} (hs : s.Reasons)
    (hstage : s.stage = .timing i code rest .round) : (s.judge o i code rest .round).Reasons := by
  have hfailed : s.failed = false := by
    rw [hs.raising, hstage]
    rfl
  by_cases hcode : code = recycleExitCode
  · rw [judge_recycle hcode]
    have hflags : s.SameFlags { s with exits := s.exits ++ [s.exitSeen i code] } :=
      ⟨rfl, rfl, id, id, .inl⟩
    exact @SameFlags.goto s _ hflags hs (.putting i _ rest .round) (by rw [hstage]; rfl) rfl
  · by_cases hcap : o.restartCap < (s.deathQueue o i).length
    · rw [judge_over hcode hcap]
      generalize hu : requestStop _ = u
      have hstop : u.stopping = true := by
        rw [← hu]
        rfl
      have htripped : u.capTripped = true := by
        rw [← hu]
        rfl
      have hufailed : u.failed = false := by
        rw [← hu]
        exact hfailed
      rw [(signalled_signalChildren u sigterm).eq]
      constructor
      · exact fun _ => hstop
      · exact fun _ => .inr (.inr htripped)
      · exact hufailed
      · intro h
        rw [show u.failed = true from h] at hufailed
        cases hufailed
      · intro j c r k h
        cases h
      · intro h
        cases h
      · intro c h
        cases h
    · obtain ⟨due, heq⟩ := judge_under rest .round hcode hcap
      rw [heq]
      generalize Function.update s.deaths i _ = deaths
      generalize Function.update s.backoff i _ = backoff
      have hflags : s.SameFlags { s with
          exits := s.exits ++ [s.exitSeen i code], deaths := deaths, backoff := backoff } :=
        ⟨rfl, rfl, id, id, .inl⟩
      exact @SameFlags.goto s _ hflags hs (.putting i due rest .round) (by rw [hstage]; rfl) rfl

/-- The loop goes on while it is not stopping: some slot is in one of the dictionaries. -/
theorem Inv.loop_goes_on (h : s.Inv o) (hstage : s.stage = .looping) (hstop : s.stopping = false) :
    s.children.items ≠ [] ∨ s.restartDue.items ≠ [] := by
  have hwhole := h.2
  rw [hstage] at hwhole
  rcases hwhole hstop 0 o.processes_pos (by simp) with hchild | hdue
  · left
    intro hempty
    rw [Dict.items_eq_nil.mp hempty] at hchild
    cases hchild
  · right
    intro hempty
    rw [Dict.items_eq_nil.mp hempty] at hdue
    cases hdue

theorem exitCode_of_tripped (h : s.capTripped = true) : s.exitCode o = 1 :=
  if_pos h

theorem Reasons.advance (hinv : s.Inv o) (hs : s.Reasons) (ht : s.advance o = some t) :
    t.Reasons := by
  have hat := hinv.2
  have hsame := SameFlags.refl s
  unfold Supervisor.advance at ht
  cases hstage : s.stage <;> rw [hstage] at ht hat
  case idle =>
    cases ht
    exact hsame.goto hs (by rw [hstage]; rfl) rfl
  case first i =>
    cases ht
    split_ifs <;> exact hsame.goto hs (by rw [hstage]; rfl) rfl
  case processSignals k =>
    dsimp only at ht
    split at ht
    · cases ht
      cases k <;> exact hsame.goto hs (by rw [hstage]; rfl) rfl
    · next rest hrest =>
      cases ht
      have hflags : s.SameFlags { s with signals := rest } := ⟨rfl, rfl, id, id, .inl⟩
      have hrest := @SameFlags.goto s _ hflags hs (.processSignals k) (by rw [hstage]) rfl
      exact hrest.actOnSignal
  case checking i =>
    cases ht
    split_ifs <;> exact hsame.goto hs (by rw [hstage]; rfl) rfl
  case starting i dues =>
    cases ht
    split_ifs
    · cases dues <;> exact hsame.goto hs (by rw [hstage]; rfl) rfl
    · exact hsame.goto hs (by rw [hstage]; rfl) rfl
  case opening i dues =>
    cases ht
    have hflags : s.SameFlags (s.opened i) := ⟨rfl, rfl, id, id, .inl⟩
    exact hflags.goto hs (by rw [hstage]; rfl) rfl
  case opened i pid dues =>
    cases ht
    split_ifs
    · cases dues <;> exact ((signalled_send _ _).flags hsame).goto hs (by rw [hstage]; rfl) rfl
    · cases dues <;> exact hsame.goto hs (by rw [hstage]; rfl) rfl
  case looping =>
    cases ht
    split_ifs with hgo
    · exact hsame.goto hs (by rw [hstage]; rfl) rfl
    · have hstop : s.stopping = true := by
        by_contra hrun
        have hrun := Bool.eq_false_of_not_eq_true hrun
        exact hgo ((hinv.loop_goes_on hstage hrun).imp id fun h => ⟨h, hrun⟩)
      apply hsame.reasons hs (by rw [hstage]; rfl)
      · intro i code rest k h
        cases h
      · exact fun _ => hstop
      · intro code h
        cases h
  case reaping rest k =>
    cases rest with
    | nil =>
      cases ht
      cases k <;> exact hsame.goto hs (by rw [hstage]; rfl) rfl
    | cons e rest =>
      dsimp only at ht
      split at ht <;> cases ht
      · cases k <;> exact hsame.goto hs (by rw [hstage]; rfl) rfl
      · have hflags : s.SameFlags { s with stage := .reaping (e :: rest) k, children := s.children.erase e.1 } :=
          ⟨rfl, rfl, id, id, .inl⟩
        cases k <;> exact hflags.goto hs (by rw [hstage]; rfl) rfl
  case recording i code rest k =>
    cases ht
    have hflags : s.SameFlags (s.recordExit i code) := ⟨rfl, rfl, id, id, .inl⟩
    cases k <;> exact hflags.goto hs (by rw [hstage]; rfl) rfl
  case judging i code rest k =>
    cases ht
    split_ifs with hstop
    · cases k <;> exact hsame.goto hs (by rw [hstage]; rfl) rfl
    · have hfresh : s.capTripped = false := by
        by_contra hcap
        exact hstop (hs.stops (Bool.eq_true_of_not_eq_false hcap))
      have hk : Stage.raising (.judging i code rest k) = false := by
        cases k with
        | closing raising => exact absurd hat.1 hstop
        | _ => rfl
      apply hsame.reasons hs (by rw [hstage, hk]; rfl)
      · exact fun _ _ _ _ _ => hfresh
      · intro h
        cases h
      · intro c h
        cases h
  case timing i code rest k =>
    cases ht
    obtain ⟨rfl, -⟩ := hat
    exact hs.judge hstage
  case putting i due rest k =>
    cases ht
    obtain ⟨rfl, -⟩ := hat
    split_ifs
    · exact hsame.goto hs (by rw [hstage]; rfl) rfl
    · have hflags : s.SameFlags { s with restartDue := s.restartDue.set i due } :=
        ⟨rfl, rfl, id, id, .inl⟩
      exact hflags.goto hs (by rw [hstage]; rfl) rfl
  case startDue =>
    cases ht
    split_ifs <;> exact hsame.goto hs (by rw [hstage]; rfl) rfl
  case dueLoop now rest =>
    cases rest with
    | nil =>
      cases ht
      exact hsame.goto hs (by rw [hstage]; rfl) rfl
    | cons e rest =>
      cases ht
      split_ifs <;> exact hsame.goto hs (by rw [hstage]; rfl) rfl
  case killOverdue k =>
    cases ht
    cases k <;> exact (flags_killOverdue s).goto hs (by rw [hstage]; rfl) rfl
  case closing raising =>
    cases ht
    have hflags : s.SameFlags s.requestStop := by
      refine ⟨rfl, rfl, fun _ => rfl, id, fun _ => ?_⟩
      cases raising with
      | false => exact .inl (hs.done hstage)
      | true =>
        refine .inr (.inr ?_)
        show s.failed = true
        rw [hs.raising, hstage]
        rfl
    exact ((signalled_signalChildren _ sigterm).flags hflags).goto hs (by rw [hstage]; rfl) rfl
  case leaving raising =>
    cases ht
    split_ifs with hempty hraising
    · exact hsame.goto hs (by rw [hstage]; rfl) rfl
    · exact hsame.goto hs (by rw [hstage, hraising]; rfl) rfl
    · have hfalse : raising = false := Bool.eq_false_of_not_eq_true hraising
      apply hsame.reasons hs (by rw [hstage, hfalse]; rfl)
      · intro i code rest k h
        cases h
      · intro h
        cases h
      · intro code h
        cases h
        exact ⟨hat, exitCode_of_tripped⟩
  case returned | raised => cases ht

theorem Reasons.step (hinv : s.Inv o) (hs : s.Reasons) {a : Action} (ht : s.step o a = some t) :
    t.Reasons := by
  unfold Supervisor.step at ht
  cases a with
  | run => exact hs.advance hinv ht
  | fail =>
    dsimp only at ht
    split at ht
    · next i dues hstage =>
      cases ht
      have hat := hinv.2
      rw [hstage] at hat
      have hstop : s.stopping = false := by
        match dues with
        | none => exact hat.1
        | some (now, rest) => exact hat.1
      have hfresh : s.capTripped = false := by
        by_contra hcap
        rw [hs.stops (Bool.eq_true_of_not_eq_false hcap)] at hstop
        cases hstop
      constructor
      · exact hs.stops
      · exact fun _ => .inr (.inl rfl)
      · cases dues <;> rfl
      · exact fun _ => hfresh
      · exact fun _ _ _ _ _ => hfresh
      · intro h
        cases dues <;> cases h
      · intro c h
        cases dues <;> cases h
    · cases ht
  | receive signum =>
    cases ht
    have hflags : s.SameFlags { s with signals := s.signals ++ [signum] } := ⟨rfl, rfl, id, id, .inl⟩
    exact hflags.stay hs rfl
  | request =>
    dsimp only at ht
    split_ifs at ht
    cases ht
    have hflags : s.SameFlags { s.requestStop with asked := true } :=
      ⟨rfl, rfl, fun _ => rfl, fun _ => rfl, fun _ => .inr (.inl rfl)⟩
    exact hflags.stay hs rfl
  | exit pid code =>
    dsimp only at ht
    split_ifs at ht
    cases ht
    have hflags : s.SameFlags
        { s with processes := s.processes.modify pid ({ · with returncode := some code }) } :=
      ⟨rfl, rfl, id, id, .inl⟩
    exact hflags.stay hs rfl
  | tick elapsed =>
    cases ht
    have hflags : s.SameFlags { s with clock := s.clock + elapsed } := ⟨rfl, rfl, id, id, .inl⟩
    exact hflags.stay hs rfl

end Supervisor

end DjangoOx
