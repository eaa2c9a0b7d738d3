import DjangoOx.Supervisor.Deaths

/-! What holds of the supervisor throughout a run, and the start that leaves a child behind. -/
namespace DjangoOx

open Machine

namespace Supervisor

variable {o : SupervisorOptions} {s t : Supervisor}

/-- `run` has returned or raised. -/
def Ended (s : Supervisor) : Prop := (∃ code, s.stage = .returned code) ∨ s.stage = .raised

/-- A child started from here goes into a slot that has none, and where slots are started again, into
one whose time has come. -/
def StartsDue (o : SupervisorOptions) (s : Supervisor) : Prop :=
  ∀ a t, s.step o a = some t → t.processes.length ≠ s.processes.length →
    s.stopping = false ∧ ∃ i, t.processes = s.processes ++ [⟨i, none, []⟩] ∧
      s.children.get? i = none ∧
      (s.stage = .opening i none ∨ ∃ due ≤ s.clock, s.restartDue.get? i = some due)

/-- No slot is lost, nothing is started too early or once a stop was asked for, no child is left
behind, and a slot over the cap is why the supervisor stops by itself. -/
structure Conserved (o : SupervisorOptions) (s : Supervisor) : Prop where
  slots : s.stage = .looping → s.stopping = false → ∀ i < o.processes,
    Xor ((s.children.get? i).isSome = true) ((s.restartDue.get? i).isSome = true)
  starts : s.StartsDue o
  stopped : s.stopping = true → ∀ as t, (machine o).run s as = some t →
    t.processes.length = s.processes.length
  left : s.Ended → s.Settled
  capped : OverCap o s.exits →
    s.stopping = true ∧ s.stage ≠ .raised ∧ ∀ code, s.stage = .returned code → code = 1
  itself : s.stopping = true → s.asked = false → s.failed = false → OverCap o s.exits
  backoff : s.capTripped = false → ∀ i, s.backoff i = (deathsOf i s.exits).foldl (nextBackoff o) none

/-- The invariants of a run. -/
structure Steady (o : SupervisorOptions) (s : Supervisor) : Prop where
  inv : s.Inv o
  counted : s.Counted o
  reasons : s.Reasons

theorem Counted.step (hr : s.Reasons) (h : s.Counted o) {a : Action} (ht : s.step o a = some t) :
    t.Counted o := by
  rcases step_cases ht with hframe | ⟨i, dues, -, rfl⟩ | ⟨i, code, rest, k, hstage, rfl⟩
  · exact hframe.counted h
  · exact ⟨h.deaths, h.backoff, h.sorted, h.past, h.tripped⟩
  · exact h.judge (hr.fresh i code rest k hstage)

theorem Steady.step (h : s.Steady o) {a : Action} (hspared : ¬ s.Stranded a)
    (ht : s.step o a = some t) : t.Steady o :=
  ⟨h.inv.step hspared ht, h.counted.step h.reasons ht, h.reasons.step h.inv ht⟩

theorem steady_initial (clock : ℤ) : (initial clock).Steady o where
  inv := inv_initial clock
  counted := by
    constructor
    · exact fun _ => rfl
    · exact fun _ _ => rfl
    · exact List.Pairwise.nil
    · intro e he
      cases he
    · refine iff_of_false (by simp [initial]) ?_
      rintro ⟨_, h⟩
      exact Window.not_crowded_nil _ _ h
  reasons := by
    constructor
    · intro h
      cases h
    · intro h
      cases h
    · rfl
    · exact fun _ => rfl
    · exact fun _ _ _ _ _ => rfl
    · intro h
      cases h
    · intro _ h
      cases h

theorem reachable_steady (h : (machine o).ReachesBy (fun s a => ¬ s.Stranded a) s) : s.Steady o := by
  apply h.invariant (Steady o)
  · rintro s ⟨clock, rfl⟩
    exact steady_initial clock
  · intro s a t hs hspared ht
    exact hs.step hspared ht

theorem Inv.opening_not_stopping (h : s.Inv o) {i : ℕ} {dues : Dues}
    (hstage : s.stage = .opening i dues) : s.stopping = false := by
  have hat := h.2
  rw [hstage] at hat
  match dues with
  | none => exact hat.1
  | some (now, rest) => exact hat.1

/-- A start raises only while nothing stops, so a stopping supervisor strands nobody. -/
theorem Inv.not_stranded (h : s.Inv o) (hstop : s.stopping = true) {a : Action} : ¬ s.Stranded a := by
  unfold Stranded
  split
  · rintro ⟨-, i, hstage⟩
    rw [h.opening_not_stopping hstage] at hstop
    cases hstop
  · exact id

/-- A stopping supervisor starts nothing and goes on stopping. -/
theorem Inv.stopped_step (h : s.Inv o) (hstop : s.stopping = true) {a : Action}
    (ht : s.step o a = some t) :
    t.processes.length = s.processes.length ∧ t.stopping = true := by
  rcases step_cases ht with hframe | ⟨i, dues, hstage, -⟩ | ⟨i, code, rest, k, hstage, rfl⟩
  · exact ⟨hframe.started, hframe.stopping hstop⟩
  · rw [h.opening_not_stopping hstage] at hstop
    cases hstop
  · by_cases hcode : code = recycleExitCode
    · rw [judge_recycle hcode]
      exact ⟨rfl, hstop⟩
    · by_cases hcap : o.restartCap < (s.deathQueue o i).length
      · rw [judge_over hcode hcap]
        have hframe := (signalled_signalChildren (requestStop { s with
          exits := s.exits ++ [s.exitSeen i code]
          deaths := Function.update s.deaths i (s.deathQueue o i)
          capTripped := true }) sigterm).frame
        exact ⟨hframe.started, hframe.stopping rfl⟩
      · obtain ⟨due, heq⟩ := judge_under rest k hcode hcap
        rw [heq]
        exact ⟨rfl, hstop⟩

theorem Steady.stopped (h : s.Steady o) (hstop : s.stopping = true) {as : List Action}
    (ht : (machine o).run s as = some t) : t.processes.length = s.processes.length := by
  induction as generalizing s with
  | nil => exact Option.some.inj ht ▸ rfl
  | cons a as ih =>
    obtain ⟨u, hu, ht⟩ := Option.bind_eq_some_iff.mp ht
    obtain ⟨hlength, hstop'⟩ := h.inv.stopped_step hstop hu
    have hsteady := h.step (h.inv.not_stranded hstop) hu
    exact (ih hsteady hstop' ht).trans hlength

theorem Steady.startsDue (h : s.Steady o) : s.StartsDue o := by
  intro a t ht hlength
  rcases step_cases ht with hframe | ⟨i, dues, hstage, rfl⟩ | ⟨i, code, rest, k, hstage, rfl⟩
  · exact absurd hframe.started hlength
  · have hat := h.inv.2
    rw [hstage] at hat
    refine ⟨h.inv.opening_not_stopping hstage, i, rfl, ?_⟩
    match dues with
    | none => exact ⟨hat.2.1.empty i le_rfl, .inl hstage⟩
    | some (now, rest) =>
      obtain ⟨-, -, due, hdue, hnow, -, hwait⟩ := hat
      have hmine := hwait (i, due) List.mem_cons_self
      exact ⟨(h.inv.1.due i due hmine).2, .inr ⟨due, hdue.trans hnow, hmine⟩⟩
  · by_cases hcode : code = recycleExitCode
    · rw [judge_recycle hcode] at hlength
      exact absurd rfl hlength
    · by_cases hcap : o.restartCap < (s.deathQueue o i).length
      · rw [judge_over hcode hcap] at hlength
        exact absurd (signalled_signalChildren _ sigterm).frame.started hlength
      · obtain ⟨due, heq⟩ := judge_under rest k hcode hcap
        rw [heq] at hlength
        exact absurd rfl hlength

theorem Steady.conserved (h : s.Steady o) : s.Conserved o := by
  have hat := h.inv.2
  constructor
  · intro hstage hstop i hi
    rw [hstage] at hat
    rcases hat hstop i hi (by simp) with hchild | hdue
    · refine .inl ⟨hchild, ?_⟩
      intro hdue
      obtain ⟨due, hdue⟩ := Option.isSome_iff_exists.mp hdue
      rw [(h.inv.1.due i due hdue).2] at hchild
      cases hchild
    · refine .inr ⟨hdue, ?_⟩
      obtain ⟨due, hdue⟩ := Option.isSome_iff_exists.mp hdue
      rw [(h.inv.1.due i due hdue).2]
      simp
  · exact h.startsDue
  · exact fun hstop as t ht => h.stopped hstop ht
  · rintro (⟨code, hstage⟩ | hstage) <;> rw [hstage] at hat <;> exact hat
  · intro hover
    have htripped := h.counted.tripped.mpr hover
    refine ⟨h.reasons.stops htripped, ?_, ?_⟩
    · intro hstage
      have hfailed := h.reasons.raising
      rw [hstage] at hfailed
      rw [h.reasons.apart hfailed] at htripped
      cases htripped
    · exact fun code hstage => (h.reasons.answer code hstage).2 htripped
  · intro hstop hasked hfailed
    apply h.counted.tripped.mp
    rcases h.reasons.why hstop with hwhy | hwhy | hwhy
    · rw [hasked] at hwhy
      cases hwhy
    · rw [hfailed] at hwhy
      cases hwhy
    · exact hwhy
  · exact h.counted.backoff

/-- Unless a start of the first loop raises over a running child, a run conserves the slots to its end;
and such a start always leaves the child behind. -/
theorem slots_conserved (o : SupervisorOptions) {s : Supervisor}
    (h : (machine o).ReachesBy (fun s a => ¬ s.Stranded a) s) :
    s.Conserved o ∧
      ∀ a t, s.step o a = some t → (t.Ended ∧ ¬ t.Settled ↔ s.Stranded a) := by
  have hsteady := reachable_steady h
  refine ⟨hsteady.conserved, ?_⟩
  intro a t ht
  constructor
  · rintro ⟨hended, hsettled⟩
    by_contra hspared
    exact hsettled ((hsteady.step hspared ht).conserved.left hended)
  · intro hstranded
    unfold Stranded at hstranded
    split at hstranded
    · obtain ⟨hsettled, i, hstage⟩ := hstranded
      simp only [Supervisor.step, hstage, Option.some.injEq] at ht
      subst ht
      exact ⟨.inr rfl, hsettled⟩
    · exact hstranded.elim

/-- Two slots, and the numbers `Supervisor` has by itself. -/
def twoSlots : SupervisorOptions where
  processes := 2
  restartDelay := 1000000
  restartCap := 5
  restartWindow := 60000000
  backoffMax := 30000000
  backoffReset := 60000000
  killGrace := 5000000
  processes_pos := by decide

/-- Both slots start, and the first one dies. -/
def firstDies : List Action :=
  List.replicate 14 .run ++ [.exit 0 1] ++ List.replicate 12 .run

theorem slots_conserved_firstDies :
    ∃ s, (machine twoSlots).run (initial 0) firstDies = some s ∧ s.Conserved twoSlots ∧
      s.restartDue.get? 0 = some 1000000 := by
  obtain ⟨s, hs⟩ := Option.isSome_iff_exists.mp
    (show ((machine twoSlots).run (initial 0) firstDies).isSome = true by decide +kernel)
  have hspared : ∀ s : Supervisor, ∀ a ∈ firstDies, ¬ s.Stranded a := by
    intro s a ha
    have hne : a ≠ .fail := by
      rintro rfl
      revert ha
      decide
    cases a with
    | fail => exact absurd rfl hne
    | _ => exact id
  have hdue : ((machine twoSlots).run (initial 0) firstDies).map (·.restartDue.get? 0) =
      some (some 1000000) := by
    decide +kernel
  rw [hs] at hdue
  have hinit : (machine twoSlots).ReachesBy (fun s a => ¬ s.Stranded a) (initial 0) :=
    .init ⟨0, rfl⟩
  have hreach := hinit.run_of_forall hspared hs
  exact ⟨s, hs, (slots_conserved twoSlots hreach).1, Option.some.inj hdue⟩

/-- The second of the first starts raises, and the first child runs on unsignalled. -/
theorem first_child_left_behind :
    ∃ s, (machine twoSlots).Reachable s ∧ s.stage = .raised ∧
      ∃ p ∈ s.processes, p.returncode = none ∧ sigterm ∉ p.signals := by
  obtain ⟨s, hs⟩ := Option.isSome_iff_exists.mp
    (show ((machine twoSlots).run (initial 0) (List.replicate 11 .run ++ [.fail])).isSome = true by
      decide +kernel)
  have hleft : ((machine twoSlots).run (initial 0) (List.replicate 11 .run ++ [.fail])).map
      (fun s => decide (s.stage = .raised ∧
        ∃ p ∈ s.processes, p.returncode = none ∧ sigterm ∉ p.signals)) = some true := by
    decide +kernel
  rw [hs] at hleft
  have hleft := of_decide_eq_true (Option.some.inj hleft)
  exact ⟨s, System.Reachable.of_run ⟨0, rfl⟩ hs, hleft.1, hleft.2⟩

end Supervisor

end DjangoOx
