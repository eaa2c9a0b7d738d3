import DjangoOx.Machine.Dict
import DjangoOx.Machine.Run
import DjangoOx.Task.Recovery

/-! Task timeouts: the threads that call tasks, the watchdog that raises `TaskTimeout` inside them,
and the instructions at which the exception can land. Times are of one monotonic clock. -/
namespace DjangoOx

open Machine

/-- `_Watch`: one attempt under a timeout, as the watchdog sees it. -/
structure Watch where
  attempt : Entry
  timeout : ℕ
  started : ℕ
  deadline : ℕ
  injectable : Bool
  fired : Bool
  graceAt : ℕ
  deriving DecidableEq, Repr

/-- Where `_disarm` is. -/
inductive DisarmPoint
  | entry
  /-- The lock is taken. -/
  | held
  /-- The entry is out of the table. -/
  | popped
  /-- The lock is released, and the flush is still to come. -/
  | released
  /-- An exception landed under the lock, which the `finally` is to release. -/
  | unwinding
  deriving DecidableEq, Repr

/-- What a thread is inside; a call holds the watch as `_arm` made it. -/
inductive ThreadStage
  | idle
  /-- `execute`, before the task is called. -/
  | executing
  | arming (watch : Watch)
  /-- From the release of the lock in `_arm` to the end of the task's body. -/
  | calling (watch : Watch)
  /-- `_disarm`, or the second one (`again`) that an exception in the first leads to. -/
  | disarming (watch : Watch) (again : Bool) (point : DisarmPoint)
  /-- `execute`, from the end of the call: the outcome and what follows it. -/
  | recording
  deriving DecidableEq, Repr

structure TimeoutState where
  now : ℕ
  stages : ℕ → ThreadStage
  /-- `TaskTimeout` is set on the thread and has not landed. -/
  pending : ℕ → Bool
  /-- The thread that holds `_watch_lock`. -/
  holder : Option ℕ
  /-- `_watches`, by thread. -/
  watches : Dict ℕ Watch
  runningOn : ℕ → Option Entry
  stuck : Dict ℕ Entry
  /-- What `_record_stuck` is still to handle. -/
  batch : List (ℕ × Watch)
  recycling : Bool
  /-- Every attempt that `execute` has registered. -/
  entered : List Entry
  /-- How often an exception has landed in the thread since it last armed a watch. -/
  landed : ℕ → ℕ
  /-- The threads in which one landed anywhere but in the call of a task or in its `_disarm`. -/
  astray : List ℕ

inductive TimeoutAction
  | tick (d : ℕ)
  | enter (x : ℕ) (attempt : Entry)
  | arm (x timeout : ℕ) (injectable : Bool)
  | register (x : ℕ)
  /-- The task's body returns or raises. -/
  | endCall (x : ℕ)
  | acquire (x : ℕ)
  | pop (x : ℕ)
  | release (x : ℕ)
  | flush (x : ℕ)
  | leave (x : ℕ)
  /-- The pending exception lands in the thread. -/
  | land (x : ℕ)
  | fireDue
  /-- The last look of `_handle_stuck` at the thread. -/
  | handleStuck

namespace Watch

def fire (w : Watch) (now grace : ℕ) : Watch := { w with fired := true, graceAt := now + grace }

/-- The watch that `_arm` made, whatever the watchdog has noted on it since. -/
def Of (w armed : Watch) : Prop :=
  w.attempt = armed.attempt ∧ w.timeout = armed.timeout ∧ w.started = armed.started ∧
    w.deadline = armed.deadline ∧ w.injectable = armed.injectable

theorem Of.refl (w : Watch) : w.Of w :=
  ⟨rfl, rfl, rfl, rfl, rfl⟩

theorem Of.fire {w armed : Watch} (h : w.Of armed) (now grace : ℕ) : (w.fire now grace).Of armed :=
  h

end Watch

namespace ThreadStage

/-- The watch of the call that the thread is in. -/
def watch? : ThreadStage → Option Watch
  | .arming w | .calling w | .disarming w _ _ => some w
  | _ => none

/-- The watch that may still be in the table. -/
def registered? : ThreadStage → Option Watch
  | .calling w => some w
  | .disarming w _ .entry | .disarming w _ .held | .disarming w _ .unwinding => some w
  | _ => none

/-- Where an exception is the call's own: its body, and the first `_disarm` after it. -/
def guarded? : ThreadStage → Option Watch
  | .calling w => some w
  | .disarming _ _ .unwinding => none
  | .disarming w false _ => some w
  | _ => none

def HoldsLock : ThreadStage → Bool
  | .disarming _ _ .held | .disarming _ _ .popped | .disarming _ _ .unwinding => true
  | _ => false

/-- Where an exception that lands leads; `none` where nothing is there to absorb it. -/
def land? : ThreadStage → Option ThreadStage
  | .calling w => some (.calling w)
  | .disarming w false .entry | .disarming w false .released => some (.disarming w true .entry)
  | .disarming w false .held | .disarming w false .popped => some (.disarming w false .unwinding)
  | _ => none

end ThreadStage

namespace TimeoutState

def setStage (s : TimeoutState) (x : ℕ) (stage : ThreadStage) : TimeoutState :=
  { s with stages := Function.update s.stages x stage }

/-- One watch of `_fire_due`. -/
def fireOne (grace : ℕ) (s : TimeoutState) (p : ℕ × Watch) : TimeoutState :=
  if p.2.fired = false ∧ p.2.deadline ≤ s.now then
    { s with
      watches := s.watches.set p.1 (p.2.fire s.now grace)
      pending := if p.2.injectable then Function.update s.pending p.1 true else s.pending }
  else if p.2.fired ∧ p.2.graceAt ≤ s.now then
    { s with watches := s.watches.erase p.1, batch := s.batch ++ [p] }
  else s

def fireDue (grace : ℕ) (s : TimeoutState) : TimeoutState :=
  s.watches.items.foldl (fireOne grace) s

/-- How many threads are still inside an attempt that the watchdog gave up on. -/
def stuckAlive (s : TimeoutState) : ℕ :=
  (s.stuck.items.filter fun p => s.runningOn p.1 = some p.2).length

def step (grace : ℕ) (s : TimeoutState) : TimeoutAction → Option TimeoutState
  | .tick d => some { s with now := s.now + d }
  | .enter x attempt =>
    if s.stages x = .idle ∧ ∀ e ∈ s.entered, e ≠ attempt then
      some { s.setStage x .executing with
        runningOn := Function.update s.runningOn x (some attempt)
        entered := attempt :: s.entered }
    else none
  | .arm x timeout injectable =>
    match s.stages x, s.runningOn x with
    | .executing, some attempt =>
      some (s.setStage x (.arming
        { attempt := attempt, timeout := timeout, started := s.now, deadline := s.now + timeout
          injectable := injectable, fired := false, graceAt := 0 }))
    | _, _ => none
  | .register x =>
    match s.stages x with
    | .arming w =>
      if s.holder = none then
        some { s.setStage x (.calling w) with
          watches := s.watches.set x w
          landed := Function.update s.landed x 0 }
      else none
    | _ => none
  | .endCall x =>
    match s.stages x with
    | .calling w => some (s.setStage x (.disarming w false .entry))
    | _ => none
  | .acquire x =>
    match s.stages x with
    | .disarming w again .entry =>
      if s.holder = none then
        some { s.setStage x (.disarming w again .held) with holder := some x }
      else none
    | _ => none
  | .pop x =>
    match s.stages x with
    | .disarming w again .held =>
      some { s.setStage x (.disarming w again .popped) with watches := s.watches.erase x }
    | _ => none
  | .release x =>
    match s.stages x with
    | .disarming w again .popped =>
      some { s.setStage x (.disarming w again .released) with holder := none }
    | .disarming w _ .unwinding =>
      some { s.setStage x (.disarming w true .entry) with holder := none }
    | _ => none
  | .flush x =>
    match s.stages x with
    | .disarming _ _ .released =>
      if s.pending x = false then some (s.setStage x .recording) else none
    | _ => none
  | .leave x =>
    match s.stages x with
    | .executing | .recording =>
      some { s.setStage x .idle with runningOn := Function.update s.runningOn x none }
    | _ => none
  | .land x =>
    if s.pending x = true then
      some { s.setStage x ((s.stages x).land?.getD (s.stages x)) with
        pending := Function.update s.pending x false
        landed := Function.update s.landed x (s.landed x + 1)
        astray := if (s.stages x).land? = none then x :: s.astray else s.astray }
    else none
  | .fireDue =>
    if s.holder = none ∧ s.batch = [] then some (s.fireDue grace) else none
  | .handleStuck =>
    match s.batch with
    | (x, w) :: batch =>
      some { s with
        batch := batch
        stuck := if s.runningOn x = some w.attempt then s.stuck.set x w.attempt else s.stuck
        recycling := s.recycling || decide (s.runningOn x = some w.attempt) }
    | [] => none

/-- No thread runs anything yet. -/
def Start (s : TimeoutState) : Prop :=
  (∀ x, s.stages x = .idle ∧ s.pending x = false ∧ s.runningOn x = none ∧ s.landed x = 0) ∧
    s.holder = none ∧ s.watches = .empty ∧ s.stuck = .empty ∧ s.batch = [] ∧
    s.recycling = false ∧ s.entered = [] ∧ s.astray = []

end TimeoutState

/-- The threads and the watchdog of one worker; `grace` is `timeouts.grace`. -/
def timeoutSystem (grace : ℕ) : System TimeoutState TimeoutAction :=
  ⟨TimeoutState.Start, TimeoutState.step grace⟩

namespace TimeoutState

variable {grace : ℕ} {s s' : TimeoutState} {a : TimeoutAction}

theorem fireOne_frame (s : TimeoutState) (p : ℕ × Watch) :
    (s.fireOne grace p).now = s.now ∧ (s.fireOne grace p).runningOn = s.runningOn ∧
      (s.fireOne grace p).recycling = s.recycling := by
  unfold fireOne
  split
  · exact ⟨rfl, rfl, rfl⟩
  · split
    · exact ⟨rfl, rfl, rfl⟩
    · exact ⟨rfl, rfl, rfl⟩

theorem fireDue_frame (s : TimeoutState) :
    (s.fireDue grace).now = s.now ∧ (s.fireDue grace).runningOn = s.runningOn ∧
      (s.fireDue grace).recycling = s.recycling := by
  unfold fireDue
  induction s.watches.items generalizing s with
  | nil => exact ⟨rfl, rfl, rfl⟩
  | cons p l ih =>
    obtain ⟨hnow, hrun, hrec⟩ := fireOne_frame s p
    obtain ⟨hnow', hrun', hrec'⟩ := ih (s.fireOne grace p)
    exact ⟨hnow'.trans hnow, hrun'.trans hrun, hrec'.trans hrec⟩

/-- What a step can do to what the drain reads. -/
structure Outlook (s s' : TimeoutState) (a : TimeoutAction) : Prop where
  now : s.now ≤ s'.now
  recycling : s.recycling = true → s'.recycling = true
  runningOn : ∀ x, s'.runningOn x = s.runningOn x ∨ s'.runningOn x = none ∨
    ∃ e, a = .enter x e ∧ s'.runningOn x = some e

theorem Outlook.of_eq (hnow : s'.now = s.now) (hrec : s'.recycling = s.recycling)
    (hrun : s'.runningOn = s.runningOn) : Outlook s s' a where
  now := hnow.ge
  recycling h := hrec.trans h
  runningOn x := .inl (congrFun hrun x)

theorem step_outlook (h : s.step grace a = some s') : Outlook s s' a := by
  cases a with
  | tick d =>
    obtain rfl := Option.some.inj h
    exact ⟨Nat.le_add_right _ _, fun hr => hr, fun _ => .inl rfl⟩
  | enter x e =>
    obtain ⟨-, h⟩ := Option.ite_none_right_eq_some.mp h
    obtain rfl := Option.some.inj h
    refine ⟨le_rfl, fun hr => hr, fun y => ?_⟩
    by_cases hy : y = x
    · rw [hy]
      exact .inr (.inr ⟨e, rfl, Function.update_self _ _ _⟩)
    · exact .inl (Function.update_of_ne hy _ _)
  | leave x =>
    simp only [step] at h
    have hleave : ∀ y, Function.update s.runningOn x none y = s.runningOn y ∨
        Function.update s.runningOn x none y = none ∨
          ∃ e, TimeoutAction.leave x = .enter y e ∧
            Function.update s.runningOn x none y = some e := by
      intro y
      by_cases hy : y = x
      · rw [hy]
        exact .inr (.inl (Function.update_self _ _ _))
      · exact .inl (Function.update_of_ne hy _ _)
    split at h
    · obtain rfl := Option.some.inj h
      exact ⟨le_rfl, fun hr => hr, hleave⟩
    · obtain rfl := Option.some.inj h
      exact ⟨le_rfl, fun hr => hr, hleave⟩
    · cases h
  | fireDue =>
    obtain ⟨-, h⟩ := Option.ite_none_right_eq_some.mp h
    obtain rfl := Option.some.inj h
    obtain ⟨hnow, hrun, hrec⟩ := @fireDue_frame grace s
    exact .of_eq hnow hrec hrun
  | handleStuck =>
    simp only [step] at h
    split at h
    · obtain rfl := Option.some.inj h
      exact ⟨le_rfl, fun hr => by simp [hr], fun _ => .inl rfl⟩
    · cases h
  | arm x timeout injectable =>
    simp only [step] at h
    split at h
    · obtain rfl := Option.some.inj h
      exact .of_eq rfl rfl rfl
    · cases h
  | register x =>
    simp only [step] at h
    split at h
    · obtain ⟨-, h⟩ := Option.ite_none_right_eq_some.mp h
      obtain rfl := Option.some.inj h
      exact .of_eq rfl rfl rfl
    · cases h
  | endCall x =>
    simp only [step] at h
    split at h
    · obtain rfl := Option.some.inj h
      exact .of_eq rfl rfl rfl
    · cases h
  | acquire x =>
    simp only [step] at h
    split at h
    · obtain ⟨-, h⟩ := Option.ite_none_right_eq_some.mp h
      obtain rfl := Option.some.inj h
      exact .of_eq rfl rfl rfl
    · cases h
  | pop x =>
    simp only [step] at h
    split at h
    · obtain rfl := Option.some.inj h
      exact .of_eq rfl rfl rfl
    · cases h
  | release x =>
    simp only [step] at h
    split at h
    · obtain rfl := Option.some.inj h
      exact .of_eq rfl rfl rfl
    · obtain rfl := Option.some.inj h
      exact .of_eq rfl rfl rfl
    · cases h
  | flush x =>
    simp only [step] at h
    split at h
    · obtain ⟨-, h⟩ := Option.ite_none_right_eq_some.mp h
      obtain rfl := Option.some.inj h
      exact .of_eq rfl rfl rfl
    · cases h
  | land x =>
    obtain ⟨-, h⟩ := Option.ite_none_right_eq_some.mp h
    obtain rfl := Option.some.inj h
    exact .of_eq rfl rfl rfl

end TimeoutState

end DjangoOx
