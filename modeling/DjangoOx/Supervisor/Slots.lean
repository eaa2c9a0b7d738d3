import DjangoOx.Machine.Dict
import DjangoOx.Machine.Run
import DjangoOx.Machine.Window
import Mathlib.Data.List.Defs
import Mathlib.Logic.Function.Basic

/-! The process supervisor: `Supervisor.run` a step at a time, among its children, the signals and
the threads that ask it to stop. -/
namespace DjangoOx

open Machine

def sigterm : ℤ := 15

/-- `FORCE_SIGNAL`. -/
def sigkill : ℤ := 9

def recycleExitCode : ℤ := 75

/-- The arguments of `Supervisor`, which refuses to be built with no process. -/
structure SupervisorOptions where
  processes : ℕ
  restartDelay : ℤ
  restartCap : ℕ
  restartWindow : ℤ
  backoffMax : ℤ
  backoffReset : ℤ
  killGrace : ℤ
  processes_pos : 1 ≤ processes

/-- A child as its `Popen` sees it: the code it ended with, and what was sent to it while it ran. -/
structure ChildProcess where
  slot : ℕ
  returncode : Option ℤ
  signals : List ℤ
  deriving DecidableEq, Repr

/-- An exit seen while not stopping: the slot, its code, how long it had lived and when it was seen. -/
structure SlotExit where
  slot : ℕ
  code : ℤ
  lived : ℤ
  seen : ℤ
  deriving DecidableEq, Repr

namespace Supervisor

/-- Where in `run` a step of its loops is made: before the first start of a slot, in a round of the
loop, or in the `finally`, with an exception on its way out or not. -/
inductive Caller
  | first (index : ℕ)
  | round
  | closing (raising : Bool)
  deriving DecidableEq, Repr

/-- The slots `_start_due` still has to look at, after a start made in its loop. -/
abbrev Dues := Option (ℤ × List (ℕ × ℤ))

inductive Stage
  | idle
  /-- The head of `for index in range(self.processes)`. -/
  | first (index : ℕ)
  | processSignals (caller : Caller)
  /-- `if self._stopping: break`. -/
  | checking (index : ℕ)
  /-- `_start` is called. -/
  | starting (index : ℕ) (dues : Dues)
  /-- `_start` holds the lock and is not stopping. -/
  | opening (index : ℕ) (dues : Dues)
  /-- `_start` has let the lock go. -/
  | opened (index pid : ℕ) (dues : Dues)
  /-- The condition of the loop, between its rounds. -/
  | looping
  | reaping (rest : List (ℕ × ℕ)) (caller : Caller)
  /-- An exited child has left `_children`; `_record_exit` comes. -/
  | recording (index : ℕ) (code : ℤ) (rest : List (ℕ × ℕ)) (caller : Caller)
  /-- `if self._stopping: continue`. -/
  | judging (index : ℕ) (code : ℤ) (rest : List (ℕ × ℕ)) (caller : Caller)
  /-- `now = time.monotonic()` and what follows from it. -/
  | timing (index : ℕ) (code : ℤ) (rest : List (ℕ × ℕ)) (caller : Caller)
  /-- The restart is decided; the lock is not taken yet. -/
  | putting (index : ℕ) (due : ℤ) (rest : List (ℕ × ℕ)) (caller : Caller)
  | startDue
  /-- `_start_due` holds the lock. -/
  | dueLoop (now : ℤ) (rest : List (ℕ × ℤ))
  | killOverdue (caller : Caller)
  /-- The head of the `finally`. -/
  | closing (raising : Bool)
  /-- `if not self._children: break`. -/
  | leaving (raising : Bool)
  | returned (code : ℤ)
  | raised
  deriving DecidableEq, Repr

/-- The stages in which the thread of `run` holds the lock when a step ends. -/
def Stage.locked : Stage → Bool
  | .starting _ (some _) | .opening _ _ | .opened _ _ (some _) | .dueLoop _ _ => true
  | _ => false

inductive Action
  /-- The next step of `run`. -/
  | run
  /-- A start raises, before its child is in `_children`. -/
  | fail
  /-- `handle_signal`. -/
  | receive (signum : ℤ)
  /-- `request_stop`, from another thread. -/
  | request
  | exit (pid : ℕ) (code : ℤ)
  | tick (elapsed : ℕ)
  deriving DecidableEq, Repr

end Supervisor

/-- The attributes, the children that were ever started by number, and the monotonic clock. -/
structure Supervisor where
  stage : Supervisor.Stage
  children : Dict ℕ ℕ
  startedAt : ℕ → Option ℤ
  exitCodes : ℕ → Option ℤ
  restartDue : Dict ℕ ℤ
  deaths : ℕ → List ℤ
  backoff : ℕ → Option ℤ
  stopping : Bool
  capTripped : Bool
  signalsSeen : ℕ
  killAt : Option ℤ
  signals : List ℤ
  processes : List ChildProcess
  clock : ℤ
  /-- A signal was acted on, or another thread asked for the stop. -/
  asked : Bool
  /-- A start raised. -/
  failed : Bool
  exits : List SlotExit

namespace ChildProcess

/-- `send_signal`, which does nothing once the child has been polled out. -/
def sendSignal (signum : ℤ) (p : ChildProcess) : ChildProcess :=
  if p.returncode = none then { p with signals := p.signals ++ [signum] } else p

@[simp] theorem returncode_sendSignal (signum : ℤ) (p : ChildProcess) :
    (p.sendSignal signum).returncode = p.returncode := by
  unfold sendSignal
  split <;> rfl

@[simp] theorem slot_sendSignal (signum : ℤ) (p : ChildProcess) :
    (p.sendSignal signum).slot = p.slot := by
  unfold sendSignal
  split <;> rfl

end ChildProcess

namespace Supervisor

variable (o : SupervisorOptions) (s : Supervisor)

/-- Before `run`, at this reading of the clock. -/
def initial (clock : ℤ) : Supervisor where
  stage := .idle
  children := .empty
  startedAt _ := none
  exitCodes _ := none
  restartDue := .empty
  deaths _ := []
  backoff _ := none
  stopping := false
  capTripped := false
  signalsSeen := 0
  killAt := none
  signals := []
  processes := []
  clock := clock
  asked := false
  failed := false
  exits := []

def goto (stage : Stage) : Supervisor := { s with stage := stage }

/-- The child's code, `None` while it runs. -/
def poll (pid : ℕ) : Option ℤ := s.processes[pid]?.bind (·.returncode)

def requestStop : Supervisor := { s with stopping := true, restartDue := .empty }

def send (signum : ℤ) (pid : ℕ) : Supervisor :=
  { s with processes := s.processes.modify pid (·.sendSignal signum) }

def signalChildren (signum : ℤ) : Supervisor :=
  s.children.items.foldl (fun s child => s.send signum child.2) s

def recordExit (index : ℕ) (code : ℤ) : Supervisor :=
  let code := if s.stopping ∧ code = -sigterm then 0 else code
  { s with exitCodes := Function.update s.exitCodes index (some code) }

/-- The second of the pair is the supervisor after the call. -/
def nextDelay (index : ℕ) (now : ℤ) : ℤ × Supervisor :=
  let lived := now - (s.startedAt index).getD now
  let backoff := if o.backoffReset ≤ lived then none else s.backoff index
  let delay := backoff.getD o.restartDelay
  (delay, { s with
    backoff := Function.update s.backoff index (some (min (delay * 2) o.backoffMax)) })

/-- A new child in the slot. -/
def opened (index : ℕ) : Supervisor :=
  { s with
    processes := s.processes ++ [⟨index, none, []⟩]
    children := s.children.set index s.processes.length
    startedAt := Function.update s.startedAt index (some s.clock)
    exitCodes := Function.update s.exitCodes index none
    restartDue := s.restartDue.erase index }

/-- One turn of the loop of `_process_signals`, for a signal taken from the queue. -/
def actOnSignal : Supervisor :=
  let killAt := if s.signalsSeen + 1 = 1 then s.killAt else
    match s.killAt with
    | none => some (s.clock + o.killGrace)
    | some _ => some s.clock
  let s := { s with signalsSeen := s.signalsSeen + 1, killAt := killAt, asked := true }
  s.requestStop.signalChildren sigterm

def killOverdue : Supervisor :=
  match s.killAt with
  | none => s
  | some at' => if s.clock < at' then s else { s with killAt := none }.signalChildren sigkill

/-- What `_reap_exited` makes of an exit it sees while not stopping, with the lock still to take. -/
def judge (index : ℕ) (code : ℤ) (rest : List (ℕ × ℕ)) (caller : Caller) : Supervisor :=
  let now := s.clock
  let exit : SlotExit := ⟨index, code, now - (s.startedAt index).getD now, now⟩
  let seen := { s with exits := s.exits ++ [exit] }
  if code = recycleExitCode then
    seen.goto (.putting index (now + o.restartDelay) rest caller)
  else
    let deaths := Window.slide o.restartWindow (s.deaths index) now
    let dead := { seen with deaths := Function.update s.deaths index deaths }
    if o.restartCap < deaths.length then
      ({ dead with capTripped := true }.requestStop.signalChildren sigterm).goto
        (.reaping rest caller)
    else
      let (delay, dead) := dead.nextDelay o index now
      dead.goto (.putting index (now + delay) rest caller)

/-- The code `run` returns. -/
def exitCode : ℤ :=
  let failures := ((List.range o.processes).filterMap s.exitCodes).filter fun code =>
    code ≠ 0 ∧ code ≠ recycleExitCode
  let code := failures.headD 0
  let code := if code < 0 then 128 - code else code
  if s.capTripped then 1 else code

/-- Where a `_start` goes back to. -/
def afterStart (index : ℕ) : Dues → Stage
  | none => .first (index + 1)
  | some (now, rest) => .dueLoop now rest

def afterSignals : Caller → Stage
  | .first index => .checking index
  | .round => .reaping s.children.items .round
  | .closing raising => .killOverdue (.closing raising)

def afterReap : Caller → Stage
  | .closing raising => .leaving raising
  | _ => .startDue

def afterKill : Caller → Stage
  | .closing raising => .reaping s.children.items (.closing raising)
  | _ => .looping

/-- The next step of `run`; `none` once it is over. -/
def advance : Option Supervisor :=
  match s.stage with
  | .idle => some (s.goto (.first 0))
  | .first index =>
    some (s.goto (if index < o.processes then .processSignals (.first index) else .looping))
  | .processSignals caller =>
    match s.signals with
    | [] => some (s.goto (s.afterSignals caller))
    | _ :: rest => some ({ s with signals := rest }.actOnSignal o)
  | .checking index => some (s.goto (if s.stopping then .looping else .starting index none))
  | .starting index dues =>
    some (s.goto (if s.stopping then afterStart index dues else .opening index dues))
  | .opening index dues => some ((s.opened index).goto (.opened index s.processes.length dues))
  | .opened index pid dues =>
    some ((if s.stopping then s.send sigterm pid else s).goto (afterStart index dues))
  | .looping =>
    some (s.goto (if s.children.items ≠ [] ∨ s.restartDue.items ≠ [] ∧ s.stopping = false then
      .processSignals .round else .closing false))
  | .reaping [] caller => some (s.goto (afterReap caller))
  | .reaping ((index, pid) :: rest) caller =>
    match s.poll pid with
    | none => some (s.goto (.reaping rest caller))
    | some code =>
      some ({ s with children := s.children.erase index }.goto (.recording index code rest caller))
  | .recording index code rest caller =>
    some ((s.recordExit index code).goto (.judging index code rest caller))
  | .judging index code rest caller =>
    some (s.goto (if s.stopping then .reaping rest caller else .timing index code rest caller))
  | .timing index code rest caller => some (s.judge o index code rest caller)
  | .putting index due rest caller =>
    some ((if s.stopping then s else { s with restartDue := s.restartDue.set index due }).goto
      (.reaping rest caller))
  | .startDue =>
    some (s.goto (if s.stopping then .killOverdue .round else .dueLoop s.clock s.restartDue.items))
  | .dueLoop _ [] => some (s.goto (.killOverdue .round))
  | .dueLoop now ((index, due) :: rest) =>
    some (s.goto (if due ≤ now then .starting index (some (now, rest)) else .dueLoop now rest))
  | .killOverdue caller => some (s.killOverdue.goto (s.afterKill caller))
  | .closing raising =>
    some ((s.requestStop.signalChildren sigterm).goto (.processSignals (.closing raising)))
  | .leaving raising =>
    some (s.goto (if s.children.items ≠ [] then .processSignals (.closing raising)
      else if raising then .raised else .returned (s.exitCode o)))
  | .returned _ | .raised => none

/-- The first starts are made outside the `try`. -/
def afterFail : Dues → Stage
  | none => .raised
  | some _ => .closing true

def step : Action → Option Supervisor
  | .run => s.advance o
  | .fail =>
    match s.stage with
    | .opening _ dues => some ({ s with failed := true }.goto (afterFail dues))
    | _ => none
  | .receive signum => some { s with signals := s.signals ++ [signum] }
  | .request =>
    if s.stage.locked then none else some { s.requestStop with asked := true }
  | .exit pid code =>
    if s.processes[pid]?.any (·.returncode = none) then
      some { s with processes := s.processes.modify pid ({ · with returncode := some code }) }
    else none
  | .tick elapsed => some { s with clock := s.clock + elapsed }

/-- The supervisor with its surroundings. -/
def machine : System Supervisor Action where
  init s := ∃ clock, s = initial clock
  step := step o

end Supervisor

end DjangoOx
