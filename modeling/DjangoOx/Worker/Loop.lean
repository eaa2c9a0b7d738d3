import DjangoOx.Worker.Watchdog

/-! The worker's loop: its passes and its claims, the executor and the pool threads that run what
it claimed, requests to stop at any point, and the drain. -/
namespace DjangoOx

open Machine

structure LoopConfig where
  concurrency : ℕ
  maxTasks : Option ℕ
  batch : Bool
  reapInterval : ℕ
  scheduleInterval : ℕ
  recycleDrainBudget : ℕ
  lockTimeout : ℕ
  grace : ℕ

/-- How a step of a pass ends. -/
inductive PassEnd
  | done
  /-- An error of the database, which abandons the pass. -/
  | error
  /-- Anything else that is raised, which leaves the loop. -/
  | fault
  deriving DecidableEq, Repr

/-- How `dispatch_schedules` ends. -/
inductive DispatchEnd
  | completed
  /-- It raised an `Exception`. -/
  | abandoned
  | fault
  deriving DecidableEq, Repr

/-- How `_claim` ends. -/
inductive ClaimEnd
  | row (attempt : Entry)
  | nothing (contended : Bool)
  /-- An error of the database, noted where the claim was made on a connection of the worker's own
  and a look for it can be bounded. -/
  | error (noted : Bool)
  | fault
  deriving DecidableEq, Repr

/-- How `_recover_claims` begins. -/
inductive LookStart
  /-- `_worker_may_use`: the connection holds no caller's transaction. -/
  | connection (usable : Bool)
  | fault
  deriving DecidableEq, Repr

/-- What `_complete` was called for. -/
inductive Completion
  | maxTasks
  | batchEmpty
  deriving DecidableEq, Repr

/-- The loop's next step, with the locals of the pass. -/
inductive LoopStage
  | head
  | reaping
  | dispatching
  | recovering
  /-- In `_recover_claims`, past its check of the claims in flight. -/
  | looking (generation : ℕ)
  | pruning
  | claiming (idle claimedAny : Bool)
  /-- Inside `_claim`. -/
  | asking (idle claimedAny : Bool)
  | deciding (idle claimedAny foundNothing : Bool)
  /-- The `finally` of `run`. -/
  | stopping
  /-- `_drain`, about to look at what is pending. -/
  | draining (giveUpAt : Option ℕ)
  | judging (giveUpAt : Option ℕ) (pending : List ℕ)
  | ended
  deriving DecidableEq, Repr

structure LoopState where
  timeouts : TimeoutState
  stage : LoopStage
  /-- `_stop` is set. -/
  stop : Bool
  lastReap : ℕ
  lastDispatch : ℕ
  dispatchOwed : Bool
  claimed : ℕ
  /-- The futures of the pass, by the order they were submitted in. -/
  inFlight : List ℕ
  /-- What each future was submitted for, the oldest first. -/
  submitted : List Entry
  /-- The futures that no pool thread has taken. -/
  queue : List ℕ
  /-- The future each pool thread is running. -/
  current : ℕ → Option ℕ
  finished : List ℕ
  /-- `renew_stop` is not set. -/
  renewing : Bool
  /-- Every attempt that a claim of this worker has granted. -/
  granted : List Entry
  completed : Option Completion
  faulted : Bool
  /-- `_claim_unconfirmed_at` -/
  unconfirmedAt : Option ℕ
  /-- `_claim_generation` -/
  generation : ℕ
  /-- The threads outside the pool on which a claim of `run_once` is in flight. -/
  claiming : List ℕ
  /-- When the latest claim that was noted raised, while no look has completed since. -/
  unlookedSince : Option ℕ
  /-- The last look was left pending: it met a claim of another thread, or a connection that may
  hold a caller's transaction. -/
  deferred : Bool
  /-- The last claim found nothing, lost no race and had every future finished. -/
  quiet : Bool
  /-- The last dispatch pass that began ran to its end. -/
  dispatched : Bool
  /-- When the drain first found the worker recycling. -/
  recyclingSince : Option ℕ

inductive LoopAction
  | timeouts (a : TimeoutAction)
  /-- `run_once` on a thread outside the pool begins its claim. -/
  | beginInline (x : ℕ)
  /-- The claim returns a row, which the thread executes. -/
  | inline (x : ℕ) (attempt : Entry)
  /-- The claim returns no row, or raises, and is not noted. -/
  | inlineNothing (x : ℕ)
  | requestStop
  /-- `_recycle` has set its flag and sets the stop. -/
  | recycleStop
  | take (x : ℕ)
  | finish (x : ℕ)
  | head (orphaned : Bool)
  | reap (e : PassEnd)
  | dispatch (e : DispatchEnd)
  /-- `_recover_claims`, until its read. -/
  | recover (e : LookStart)
  /-- `_recover_claims`, to its end. -/
  | recovered (e : PassEnd)
  | prune
  | beginClaim
  | claim (e : ClaimEnd)
  | decide
  /-- `_recover_claims_once`, and whether it completed. -/
  | recoverOnce (completed : Bool)
  | look
  | judge

namespace LoopState

/-- `_limit_reached` -/
def limitReached (c : LoopConfig) (s : LoopState) : Bool := c.maxTasks.any (· ≤ s.claimed)

/-- The futures of `l` that are not done. -/
def pending (s : LoopState) (l : List ℕ) : List ℕ := l.filter (· ∉ s.finished)

def complete (s : LoopState) (c : Completion) : LoopState :=
  if s.stop then s else { s with completed := some c, stop := true }

/-- An exception that no handler of the loop takes. -/
def fault (s : LoopState) : LoopState := { s with stage := .stopping, faulted := true }

/-- A future is submitted for a claimed row. -/
def submit (s : LoopState) (attempt : Entry) : LoopState :=
  { s with
    claimed := s.claimed + 1
    inFlight := s.submitted.length :: s.inFlight
    submitted := s.submitted ++ [attempt]
    queue := s.queue ++ [s.submitted.length]
    granted := attempt :: s.granted }

/-- A pool thread executes the attempt of the future it has taken. -/
def mayEnter (c : LoopConfig) (s : LoopState) : TimeoutAction → Bool
  | .enter x attempt =>
    x < c.concurrency ∧ ((s.current x).bind fun i => s.submitted[i]?) = some attempt
  | _ => true

def step (c : LoopConfig) (s : LoopState) : LoopAction → Option LoopState
  | .timeouts a =>
    if s.mayEnter c a then
      (s.timeouts.step c.grace a).map fun t => { s with timeouts := t }
    else none
  | .beginInline x =>
    if c.concurrency ≤ x ∧ s.timeouts.stages x = .idle ∧ ∀ y ∈ s.claiming, y ≠ x then
      some { s with claiming := x :: s.claiming, generation := s.generation + 1 }
    else none
  | .inline x attempt =>
    if c.concurrency ≤ x ∧ x ∈ s.claiming ∧ ∀ e ∈ s.granted, e ≠ attempt then
      (s.timeouts.step c.grace (.enter x attempt)).map fun t =>
        { s with
          timeouts := t
          claiming := s.claiming.filter (· ≠ x)
          granted := attempt :: s.granted }
    else none
  | .inlineNothing x =>
    if x ∈ s.claiming then some { s with claiming := s.claiming.filter (· ≠ x) } else none
  | .requestStop => some { s with stop := true }
  | .recycleStop => if s.timeouts.recycling then some { s with stop := true } else none
  | .take x =>
    match s.queue with
    | i :: queue =>
      if x < c.concurrency ∧ s.current x = none then
        some { s with queue := queue, current := Function.update s.current x (some i) }
      else none
    | [] => none
  | .finish x =>
    match s.current x with
    | some i =>
      if s.timeouts.stages x = .idle then
        some { s with
          current := Function.update s.current x none
          finished := i :: s.finished }
      else none
    | none => none
  | .head orphaned =>
    if s.stage = .head then
      if s.stop then some { s with stage := .stopping }
      else if orphaned then some { s with stop := true, stage := .stopping }
      else some { s with stage := .reaping }
    else none
  | .reap e =>
    if s.stage = .reaping then
      if c.reapInterval ≤ s.timeouts.now - s.lastReap then
        match e with
        | .done => some { s with lastReap := s.timeouts.now, stage := .dispatching }
        | .error => some { s with stage := .head }
        | .fault => some s.fault
      else some { s with stage := .dispatching }
    else none
  | .dispatch e =>
    if s.stage = .dispatching then
      if c.scheduleInterval ≤ s.timeouts.now - s.lastDispatch then
        match e with
        | .completed =>
          some { s with
            dispatchOwed := false
            dispatched := true
            lastDispatch := s.timeouts.now
            stage := .recovering }
        | .abandoned =>
          some { s with
            dispatchOwed := true
            dispatched := false
            lastDispatch := s.timeouts.now
            stage := .recovering }
        | .fault => some { s with dispatchOwed := true, dispatched := false }.fault
      else some { s with stage := .recovering }
    else none
  | .recover e =>
    if s.stage = .recovering then
      match e with
      | .fault => some s.fault
      | .connection usable =>
        -- `_recover_claims` returns False, and the pass claims as usual.
        if s.claiming ≠ [] then some { s with deferred := true, stage := .pruning }
        else
          match s.unconfirmedAt with
          | none => some { s with deferred := false, stage := .pruning }
          | some since =>
            if c.lockTimeout < s.timeouts.now - since then
              some { s with unconfirmedAt := none, deferred := false, stage := .pruning }
            else if usable then some { s with deferred := false, stage := .looking s.generation }
            else some { s with deferred := true, stage := .pruning }
    else none
  | .recovered e =>
    match s.stage with
    | .looking generation =>
      match e with
      | .done =>
        if s.generation = generation then
          some { s with unconfirmedAt := none, unlookedSince := none, stage := .pruning }
        else some { s with deferred := true, stage := .pruning }
      | .error => some { s with stage := .head }
      | .fault => some s.fault
    | _ => none
  | .prune =>
    if s.stage = .pruning then
      some { s with
        inFlight := s.pending s.inFlight
        stage := .claiming (s.pending s.inFlight = []) false }
    else none
  | .beginClaim =>
    match s.stage with
    | .claiming idle claimedAny =>
      if s.inFlight.length < c.concurrency ∧ s.stop = false ∧ s.limitReached c = false then
        some { s with generation := s.generation + 1, stage := .asking idle claimedAny }
      else some { s with stage := .deciding idle claimedAny false }
    | _ => none
  | .claim e =>
    match s.stage with
    | .asking idle claimedAny =>
      match e with
      | .row attempt =>
        if ∀ e ∈ s.granted, e ≠ attempt then
          some { s.submit attempt with stage := .claiming idle true, quiet := false }
        else none
      | .nothing contended =>
        some { s with
          stage := .deciding idle claimedAny (!contended)
          quiet := !contended && s.pending (List.range s.submitted.length) = [] }
      | .error noted =>
        some { s with
          unconfirmedAt := if noted then some s.timeouts.now else s.unconfirmedAt
          unlookedSince := if noted then some s.timeouts.now else s.unlookedSince
          stage := .head }
      | .fault => some s.fault
    | _ => none
  | .decide =>
    match s.stage with
    | .deciding idle claimedAny foundNothing =>
      if s.limitReached c then some { s.complete .maxTasks with stage := .head }
      else if c.batch ∧ idle ∧ foundNothing ∧ claimedAny = false ∧ s.dispatchOwed = false then
        some { s.complete .batchEmpty with stage := .head }
      else some { s with stage := .head }
    | _ => none
  | .recoverOnce completed =>
    if s.stage = .stopping then
      -- It waits for the claims of other threads, and is given up where one begins meanwhile.
      if completed ∧ s.claiming = [] then
        match s.unconfirmedAt with
        | none => some { s with stage := .draining none }
        | some since =>
          if c.lockTimeout < s.timeouts.now - since then
            some { s with unconfirmedAt := none, stage := .draining none }
          else some { s with unconfirmedAt := none, unlookedSince := none, stage := .draining none }
      else some { s with stage := .draining none }
    else none
  | .look =>
    match s.stage with
    | .draining giveUpAt =>
      if s.pending s.inFlight = [] then some { s with stage := .ended, renewing := false }
      else some { s with stage := .judging giveUpAt (s.pending s.inFlight) }
    | _ => none
  | .judge =>
    match s.stage with
    | .judging giveUpAt pending =>
      if s.timeouts.recycling then
        if pending.length ≤ s.timeouts.stuckAlive then
          some { s with stage := .ended, renewing := false }
        else
          match giveUpAt with
          | none =>
            some { s with
              stage := .draining (some (s.timeouts.now + c.recycleDrainBudget))
              recyclingSince := some s.timeouts.now }
          | some t =>
            if t ≤ s.timeouts.now then some { s with stage := .ended, renewing := false }
            else some { s with stage := .draining giveUpAt }
      else some { s with stage := .draining giveUpAt }
    | _ => none

def Start (s : LoopState) : Prop :=
  s.timeouts.Start ∧ s.stage = .head ∧ s.stop = false ∧ s.lastReap = 0 ∧ s.lastDispatch = 0 ∧
    s.dispatchOwed = false ∧ s.claimed = 0 ∧ s.inFlight = [] ∧ s.submitted = [] ∧ s.queue = [] ∧
    (∀ x, s.current x = none) ∧ s.finished = [] ∧ s.renewing = true ∧ s.granted = [] ∧
    s.completed = none ∧ s.faulted = false ∧ s.unconfirmedAt = none ∧ s.generation = 0 ∧
    s.claiming = [] ∧ s.unlookedSince = none ∧ s.deferred = false ∧ s.quiet = false ∧
    s.dispatched = true ∧ s.recyclingSince = none

end LoopState

/-- A worker in `run`, from its start. -/
def loopSystem (c : LoopConfig) : System LoopState LoopAction :=
  ⟨LoopState.Start, LoopState.step c⟩

end DjangoOx
