import Mathlib.Data.List.Infix
import DjangoOx.Machine.Act
import DjangoOx.Limits.Windows

/-! The claim pass of a worker with limits: the refresh, the claim, and the accounting after it. -/
namespace DjangoOx

open Machine

/-- The error classes of `django.db`, with their subclasses; `database` is without `integrity`. -/
inductive DbError
  | database
  | integrity
  | interface
  deriving DecidableEq, Repr

inductive Raised
  | db (e : DbError)
  | improperlyConfigured
  | keyError
  deriving DecidableEq, Repr

/-- `except DatabaseError`: InterfaceError is its sibling under `django.db.Error`. -/
def DbError.IsDatabaseError (e : DbError) : Prop :=
  e ≠ .interface

instance (e : DbError) : Decidable e.IsDatabaseError :=
  inferInstanceAs (Decidable (_ ≠ _))

/-- `except (DatabaseError, ImproperlyConfigured)` -/
def Raised.LosesACount : Raised → Prop
  | .db e => e.IsDatabaseError
  | .improperlyConfigured => True
  | .keyError => False

instance : ∀ e : Raised, Decidable e.LosesACount
  | .db e => inferInstanceAs (Decidable e.IsDatabaseError)
  | .improperlyConfigured => .isTrue trivial
  | .keyError => .isFalse not_false

/-- The limits of a backend's options; both settings are dictionaries by name. -/
structure LimitOptions where
  limits : List RateLimit
  concurrency : List ConcurrencyLimit
  refreshInterval : ℤ
  nodup : (limits.map RateLimit.name).Nodup

/-- A row of `OxpullRateWindow`, annotated with the database's clock. -/
structure ClockedRow where
  limitName : String
  windowId : ℕ
  used : ℕ
  windowStartedAt : ℤ
  dbNow : ℤ
  deriving DecidableEq, Repr

/-- `_Seen` -/
structure Seen where
  windowId : ℕ
  used : ℕ
  endsAt : ℤ
  deriving DecidableEq, Repr

/-- What the clock and the database answer to one part of a pass: the `n`-th read of the windows
in it, and the increments between the `n`-th and the next. -/
structure Replies where
  /-- `time.monotonic()` in `_refresh_view`. -/
  now : ℤ
  started : ℕ → ℤ
  probe : ℕ → String → Except DbError Unit
  select : ℕ → Except DbError (List ClockedRow)
  create : ℕ → String → Except DbError Unit
  /-- The SELECT after the seeds. -/
  reselect : ℕ → Except DbError (List ClockedRow)
  adopt : ℕ → String → Except DbError (Option ClockedRow)
  /-- Rows matched, as for `increment`. -/
  roll : ℕ → String → Except DbError ℕ
  increment : ℕ → String → Except DbError ℕ
  /-- `time.monotonic()` in `_read_running`. -/
  countStarted : ℤ
  running : Except DbError (String → ℕ)

/-- What happened to the limits, for the statements about a run. -/
inductive LimitEvent
  /-- `_read_windows` replaced the blocked sets. -/
  | refreshed (paths queues : List String)
  | reopened (name : String)
  | claimed (call : LimitedCall)
  /-- A covered admission whose increment matched a row. -/
  | recorded (name : String)
  | unrecorded (name : String)
  deriving DecidableEq, Repr

/-- `OxpullWorker`: the fields that its claim pass reads and writes. -/
structure LimitedWorker where
  seen : String → Option Seen
  blockedPaths : List String
  blockedQueues : List String
  viewStale : Bool
  refreshAfter : ℤ
  closed : List String
  countFailures : String → ℕ
  /-- `_folded`: stored spelling to configured name. -/
  folded : String → Option String
  concurrencyBlockedPaths : List String
  concurrencyBlockedQueues : List String
  concurrencyStale : Bool
  concurrencyRefreshAfter : ℤ
  /-- The reads of the windows begun in this part of the pass. -/
  reads : ℕ
  /-- Newest first. -/
  log : List LimitEvent

/-- `OxpullWorker.__init__` -/
def LimitedWorker.fresh : LimitedWorker where
  seen _ := none
  blockedPaths := []
  blockedQueues := []
  viewStale := true
  refreshAfter := 0
  closed := []
  countFailures _ := 0
  folded _ := none
  concurrencyBlockedPaths := []
  concurrencyBlockedQueues := []
  concurrencyStale := true
  concurrencyRefreshAfter := 0
  reads := 0
  log := []

/-- A computation of the worker. -/
abbrev LimitedAct (α : Type) := Act LimitedWorker Raised α

/-- A statement's answer. -/
def ask {α : Type} : Except DbError α → LimitedAct α
  | .ok a => pure a
  | .error e => throw (.db e)

namespace LimitedWorker

/-- `_reopen_what_counts_again`: one turn of its loop. -/
def reopen (r : Replies) (n : ℕ) (name : String) : LimitedAct Unit :=
  match r.probe n name with
  | .error e => if e.IsDatabaseError then pure () else throw (.db e)
  | .ok _ => modify fun w =>
      { w with
        closed := w.closed.filter (· ≠ name)
        countFailures := Function.update w.countFailures name 0
        log := .reopened name :: w.log }

def reopenWhatCountsAgain (r : Replies) (n : ℕ) : LimitedAct Unit := do
  let w ← get
  (w.closed.insertionSort (· ≤ ·)).forM (reopen r n)

/-- `_select`: the rows by the name they are configured under. The later row wins. -/
def keyed (w : LimitedWorker) (rows : List ClockedRow) (name : String) : Option ClockedRow :=
  rows.reverse.find? fun row => (w.folded row.limitName).getD row.limitName = name

/-- `_seed` -/
def seed (r : Replies) (n : ℕ) (name : String) : LimitedAct Unit :=
  match r.create n name with
  | .error .integrity => pure ()
  | .error e => throw (.db e)
  | .ok _ => pure ()

/-- `_adopt` -/
def adopt (o : LimitOptions) (r : Replies) (n : ℕ) (name : String) : LimitedAct ClockedRow := do
  let found ← ask (r.adopt n name)
  match found with
  | none => throw .improperlyConfigured
  | some row =>
    let w ← get
    let other := (w.folded row.limitName).or
      (if row.limitName ∈ o.limits.map RateLimit.name then some row.limitName else none)
    if other ≠ none ∧ other ≠ some name then throw .improperlyConfigured
    else do
      modify fun w => { w with folded := Function.update w.folded row.limitName (some name) }
      return row

/-- The seeds of one read, and what the SELECT after them gave. -/
def readRows (o : LimitOptions) (r : Replies) (n : ℕ) : LimitedAct (String → Option ClockedRow) := do
  let found ← ask (r.select n)
  let w ← get
  let missing := (o.limits.map RateLimit.name).filter fun name => (w.keyed found name).isNone
  if missing = [] then return w.keyed found
  else do
    missing.forM (seed r n)
    let again ← ask (r.reselect n)
    let w ← get
    let unread := missing.filter fun name => (w.keyed again name).isNone
    let adopted ← unread.mapM (adopt o r n)
    return fun name =>
      (((unread.zip adopted).find? fun e => e.1 = name).map Prod.snd).or (w.keyed again name)

/-- `_roll` of a window that has ended on the database's clock; no statement for any other. -/
def roll (r : Replies) (n : ℕ) (l : RateLimit) (row : ClockedRow) : LimitedAct ℕ :=
  if row.windowStartedAt + l.per ≤ row.dbNow then ask (r.roll n l.name) else pure 0

/-- The window as it was read, or as this worker's roll has just opened it. -/
def view (started : ℤ) (l : RateLimit) (row : ClockedRow) (rolled : ℕ) : Seen :=
  if rolled = 0 then
    ⟨row.windowId, row.used, started + max 0 (row.windowStartedAt + l.per - row.dbNow)⟩
  else ⟨row.windowId + 1, 0, started + max 0 (row.dbNow + l.per - row.dbNow)⟩

/-- `_read_windows`: one turn of its loop over the limits. -/
def readLimit (r : Replies) (n : ℕ) (rows : String → Option ClockedRow) (l : RateLimit) :
    LimitedAct Seen :=
  match rows l.name with
  | none => throw .keyError
  | some row => do
    let rolled ← roll r n l row
    return view (r.started n) l row rolled

/-- `_read_windows`: what it stores at its end. -/
def publish (o : LimitOptions) (started : ℤ) (views : List (RateLimit × Seen))
    (w : LimitedWorker) : LimitedWorker :=
  let blocked := views.filter fun v => v.1.limit ≤ v.2.used ∨ v.1.name ∈ w.closed
  let paths := blocked.flatMap fun v => v.1.taskPaths
  let queues := blocked.flatMap fun v => v.1.queues
  let next := started + o.refreshInterval
  { w with
    seen := fun name => (views.find? fun v => v.1.name = name).map Prod.snd
    blockedPaths := paths
    blockedQueues := queues
    viewStale := false
    refreshAfter :=
      match blocked.map fun v => v.2.endsAt with
      | [] => next
      | e :: es => if blocked.length = o.limits.length ∧ w.closed = []
          then max next (es.foldl min e) else next
    log := .refreshed paths queues :: w.log }

def readWindows (o : LimitOptions) (r : Replies) : LimitedAct Unit := do
  let n := (← get).reads
  modify fun w => { w with reads := n + 1 }
  reopenWhatCountsAgain r n
  let rows ← readRows o r n
  let seen ← o.limits.mapM (readLimit r n rows)
  modify (publish o (r.started n) (o.limits.zip seen))

/-- `_read_running`: its SELECT. A limit at 0 blocks without a count. -/
def countRunning (o : LimitOptions) (r : Replies) : LimitedAct (String → ℕ) :=
  if o.concurrency.all fun l => l.max = 0 then return fun _ => 0
  else match r.running with
    | .ok running => return running
    | .error e => do
      modify fun w => { w with concurrencyStale := true }
      throw (.db e)

/-- `_read_running` -/
def readRunning (o : LimitOptions) (r : Replies) : LimitedAct Unit := do
  modify fun w => { w with concurrencyStale := false }
  let running ← countRunning o r
  let blocked := o.concurrency.filter fun l => l.max ≤ running l.name
  modify fun w =>
    { w with
      concurrencyBlockedPaths := blocked.flatMap ConcurrencyLimit.taskPaths
      concurrencyBlockedQueues := blocked.flatMap ConcurrencyLimit.queues
      concurrencyRefreshAfter := r.countStarted + o.refreshInterval }

/-- `_refresh_view`: the rate limits' half. -/
def refreshWindows (o : LimitOptions) (r : Replies) : LimitedAct Unit := do
  let w ← get
  if o.limits ≠ [] ∧ (w.viewStale = true ∨ w.refreshAfter ≤ r.now) then readWindows o r
  else pure ()

/-- `_refresh_view`: the concurrency limits' half. -/
def refreshRunning (o : LimitOptions) (r : Replies) : LimitedAct Unit := do
  let w ← get
  if o.concurrency ≠ [] ∧ (w.concurrencyStale = true ∨ w.concurrencyRefreshAfter ≤ r.now) then
    readRunning o r
  else pure ()

/-- `_refresh_view` -/
def refreshView (o : LimitOptions) (r : Replies) : LimitedAct Unit := do
  refreshWindows o r
  refreshRunning o r

/-- `_unrecorded` -/
def unrecorded (name : String) (w : LimitedWorker) : LimitedWorker :=
  let failures := w.countFailures name + 1
  { w with
    countFailures := Function.update w.countFailures name failures
    closed := if failures < maxCountFailures ∨ name ∈ w.closed then w.closed
      else name :: w.closed }

/-- `_count`, with the tries left: whether an increment matched a row. -/
def count (o : LimitOptions) (r : Replies) (name : String) : ℕ → LimitedAct Bool
  | 0 => do
    modify (unrecorded name)
    return false
  | tries + 1 => do
    let w ← get
    match w.seen name with
    | none => return false
    | some _ =>
      match r.increment w.reads name with
      | .error e =>
        if e.IsDatabaseError then do
          modify (unrecorded name)
          return false
        else throw (.db e)
      | .ok (_ + 1) => do
        modify fun w => { w with countFailures := Function.update w.countFailures name 0 }
        return true
      | .ok 0 =>
        match ← (readWindows o r).attempt with
        | .ok _ => count o r name tries
        | .error e =>
          if e.LosesACount then do
            modify (unrecorded name)
            return false
          else throw e

/-- `_record`: one covering limit. -/
def countAdmission (o : LimitOptions) (r : Replies) (l : RateLimit) : LimitedAct Unit := do
  let landed ← count o r l.name maxRateAttempts
  modify fun w =>
    { w with log := (if landed = true then .recorded l.name else .unrecorded l.name) :: w.log }

/-- `_record` -/
def record (o : LimitOptions) (r : Replies) (call : LimitedCall) : LimitedAct Unit := do
  modify fun w =>
    { w with
      concurrencyStale := if ∃ l ∈ o.concurrency, l.Covers call then true else w.concurrencyStale }
  let covering := o.limits.filter fun l => l.Covers call
  covering.forM (countAdmission o r)
  modify fun w => { w with viewStale := if covering = [] then w.viewStale else true }

/-- The conditions that the limits add to a claim. -/
def Admits (w : LimitedWorker) (call : LimitedCall) : Prop :=
  call.taskPath ∉ w.blockedPaths ++ w.concurrencyBlockedPaths ∧
    call.queueName ∉ w.blockedQueues ++ w.concurrencyBlockedQueues

instance (w : LimitedWorker) (call : LimitedCall) : Decidable (w.Admits call) :=
  inferInstanceAs (Decidable (_ ∧ _))

/-- `super().claim_one()`: the first of the READY rows in its order that the filter lets through,
or an error that leaves nothing committed. -/
def superClaimOne (ready : Except Raised (List LimitedCall)) : LimitedAct (Option LimitedCall) :=
  match ready with
  | .error e => throw e
  | .ok rows => do
    let w ← get
    match rows.find? fun call => w.Admits call with
    | none => return none
    | some call =>
      modify fun w => { w with log := .claimed call :: w.log }
      return some call

end LimitedWorker

/-- What one call of `claim_one` meets: before the claim, at it, and after it. -/
structure Encounter where
  before : Replies
  ready : Except Raised (List LimitedCall)
  after : Replies

namespace LimitedWorker

/-- `claim_one` -/
def claimOne (o : LimitOptions) (c : Encounter) : LimitedAct (Option LimitedCall) := do
  if o.limits = [] ∧ o.concurrency = [] then superClaimOne c.ready
  else do
    modify fun w => { w with reads := 0 }
    refreshView o c.before
    let claimed ← superClaimOne c.ready
    match claimed with
    | none => return none
    | some call =>
      modify fun w => { w with reads := 0 }
      record o c.after call
      return some call

end LimitedWorker

end DjangoOx
