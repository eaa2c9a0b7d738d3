import DjangoOx.Machine.Standing
import DjangoOx.Task.History
import DjangoOx.Task.Pending
import DjangoOx.Workflow.Adding
import Mathlib.Algebra.GroupWithZero.Nat

/-! `Batch.add`, `Batch.seal` and the reconcilers' `_complete_once` a statement at a time, beside
whatever else happens to the task rows. Each statement reads what is committed when it begins. -/
namespace DjangoOx

open Machine

inductive BatchStatus
  | opened
  | sealed
  | complete
  deriving DecidableEq, Repr

structure OxpullBatch where
  status : BatchStatus
  totalCount : Option ℕ
  onCompletePath : String
  onSuccessPath : String
  failedCount : Option ℕ
  callbackTaskId : Option TaskId
  successTaskId : Option TaskId
  deriving DecidableEq, Repr

structure OxpullBatchMember where
  batch : ℕ
  task : TaskId
  deriving DecidableEq, Repr

inductive CallbackRole
  | onComplete
  | onSuccess
  deriving DecidableEq, Repr

/-- A callback of a batch, as it was enqueued. -/
structure Callback where
  batch : ℕ
  role : CallbackRole
  task : TaskId
  deriving DecidableEq, Repr

structure BatchTables where
  batches : ℕ → Option OxpullBatch
  members : List OxpullBatchMember
  tasks : TaskId → Option RowState
  /-- Every callback that was enqueued, oldest first. -/
  callbacks : List Callback

/-- A row as a statement leaves it. -/
inductive BatchWrite
  | batch (b : ℕ) (f : OxpullBatch)
  | member (m : OxpullBatchMember)
  | task (t : TaskId) (r : RowState)
  | callback (c : Callback) (r : RowState)

/-- What a batch's lock stands over. -/
structure BatchPart where
  row : Option OxpullBatch
  members : List TaskId
  callbacks : List Callback
  deriving DecidableEq, Repr

namespace BatchTables

def write (c : BatchTables) : BatchWrite → BatchTables
  | .batch b f => { c with batches := Function.update c.batches b (some f) }
  | .member m => { c with members := c.members ++ [m] }
  | .task t r => { c with tasks := Function.update c.tasks t (some r) }
  | .callback k r =>
    { c with
      tasks := Function.update c.tasks k.task (some r)
      callbacks := c.callbacks ++ [k] }

def membersOf (c : BatchTables) (b : ℕ) : List TaskId :=
  (c.members.filter (·.batch = b)).map (·.task)

def part (c : BatchTables) (b : ℕ) : BatchPart :=
  ⟨c.batches b, c.membersOf b, c.callbacks.filter (·.batch = b)⟩

/-- `_member_task_counts`; a status that the dictionary does not have counts zero. -/
def memberTaskCounts (c : BatchTables) (b : ℕ) (status : Status) : ℕ :=
  (c.membersOf b).dedup.countP fun t => (c.tasks t).map (·.row.status) = some status

/-- `_count_members`, `_sealed_without_a_total` -/
def countMembers (c : BatchTables) (b : ℕ) : ℕ := (c.membersOf b).length

end BatchTables

/-- The batch whose lock the write is made under, when it is to what the lock stands over. -/
def BatchWrite.key : BatchWrite → Option ℕ
  | .batch b _ => some b
  | .member m => some m.batch
  | .callback c _ => some c.batch
  | .task _ _ => none

/-- `OxTask.Status` -/
def Status.all : List Status :=
  [.ready, .running, .failed, .successful, .lost, .discarded, .waiting]

/-- `_pending_count` -/
def pendingCount (counts : Status → ℕ) : ℕ :=
  ((Status.all.filter fun st => ¬ st.Settled).map counts).sum

/-- `UNATTRIBUTED_STATUSES` -/
def unattributedStatuses : List Status := [.lost, .discarded]

/-- The members that `_complete_once` counts: all but the unattributed. -/
def countedOf (counts : Status → ℕ) : ℕ :=
  (Status.all.map counts).sum - (unattributedStatuses.map counts).sum

inductive MemberStage
  | called
  /-- Inside `transaction.atomic`. -/
  | entered
  | enqueued (task : TaskId)
  | claimed (task : TaskId)
  /-- Inside the savepoint of the insert. -/
  | inserting (task : TaskId)
  | inserted (task : TaskId)
  | added (task : TaskId)
  /-- An exception is on its way out of the block. -/
  | failing
  deriving DecidableEq, Repr

inductive BatchSealStage
  | called
  | entered
  /-- The status is written. -/
  | flipped
  | checked
  | counted (members : ℕ)
  | done
  | failing
  deriving DecidableEq, Repr

/-- `callbacks`: the columns that the completing transaction writes last. -/
structure CompletionColumns where
  failedCount : ℕ
  totalCount : Option ℕ
  callbackTaskId : Option TaskId
  successTaskId : Option TaskId
  deriving DecidableEq, Repr

inductive CompleteStage
  | called
  /-- The count outside the transaction found nothing pending. -/
  | filtered
  | entered
  /-- The row was not SEALED: `return None`. -/
  | beaten
  | won
  | counted (failed counted : ℕ)
  /-- The row's total is NULL. -/
  | totalless (failed counted : ℕ) (row : OxpullBatch)
  | totalled (failed unattributed : ℕ) (row : OxpullBatch) (columns : CompletionColumns)
  | completeSent (failed unattributed : ℕ) (row : OxpullBatch) (columns : CompletionColumns)
  | successSent (failed unattributed : ℕ) (columns : CompletionColumns)
  | stored (failed unattributed : ℕ)
  | failing
  deriving DecidableEq, Repr

inductive BatchCall
  | idle
  | adding (b attempt : ℕ) (stage : MemberStage)
  | sealing (b : ℕ) (stage : BatchSealStage)
  | completing (b attempt : ℕ) (stage : CompleteStage)
  deriving DecidableEq, Repr

/-- A session: `opened` is a transaction of the caller's own, `lost` that the server has rolled it
back under the caller. -/
structure BatchCaller where
  opened : Bool
  lost : Bool
  call : BatchCall
  deriving DecidableEq, Repr

structure BatchState where
  db : Ledger BatchTables BatchWrite ℕ ℕ
  callers : ℕ → BatchCaller
  /-- The task ids that were given out. -/
  issued : List TaskId

inductive BatchAction
  /-- The caller's own `atomic` blocks: the outermost, and those inside it. -/
  | begin (x : ℕ)
  | savepoint (x : ℕ)
  | release (x : ℕ)
  | undo (x : ℕ) (keep : Bool)
  | commit (x : ℕ)
  | rollback (x : ℕ)
  | create (x b : ℕ) (onComplete onSuccess : String)
  | add (x b : ℕ)
  | sealOnce (x b : ℕ)
  | complete (x b : ℕ)
  /-- A check of the arguments raises. -/
  | refuse (x : ℕ)
  | enter (x : ℕ)
  | enqueue (x : ℕ) (task : TaskId) (call : Call) (inherited : ℕ) (now : ℤ)
  /-- The enqueue of a unique task answers with the task that is pending. -/
  | enqueueKept (x : ℕ) (task : TaskId)
  | claimOpen (x : ℕ)
  | enterInsert (x : ℕ)
  | insertMember (x : ℕ)
  | leaveInsert (x : ℕ)
  | flip (x : ℕ)
  | requireSchedule (x : ℕ)
  | countMembers (x : ℕ)
  | storeTotal (x : ℕ)
  | filter (x : ℕ)
  | win (x : ℕ)
  | countTasks (x : ℕ)
  | readRow (x : ℕ)
  | countLive (x : ℕ)
  | sendComplete (x : ℕ) (task : TaskId) (call : Call) (inherited : ℕ) (now : ℤ)
  | sendSuccess (x : ℕ) (task : TaskId) (call : Call) (inherited : ℕ) (now : ℤ)
  | store (x : ℕ)
  /-- A statement of the call raises, or something between two. -/
  | fail (x : ℕ) (keep : Bool)
  | leave (x : ℕ)
  | raise (x : ℕ) (keep : Bool)
  /-- The server rolls the transaction back under the call, or the process is gone. -/
  | lose (x : ℕ) (conflict : Option LostConflict)
  /-- Everybody else: other enqueues, and what workers, reapers and operators do to a row. -/
  | elsewhere (task : TaskId) (call : Call) (inherited : ℕ) (now : ℤ)
  | row (task : TaskId) (a : RowAction)
  | prune (task : TaskId)

namespace BatchCall

/-- The savepoints inside the one the call entered with. -/
def inner : BatchCall → ℕ
  | .adding _ _ (.inserting _) | .adding _ _ (.inserted _) => 1
  | _ => 0

/-- Past `transaction.atomic`. -/
def inside : BatchCall → Bool
  | .idle | .adding _ _ .called | .sealing _ .called => false
  | .completing _ _ .called | .completing _ _ .filtered => false
  | _ => true

/-- An exception is on its way. -/
def failing : BatchCall → Bool
  | .adding _ _ .failing | .sealing _ .failing | .completing _ _ .failing => true
  | _ => false

/-- The last statement has answered. -/
def finished : BatchCall → Bool
  | .adding _ _ (.added _) | .sealing _ .done => true
  | .completing _ _ .beaten | .completing _ _ (.stored ..) => true
  | _ => false

/-- The call as an exception leaves its statements. -/
def failed : BatchCall → BatchCall
  | .idle => .idle
  | .adding b attempt _ => .adding b attempt .failing
  | .sealing b _ => .sealing b .failing
  | .completing b attempt _ => .completing b attempt .failing

/-- `_reissue`: the call begun again, when the conflict is one it reissues. -/
def reissued : BatchCall → LostConflict → Option BatchCall
  | .adding b attempt _, e =>
    if attempt + 1 < e.bound then some (.adding b (attempt + 1) .called) else none
  | .completing b attempt _, .serialization =>
    if attempt + 1 < LostConflict.serialization.bound then
      some (.completing b (attempt + 1) .filtered)
    else none
  | _, _ => none

/-- The batch whose compare-and-set the call's transaction has won. -/
def won : BatchCall → Option ℕ
  | .completing b _ .won | .completing b _ (.counted ..) | .completing b _ (.totalless ..)
  | .completing b _ (.totalled ..) | .completing b _ (.completeSent ..)
  | .completing b _ (.successSent ..) | .completing b _ (.stored ..) => some b
  | _ => none

end BatchCall

/-- A row just inserted by `enqueue`. -/
def RowState.enqueued (call : Call) (inherited : ℕ) (now : ℤ) : RowState :=
  ⟨DjangoOx.row call inherited now, [], [], [], []⟩

/-- The columns as the last UPDATE writes them. -/
def OxpullBatch.stored (f : OxpullBatch) (columns : CompletionColumns) : OxpullBatch :=
  { f with
    failedCount := some columns.failedCount
    totalCount := columns.totalCount.or f.totalCount
    callbackTaskId := columns.callbackTaskId.or f.callbackTaskId
    successTaskId := columns.successTaskId.or f.successTaskId }

namespace BatchState

def view (s : BatchState) (x : ℕ) : BatchTables := s.db.view BatchTables.write x

def setCaller (s : BatchState) (x : ℕ) (u : BatchCaller) : BatchState :=
  { s with callers := Function.update s.callers x u }

def setCall (s : BatchState) (x : ℕ) (call : BatchCall) : BatchState :=
  s.setCaller x { s.callers x with call := call }

def setDb (s : BatchState) (db : Ledger BatchTables BatchWrite ℕ ℕ) : BatchState :=
  { s with db := db }

/-- A statement of the call of `x` that answered. -/
def went (s : BatchState) (x : ℕ) (db : Ledger BatchTables BatchWrite ℕ ℕ)
    (call : BatchCall) : BatchState :=
  (s.setDb db).setCall x call

/-- The same of a statement that inserts a task's row. -/
def inserted (s : BatchState) (x : ℕ) (t : TaskId) (o : BatchWrite) (call : BatchCall) :
    BatchState :=
  { s.went x (s.db.write x o) call with issued := t :: s.issued }

/-- The caller runs its own code, in a transaction of its own that it has not lost. -/
def InBlock (s : BatchState) (x : ℕ) : Prop :=
  (s.callers x).call = .idle ∧ (s.callers x).opened = true ∧ (s.callers x).lost = false

instance (s : BatchState) (x : ℕ) : Decidable (s.InBlock x) :=
  inferInstanceAs (Decidable (_ ∧ _ ∧ _))

/-- The caller may begin a call. -/
def Ready (s : BatchState) (x : ℕ) : Prop :=
  (s.callers x).call = .idle ∧ (s.callers x).lost = false

instance (s : BatchState) (x : ℕ) : Decidable (s.Ready x) := inferInstanceAs (Decidable (_ ∧ _))

/-- The caller's own code. A reconciler is in no transaction of a caller's. -/
def stepCaller (s : BatchState) : BatchAction → Option BatchState
  | .begin x =>
    if s.Ready x ∧ (s.callers x).opened = false then
      some (s.setCaller x { s.callers x with opened := true })
    else none
  | .savepoint x => if s.InBlock x then some (s.setDb (s.db.save x)) else none
  | .release x => if s.InBlock x then some (s.setDb (s.db.forget x)) else none
  | .undo x keep => if s.InBlock x then some (s.setDb (s.db.undo x keep)) else none
  | .commit x =>
    if s.InBlock x then
      some ((s.setDb (s.db.commit BatchTables.write x)).setCaller x
        { s.callers x with opened := false })
    else none
  | .rollback x =>
    if (s.callers x).call = .idle ∧ (s.callers x).opened = true then
      some ((s.setDb (s.db.rollback x)).setCaller x
        { s.callers x with opened := false, lost := false })
    else none
  | .create x b onComplete onSuccess =>
    if s.Ready x ∧ s.db.holder b = none ∧ s.db.committed.batches b = none then
      let new : BatchWrite := .batch b ⟨.opened, none, onComplete, onSuccess, none, none, none⟩
      if (s.callers x).opened then some (s.setDb ((s.db.lock x b).write x new))
      else some (s.setDb (s.db.put (s.db.committed.write new)))
    else none
  | .add x b => if s.Ready x then some (s.setCall x (.adding b 0 .called)) else none
  | .sealOnce x b => if s.Ready x then some (s.setCall x (.sealing b .called)) else none
  | .complete x b =>
    if s.Ready x ∧ (s.callers x).opened = false then
      some (s.setCall x (.completing b 0 .called))
    else none
  | _ => none

/-- The statements of `_add_once` and of `seal`. -/
def stepCall (s : BatchState) : BatchAction → Option BatchState
  | .enqueue x task call inherited now =>
    match (s.callers x).call with
    | .adding b i .entered =>
      if task ∉ s.issued then
        some (s.inserted x task (.task task (.enqueued call inherited now))
          (.adding b i (.enqueued task)))
      else none
    | _ => none
  | .enqueueKept x task =>
    match (s.callers x).call with
    | .adding b i .entered =>
      match (s.view x).tasks task with
      | some r =>
        if r.row.Pending then some (s.setCall x (.adding b i (.enqueued task))) else none
      | none => none
    | _ => none
  | .claimOpen x =>
    match (s.callers x).call with
    | .adding b i (.enqueued task) =>
      match (s.view x).batches b with
      | some f =>
        if s.db.Free x b then
          if f.status = .opened then
            some (s.went x ((s.db.lock x b).write x (.batch b f)) (.adding b i (.claimed task)))
          else some (s.went x (s.db.lock x b) (.adding b i .failing))
        else none
      | none => some (s.setCall x (.adding b i .failing))
    | _ => none
  | .enterInsert x =>
    match (s.callers x).call with
    | .adding b i (.claimed task) =>
      some (s.went x (s.db.save x) (.adding b i (.inserting task)))
    | _ => none
  | .insertMember x =>
    match (s.callers x).call with
    | .adding b i (.inserting task) =>
      -- `oxpull_batch_member_uniq`; an IntegrityError is a `fail`.
      if task ∉ (s.view x).membersOf b then
        some (s.went x (s.db.write x (.member ⟨b, task⟩)) (.adding b i (.inserted task)))
      else none
    | _ => none
  | .leaveInsert x =>
    match (s.callers x).call with
    | .adding b i (.inserted task) => some (s.went x (s.db.forget x) (.adding b i (.added task)))
    | _ => none
  | .flip x =>
    match (s.callers x).call with
    | .sealing b .entered =>
      match (s.view x).batches b with
      | some f =>
        if f.status = .opened then
          if s.db.Free x b then
            some (s.went x ((s.db.lock x b).write x (.batch b { f with status := .sealed }))
              (.sealing b .flipped))
          else none
        else some (s.setCall x (.sealing b .failing))
      | none => some (s.setCall x (.sealing b .failing))
    | _ => none
  | .requireSchedule x =>
    match (s.callers x).call with
    | .sealing b .flipped => some (s.setCall x (.sealing b .checked))
    | _ => none
  | .countMembers x =>
    match (s.callers x).call with
    | .sealing b .checked => some (s.setCall x (.sealing b (.counted ((s.view x).countMembers b))))
    | _ => none
  | .storeTotal x =>
    match (s.callers x).call with
    | .sealing b (.counted n) =>
      match (s.view x).batches b with
      | some f =>
        let row : OxpullBatch := { f with totalCount := some n }
        some (s.went x (s.db.write x (.batch b row)) (.sealing b .done))
      | none => none
    | _ => none
  | _ => none

/-- The statements of `_complete_if_finished` and `_complete_once`. -/
def stepComplete (s : BatchState) : BatchAction → Option BatchState
  | .filter x =>
    match (s.callers x).call with
    | .completing b i .called =>
      if pendingCount ((s.view x).memberTaskCounts b) = 0 then
        some (s.setCall x (.completing b i .filtered))
      else some (s.setCall x .idle)
    | _ => none
  | .win x =>
    match (s.callers x).call with
    | .completing b i .entered =>
      match (s.view x).batches b with
      | some f =>
        if f.status = .sealed then
          if s.db.Free x b then
            some (s.went x ((s.db.lock x b).write x (.batch b { f with status := .complete }))
              (.completing b i .won))
          else none
        else some (s.setCall x (.completing b i .beaten))
      | none => some (s.setCall x (.completing b i .beaten))
    | _ => none
  | .countTasks x =>
    match (s.callers x).call with
    | .completing b i .won =>
      let counts := (s.view x).memberTaskCounts b
      -- `_MemberPending`
      if pendingCount counts ≠ 0 then some (s.setCall x (.completing b i .failing))
      else some (s.setCall x (.completing b i (.counted (counts .failed) (countedOf counts))))
    | _ => none
  | .readRow x =>
    match (s.callers x).call with
    | .completing b i (.counted failed counted) =>
      match (s.view x).batches b with
      | some f =>
        match f.totalCount with
        | some total => some (s.setCall x (.completing b i
            (.totalled failed (total - counted) f ⟨failed, none, none, none⟩)))
        | none => some (s.setCall x (.completing b i (.totalless failed counted f)))
      | none => none
    | _ => none
  | .countLive x =>
    match (s.callers x).call with
    | .completing b i (.totalless failed counted f) =>
      let total := (s.view x).countMembers b
      some (s.setCall x (.completing b i
        (.totalled failed (total - counted) f ⟨failed, some total, none, none⟩)))
    | _ => none
  | .sendComplete x task call inherited now =>
    match (s.callers x).call with
    | .completing b i (.totalled failed unattributed f columns) =>
      if f.onCompletePath = "" then
        some (s.setCall x (.completing b i (.completeSent failed unattributed f columns)))
      else if task ∉ s.issued then
        some (s.inserted x task (.callback ⟨b, .onComplete, task⟩ (.enqueued call inherited now))
          (.completing b i (.completeSent failed unattributed f
            { columns with callbackTaskId := some task })))
      else none
    | _ => none
  | .sendSuccess x task call inherited now =>
    match (s.callers x).call with
    | .completing b i (.completeSent failed unattributed f columns) =>
      if failed = 0 ∧ unattributed = 0 ∧ f.onSuccessPath ≠ "" then
        if task ∉ s.issued then
          some (s.inserted x task (.callback ⟨b, .onSuccess, task⟩ (.enqueued call inherited now))
            (.completing b i (.successSent failed unattributed
              { columns with successTaskId := some task })))
        else none
      else some (s.setCall x (.completing b i (.successSent failed unattributed columns)))
    | _ => none
  | .store x =>
    match (s.callers x).call with
    | .completing b i (.successSent failed unattributed columns) =>
      match (s.view x).batches b with
      | some f =>
        some (s.went x (s.db.write x (.batch b (f.stored columns)))
          (.completing b i (.stored failed unattributed)))
      | none => none
    | _ => none
  | _ => none

/-- The blocks around those statements: `transaction.atomic` and `_reissue`. -/
def stepBlock (s : BatchState) : BatchAction → Option BatchState
  | .refuse x =>
    match (s.callers x).call with
    | .adding _ 0 .called | .sealing _ .called | .completing _ 0 .called =>
      some (s.setCall x .idle)
    | _ => none
  | .enter x =>
    let db := if (s.callers x).opened then s.db.save x else s.db
    match (s.callers x).call with
    | .adding b i .called => some (s.went x db (.adding b i .entered))
    | .sealing b .called => some (s.went x db (.sealing b .entered))
    | .completing b i .filtered => some (s.went x db (.completing b i .entered))
    | _ => none
  | .fail x keep =>
    let call := (s.callers x).call
    if call.inside = true ∧ call.failing = false then
      some (s.went x (if call.inner = 1 then s.db.undo x keep else s.db) call.failed)
    else none
  | .leave x =>
    let db := if (s.callers x).opened then s.db.forget x else s.db.commit BatchTables.write x
    if (s.callers x).call.finished = true then some (s.went x db .idle) else none
  | .raise x keep =>
    let db := if (s.callers x).opened then s.db.undo x keep else s.db.rollback x
    if (s.callers x).call.failing = true then some (s.went x db .idle) else none
  | .lose x conflict =>
    let call := (s.callers x).call
    if call.inside = true then
      let s := s.setDb (s.db.rollback x)
      if (s.callers x).opened then
        some (s.setCaller x { s.callers x with call := .idle, lost := true })
      else some (s.setCall x ((conflict.bind call.reissued).getD .idle))
    else none
  | _ => none

/-- Everybody else, a transaction at a time. -/
def stepOther (s : BatchState) : BatchAction → Option BatchState
  | .elsewhere task call inherited now =>
    if task ∉ s.issued then
      let new : BatchWrite := .task task (.enqueued call inherited now)
      some { s.setDb (s.db.put (s.db.committed.write new)) with issued := task :: s.issued }
    else none
  | .row t a =>
    ((s.db.committed.tasks t).bind fun r => r.step a).map fun r =>
      s.setDb (s.db.put { s.db.committed with
        tasks := Function.update s.db.committed.tasks t (some r) })
  | .prune t =>
    match s.db.committed.tasks t with
    | some r =>
      if r.row.status.Settled then
        some (s.setDb (s.db.put { s.db.committed with
          tasks := Function.update s.db.committed.tasks t none }))
      else none
    | none => none
  | _ => none

def step (s : BatchState) (a : BatchAction) : Option BatchState :=
  (s.stepCaller a).or ((s.stepCall a).or ((s.stepComplete a).or ((s.stepBlock a).or
    (s.stepOther a))))

/-- No row, and nobody in a transaction. -/
def Start (s : BatchState) : Prop :=
  s.db = Ledger.idle ⟨fun _ => none, [], fun _ => none, []⟩ ∧
    ∀ x, s.callers x = ⟨false, false, .idle⟩

end BatchState

def batchSystem : System BatchState BatchAction where
  init := BatchState.Start
  step := BatchState.step

end DjangoOx
