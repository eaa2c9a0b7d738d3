import DjangoOx.Batch.Lifecycle
import DjangoOx.Workflow.Classes
import DjangoOx.Workflow.Turn

/-! `_complete_if_finished` of a workflow a statement at a time, beside every party that writes the
workflow's rows. Each statement reads what is committed when it begins; a completing transaction
keeps its writes to itself until it commits. -/
namespace DjangoOx

open Machine

/-- An entry of `completions`. -/
structure CompletionRecord where
  total : ℕ
  succeeded : ℕ
  failed : ℕ
  cancelled : ℕ
  unattributed : ℕ
  callbackTaskId : Option TaskId
  successTaskId : Option TaskId
  deriving DecidableEq, Repr

/-- The columns of a workflow's row that its completion alone reads or writes. -/
structure CompletionRow where
  onCompletePath : String
  onSuccessPath : String
  generation : ℕ
  failedCount : Option ℕ
  cancelledCount : Option ℕ
  callbackTaskId : Option TaskId
  successTaskId : Option TaskId
  /-- By generation. -/
  completions : List (ℕ × CompletionRecord)
  deriving DecidableEq, Repr

/-- `fields`: the columns that the completing transaction writes last. -/
structure CompletionFields where
  totalCount : Option ℕ
  callbackTaskId : Option TaskId
  successTaskId : Option TaskId
  deriving DecidableEq, Repr

/-- A FAILED or LOST row as the plain read finds it. -/
structure DeadRow where
  task : TaskId
  status : Status
  epoch : ℕ
  deriving DecidableEq, Repr

/-- What the transaction has read: the dead rows, those of them that were not there when their lock
was asked for, and the nodes as they were classified under the locks. -/
structure CompletionReads where
  dead : List DeadRow
  gone : List DeadRow
  classes : Classes
  deriving DecidableEq, Repr

inductive CompletionStage
  | called
  /-- The classification outside the transaction found nothing pending and no record to repair. -/
  | filtered
  | entered
  | won
  | locking (dead unlocked gone : List DeadRow)
  | classified (reads : CompletionReads)
  /-- The row's total is NULL. -/
  | totalless (reads : CompletionReads) (row : CompletionRow)
  | totalled (reads : CompletionReads) (row : CompletionRow) (total : ℕ) (fields : CompletionFields)
  | completeSent (reads : CompletionReads) (row : CompletionRow) (total : ℕ)
      (fields : CompletionFields)
  | successSent (reads : CompletionReads) (row : CompletionRow) (total : ℕ)
      (fields : CompletionFields)
  | stored (reads : CompletionReads) (row : CompletionRow) (fields : CompletionFields)
  deriving DecidableEq, Repr

inductive CompletionCall
  | idle
  | completing (w attempt : ℕ) (stage : CompletionStage)
  deriving DecidableEq, Repr

/-- A callback of a workflow, as it was enqueued. -/
structure WorkflowCallback where
  workflow : ℕ
  role : CallbackRole
  task : TaskId
  deriving DecidableEq, Repr

structure CompletingState where
  base : WorkflowState
  columns : ℕ → CompletionRow
  calls : ℕ → CompletionCall
  /-- The callbacks enqueued and committed, oldest first. -/
  callbacks : List WorkflowCallback
  /-- The task ids given to callbacks. -/
  issued : List TaskId

inductive CompletingAction
  /-- Everybody else. -/
  | other (a : WorkflowAction)
  | create (w : ℕ) (onComplete onSuccess : String)
  | complete (x w : ℕ)
  | filter (x : ℕ)
  | enter (x : ℕ)
  | win (x : ℕ)
  | readDead (x : ℕ)
  | lockDead (x : ℕ) (task : TaskId)
  | classify (x : ℕ)
  | readRow (x : ℕ)
  | countLive (x : ℕ)
  | sendComplete (x : ℕ) (task : TaskId)
  | sendSuccess (x : ℕ) (task : TaskId)
  | store (x : ℕ)
  | commit (x : ℕ)
  /-- A statement raises, or something between two; the transaction rolls back. -/
  | fail (x : ℕ)
  /-- The server rolls the transaction back under the call, or the process is gone. -/
  | lose (x : ℕ) (conflict : Option LostConflict)

/-- The steps that are no completion of a workflow, and create none. -/
def WorkflowAction.IsOther : WorkflowAction → Bool
  | .create _ | .complete _ => false
  | _ => true

/-- The task id that the step gives out. -/
def WorkflowAction.gives : WorkflowAction → Option TaskId
  | .commitAdd _ task _ _ _ => some task
  | _ => none

namespace CompletionCall

/-- Past `transaction.atomic`. -/
def inside : CompletionCall → Bool
  | .idle | .completing _ _ .called | .completing _ _ .filtered => false
  | _ => true

/-- The workflow whose compare-and-set the call's transaction has won. -/
def won : CompletionCall → Option ℕ
  | .idle | .completing _ _ .called | .completing _ _ .filtered | .completing _ _ .entered => none
  | .completing w _ _ => some w

/-- `_reissue`, without deadlocks. -/
def reissued : CompletionCall → LostConflict → Option CompletionCall
  | .completing w attempt _, .serialization =>
    if attempt + 1 < LostConflict.serialization.bound then
      some (.completing w (attempt + 1) .filtered)
    else none
  | _, _ => none

end CompletionCall

/-- The row as the last UPDATE writes it. -/
def CompletionRow.stored (row : CompletionRow) (c : Classes) (total : ℕ)
    (fields : CompletionFields) : CompletionRow :=
  { row with
    failedCount := some c.failed
    cancelledCount := some c.discardedRows
    callbackTaskId := fields.callbackTaskId.or row.callbackTaskId
    successTaskId := fields.successTaskId.or row.successTaskId
    completions :=
      if row.generation ∈ row.completions.map (·.1) then row.completions
      else row.completions ++ [(row.generation, ⟨total, c.succeeded, c.failed, c.discardedRows,
        c.unattributed total, fields.callbackTaskId, fields.successTaskId⟩)] }

/-- The callbacks that a transaction with those fields has enqueued. -/
def CompletionFields.callbacks (fields : CompletionFields) (w : ℕ) : List WorkflowCallback :=
  (fields.callbackTaskId.map fun t => ⟨w, .onComplete, t⟩).toList ++
    (fields.successTaskId.map fun t => ⟨w, .onSuccess, t⟩).toList

namespace CompletingState

def setCall (s : CompletingState) (x : ℕ) (call : CompletionCall) : CompletingState :=
  { s with calls := Function.update s.calls x call }

/-- The transaction rolls back, and the call goes on as given. -/
def rollback (s : CompletingState) (x : ℕ) (call : CompletionCall) : CompletingState :=
  { s with base := s.base.unlock x, calls := Function.update s.calls x call }

/-- A callback is enqueued, in the transaction. -/
def give (s : CompletingState) (task : TaskId) : CompletingState :=
  { s with issued := task :: s.issued }

/-- Nobody has had the task id. -/
def Fresh (s : CompletingState) (task : TaskId) : Prop := task ∉ s.issued ∧ task ∉ s.base.used

instance (s : CompletingState) (task : TaskId) : Decidable (s.Fresh task) :=
  inferInstanceAs (Decidable (_ ∧ _))

/-- The dead rows of a workflow's nodes, as one plain read finds them. -/
def deadRows (s : CompletingState) (w : ℕ) : List DeadRow :=
  (s.base.nodesOf w).filterMap fun n =>
    match s.base.row n.task with
    | some (st, e) => if st.RetryableDead then some ⟨n.task, st, e⟩ else none
    | none => none

/-- The rows as the transaction leaves them. -/
def committed (s : CompletingState) (x w : ℕ) (f : OxpullWorkflow) (row : CompletionRow)
    (fields : CompletionFields) : CompletingState :=
  { s with
    base := { s.base.unlock x with
      workflows := Function.update s.base.workflows w
        (some { f with status := .complete, totalCount := fields.totalCount.or f.totalCount }) }
    columns := Function.update s.columns w row
    calls := Function.update s.calls x .idle
    callbacks := s.callbacks ++ fields.callbacks w }

/-- Everybody else: who is in a call of `_complete_if_finished` does nothing beside it. -/
def stepOther (s : CompletingState) : CompletingAction → Option CompletingState
  | .other a =>
    if a.IsOther = true ∧ (∀ x ∈ a.party, s.calls x = .idle) ∧ ∀ t ∈ a.gives, t ∉ s.issued then
      (s.base.step a).map fun base => { s with base := base }
    else none
  | .create w onComplete onSuccess =>
    (s.base.step (.create w)).map fun base =>
      { s with
        base := base
        columns := Function.update s.columns w
          ⟨onComplete, onSuccess, 0, none, none, none, none, []⟩ }
  | _ => none

/-- The call up to the locks. -/
def stepLock (s : CompletingState) : CompletingAction → Option CompletingState
  | .complete x w =>
    match s.calls x, s.base.passes x with
    | .idle, .idle => some (s.setCall x (.completing w 0 .called))
    | _, _ => none
  | .filter x =>
    match s.calls x with
    | .completing w i .called =>
      let classes := s.base.classify w
      -- Records that are behind are repaired by a pass of their own.
      if classes.repair ≠ 0 ∨ classes.pending ≠ 0 then some (s.setCall x .idle)
      else some (s.setCall x (.completing w i .filtered))
    | _ => none
  | .enter x =>
    match s.calls x with
    | .completing w i .filtered => some (s.setCall x (.completing w i .entered))
    | _ => none
  | .win x =>
    match s.calls x with
    | .completing w i .entered =>
      match s.base.workflows w with
      | some f =>
        if f.status = .sealed then
          if s.base.owner w = none then
            some { s with
              base := { s.base with owner := Function.update s.base.owner w (some x) }
              calls := Function.update s.calls x (.completing w i .won) }
          else none
        else some (s.rollback x .idle)
      | none => some (s.rollback x .idle)
    | _ => none
  | .readDead x =>
    match s.calls x with
    | .completing w i .won =>
      some (s.setCall x (.completing w i (.locking (s.deadRows w) (s.deadRows w) [])))
    | _ => none
  | .lockDead x t =>
    match s.calls x with
    | .completing w i (.locking dead unlocked gone) =>
      match unlocked.find? (·.task = t) with
      | some d =>
        match s.base.row t with
        | none => some (s.setCall x
            (.completing w i (.locking dead (unlocked.erase d) (gone ++ [d]))))
        | some r =>
          if s.base.Free x t then
            -- `_NodePending`
            if r ≠ (d.status, d.epoch) then some (s.rollback x .idle)
            else some { s with
              base := { s.base with holder := Function.update s.base.holder t (some x) }
              calls := Function.update s.calls x
                (.completing w i (.locking dead (unlocked.erase d) gone)) }
          else none
      | none => none
    | _ => none
  | _ => none

/-- The call past the locks. -/
def stepComplete (s : CompletingState) : CompletingAction → Option CompletingState
  | .classify x =>
    match s.calls x with
    | .completing w i (.locking dead [] gone) =>
      let classes := s.base.classify w
      if classes.pending ≠ 0 ∨ classes.repair ≠ 0 ∨ classes.deadRows ≠ dead.length then
        some (s.rollback x .idle)
      else some (s.setCall x (.completing w i (.classified ⟨dead, gone, classes⟩)))
    | _ => none
  | .readRow x =>
    match s.calls x with
    | .completing w i (.classified reads) =>
      match s.base.workflows w with
      | some f =>
        match f.totalCount with
        | some total => some (s.setCall x
            (.completing w i (.totalled reads (s.columns w) total ⟨none, none, none⟩)))
        | none => some (s.setCall x (.completing w i (.totalless reads (s.columns w))))
      | none => none
    | _ => none
  | .countLive x =>
    match s.calls x with
    | .completing w i (.totalless reads row) =>
      let total := (s.base.nodesOf w).length
      some (s.setCall x (.completing w i (.totalled reads row total ⟨some total, none, none⟩)))
    | _ => none
  | .sendComplete x task =>
    match s.calls x with
    | .completing w i (.totalled reads row total fields) =>
      if row.onCompletePath = "" then
        some (s.setCall x (.completing w i (.completeSent reads row total fields)))
      else if s.Fresh task then
        some ((s.give task).setCall x (.completing w i (.completeSent reads row total
          { fields with callbackTaskId := some task })))
      else none
    | _ => none
  | .sendSuccess x task =>
    match s.calls x with
    | .completing w i (.completeSent reads row total fields) =>
      if reads.classes.failed = 0 ∧ reads.classes.unattributed total = 0 ∧
          row.onSuccessPath ≠ "" then
        if s.Fresh task then
          some ((s.give task).setCall x (.completing w i (.successSent reads row total
            { fields with successTaskId := some task })))
        else none
      else some (s.setCall x (.completing w i (.successSent reads row total fields)))
    | _ => none
  | .store x =>
    match s.calls x with
    | .completing w i (.successSent reads row total fields) =>
      some (s.setCall x
        (.completing w i (.stored reads (row.stored reads.classes total fields) fields)))
    | _ => none
  | .commit x =>
    match s.calls x with
    | .completing w _ (.stored _ row fields) =>
      (s.base.workflows w).map fun f => s.committed x w f row fields
    | _ => none
  | .fail x => if s.calls x = .idle then none else some (s.rollback x .idle)
  | .lose x conflict =>
    if (s.calls x).inside = true then
      some (s.rollback x ((conflict.bind (s.calls x).reissued).getD .idle))
    else none
  | _ => none

def step (s : CompletingState) (a : CompletingAction) : Option CompletingState :=
  (s.stepOther a).or ((s.stepLock a).or (s.stepComplete a))

/-- No row, and nobody in a call. -/
def Start (s : CompletingState) : Prop :=
  s.base.Start ∧ (∀ x, s.calls x = .idle) ∧ s.callbacks = [] ∧ s.issued = []

end CompletingState

def completingSystem : System CompletingState CompletingAction where
  init := CompletingState.Start
  step := CompletingState.step

end DjangoOx
