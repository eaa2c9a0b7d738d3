import DjangoOx.Workflow.Turn

/-! How waiting nodes are released: `add` with its check after the commit, the outcome of a node
with the release that follows it, and both a statement at a time beside every other party. A
transaction keeps its writes to itself until it commits, and its locks. -/
namespace DjangoOx

open Machine

/-- `_write_node_outcome`, once the task's row is written. -/
inductive OutcomeStage
  | written
  /-- The task is no node. -/
  | unrecorded
  /-- The node is locked and its record written. -/
  | recorded
  /-- The edges out of the task that were not marked: their keys, and the nodes they point at. -/
  | marked (pairs : List (ℕ × TaskId))
  deriving DecidableEq, Repr

inductive ReleasingCall
  | idle
  /-- `_take_for_add` has the workflow's row. -/
  | taken (w : ℕ) (name : String) (wanted : List String)
  /-- The upstreams are resolved, the nodes in `unlocked` still to be locked. -/
  | adding (w : ℕ) (unlocked : List TaskId)
  /-- `_recheck_added_node`, before its release. -/
  | rechecking (task : TaskId)
  | writing (task : TaskId) (row : RowState) (stage : OutcomeStage)
  /-- `release_downstream`, between two chunks. -/
  | owing (left : List TaskId)
  | releasing (left chunk : List TaskId) (attempt : ℕ)

namespace ReleasingCall

/-- The nodes the call is still to look at and release. -/
def owed : ReleasingCall → List TaskId
  | .rechecking task => [task]
  | .owing left => left
  | .releasing left chunk _ => chunk ++ left
  | _ => []

/-- Whether no call is on its way. -/
def isIdle : ReleasingCall → Bool
  | .idle => true
  | _ => false

end ReleasingCall

structure ReleasingState where
  base : WorkflowState
  /-- The party that holds a node row's lock, by the node's task. -/
  nodeHolder : TaskId → Option ℕ
  calls : ℕ → ReleasingCall
  /-- The nodes whose release was given up, to the skip queue or to nothing but the backstop. -/
  dropped : List TaskId

inductive ReleasingAction
  /-- Everybody who is in none of these calls. -/
  | other (a : WorkflowAction)
  | take (x w : ℕ) (name : String) (wanted : List String)
  | resolve (x : ℕ)
  | lockUpstream (x : ℕ) (task : TaskId)
  | readSucceeded (x size : ℕ)
  /-- `replied` is false where the answer to the COMMIT is lost. -/
  | commitAdd (x : ℕ) (task : TaskId) (call : Call) (inherited : ℕ) (now : ℤ) (replied : Bool)
  | write (x : ℕ) (task : TaskId) (b : Backoff) (held : OxTask) (now : ℤ) (ending : AttemptEnd)
  | lockNode (x : ℕ)
  | readEdges (x : ℕ)
  | commitOutcome (x : ℕ) (replied : Bool)
  | recheck (x : ℕ)
  | proveRows (x size : ℕ)
  | proveRecords (x size : ℕ)
  | markProven (x : ℕ) (locked : List ℕ)
  | takeChunk (x size : ℕ)
  | beginChunk (x : ℕ)
  | readHeld (x : ℕ)
  | readWaiting (x : ℕ)
  | releaseMany (x : ℕ) (now : ℤ)
  /-- The chunk's transaction loses a lock conflict. -/
  | conflict (x : ℕ)
  | finish (x : ℕ)
  /-- Any other error, or the process is gone; the transaction rolls back. -/
  | fail (x : ℕ)

/-- `RELEASE_CHUNK_ATTEMPTS` -/
def releaseChunkAttempts : ℕ := 2

/-- `RECORDED_BY_THE_WORKER` -/
def Status.RecordedByTheWorker (s : Status) : Prop := s = .successful ∨ s = .failed

instance : DecidablePred Status.RecordedByTheWorker := fun s =>
  inferInstanceAs (Decidable (s = _ ∨ s = _))

/-- The upstreams of a node that is being added. -/
def WorkflowPass.upstream : WorkflowPass → List TaskId
  | .adding _ _ upstream _ _ => upstream
  | _ => []

/-- Whether the row that `add` is about to commit is READY. -/
def WorkflowPass.released : WorkflowPass → Bool
  | .adding _ _ upstream _ succeeded => upstream ⊆ succeeded
  | _ => false

/-- The keys of the edges that a re-check is about to mark. -/
def WorkflowPass.wanted : WorkflowPass → List ℕ
  | .proving edges _ _ proven => (edges.filter (·.2.1 ∈ proven)).map (·.1)
  | _ => []

/-- The outcome may commit. -/
def OutcomeStage.Done (stage : OutcomeStage) (status : Status) : Bool :=
  match stage with
  | .written => false
  | .unrecorded => true
  | .recorded => status ≠ .successful
  | .marked _ => true

/-- `record_node_outcome`'s answer. -/
def OutcomeStage.downstream : OutcomeStage → List TaskId
  | .marked pairs => (pairs.map (·.2)).dedup
  | _ => []

namespace WorkflowState

/-- What no party outside the calls does: an `add`, and an outcome that a recording worker writes
in a call of its own. A `seal` waits for whoever holds the workflow's row. -/
def Beside (s : WorkflowState) : WorkflowAction → Bool
  | .startAdd _ _ _ _ | .readSucceeded _ _ | .commitAdd _ _ _ _ _ => false
  | .row _ (.writeOutcome _ _ _ _) => false
  | .outcome t b held now ending =>
    match (s.rows t).bind (·.step (.writeOutcome b held now ending)) with
    | some r => ¬ r.row.status.RecordedByTheWorker
    | none => true
  | .sealOnce w => s.owner w = none
  | _ => true

/-- The edges out of a task that are not marked. -/
def openEdgesOut (s : WorkflowState) (t : TaskId) : List (ℕ × TaskId) :=
  (s.edges.filter fun e => e.upstream = t ∧ e.satisfied = false).map fun e => (e.pk, e.downstream)

/-- The tables as the outcome's COMMIT leaves them. -/
def withOutcome (s : WorkflowState) (t : TaskId) (r : RowState) (stage : OutcomeStage) :
    WorkflowState :=
  match stage with
  | .written | .unrecorded => s.putRow t r
  | .recorded => (s.putRow t r).recordNode t r.row.status r.row.leaseEpoch
  | .marked pairs =>
    { (s.putRow t r).recordNode t r.row.status r.row.leaseEpoch with
      edges := markSatisfied s.edges (pairs.map (·.1)) }

end WorkflowState

namespace ReleasingState

def setCall (s : ReleasingState) (x : ℕ) (call : ReleasingCall) : ReleasingState :=
  { s with calls := Function.update s.calls x call }

/-- The call's pass steps, and the call goes on as given. -/
def advance (s : ReleasingState) (x : ℕ) (a : WorkflowAction) (call : ReleasingCall) :
    Option ReleasingState :=
  (s.base.step a).map fun base => { s.setCall x call with base := base }

/-- The node locks, once a party's transaction has ended. -/
def unlocked (s : ReleasingState) (x : ℕ) : TaskId → Option ℕ :=
  fun t => if s.nodeHolder t = some x then none else s.nodeHolder t

/-- A COMMIT. Where its answer is lost, so is what the call was to do next. -/
def commit (s : ReleasingState) (x : ℕ) (base : WorkflowState) (next : ReleasingCall)
    (replied : Bool) : ReleasingState where
  base := base.unlock x
  nodeHolder := s.unlocked x
  calls := Function.update s.calls x (if replied then next else .idle)
  dropped := if replied then s.dropped else next.owed ++ s.dropped

/-- Everybody else. A write of a locked node row waits for the lock. -/
def stepOther (s : ReleasingState) : ReleasingAction → Option ReleasingState
  | .other a =>
    if s.base.Beside a = true ∧ ∀ x ∈ a.party, (s.calls x).isIdle = true then
      (s.base.step a).bind fun base =>
        if ∀ n ∈ s.base.nodes, s.nodeHolder n.task ≠ none → n ∈ base.nodes then
          some { s with base := base }
        else none
    else none
  | _ => none

/-- `_add_once` -/
def stepAdd (s : ReleasingState) : ReleasingAction → Option ReleasingState
  | .take x w name wanted =>
    match s.calls x, s.base.passes x, s.base.workflows w with
    | .idle, .idle, some f =>
      if f.status = .opened ∧ s.base.owner w = none then
        some { s.setCall x (.taken w name wanted) with
          base := { s.base with owner := Function.update s.base.owner w (some x) } }
      else none
    | _, _, _ => none
  | .resolve x =>
    match s.calls x with
    | .taken w name wanted =>
      s.advance x (.startAdd x w name wanted)
        (.adding w ((s.base.resolveDependencies w wanted).getD []))
    | _ => none
  | .lockUpstream x t =>
    match s.calls x with
    | .adding w unlocked =>
      if t ∈ unlocked ∧ (s.nodeHolder t = none ∨ s.nodeHolder t = some x) then
        some { s.setCall x (.adding w (unlocked.erase t)) with
          nodeHolder := Function.update s.nodeHolder t (some x) }
      else none
    | _ => none
  | .readSucceeded x size =>
    match s.calls x with
    | .adding w [] => s.advance x (.readSucceeded x size) (.adding w [])
    | _ => none
  | .commitAdd x task call inherited now replied =>
    match s.calls x with
    | .adding _ [] =>
      let next := if (s.base.passes x).released then .idle else .rechecking task
      (s.base.step (.commitAdd x task call inherited now)).map fun base =>
        s.commit x base next replied
    | _ => none
  | _ => none

/-- `_write_node_outcome` -/
def stepOutcome (s : ReleasingState) : ReleasingAction → Option ReleasingState
  | .write x t b held now ending =>
    match s.calls x, s.base.passes x, s.base.holder t with
    | .idle, .idle, none =>
      ((s.base.rows t).bind (·.step (.writeOutcome b held now ending))).bind fun r =>
        if r.row.status.RecordedByTheWorker then
          some { s.setCall x (.writing t r .written) with
            base := { s.base with holder := Function.update s.base.holder t (some x) } }
        else none
    | _, _, _ => none
  | .lockNode x =>
    match s.calls x with
    | .writing t r .written =>
      if (s.base.nodeOf t).isSome = true then
        if s.nodeHolder t = none ∨ s.nodeHolder t = some x then
          some { s.setCall x (.writing t r .recorded) with
            nodeHolder := Function.update s.nodeHolder t (some x) }
        else none
      else some (s.setCall x (.writing t r .unrecorded))
    | _ => none
  | .readEdges x =>
    match s.calls x with
    | .writing t r .recorded =>
      if r.row.status = .successful then
        some (s.setCall x (.writing t r (.marked (s.base.openEdgesOut t))))
      else none
    | _ => none
  | .commitOutcome x replied =>
    match s.calls x with
    | .writing t r stage =>
      if stage.Done r.row.status = true then
        some (s.commit x (s.base.withOutcome t r stage) (.owing stage.downstream) replied)
      else none
    | _ => none
  | _ => none

/-- `_satisfy_edges_into` of an added node. -/
def stepRecheck (s : ReleasingState) : ReleasingAction → Option ReleasingState
  | .recheck x =>
    match s.calls x with
    | .rechecking t => s.advance x (.readEdgesInto x [t]) (.rechecking t)
    | _ => none
  | .proveRows x size =>
    match s.calls x with
    | .rechecking t => s.advance x (.proveRows x size) (.rechecking t)
    | _ => none
  | .proveRecords x size =>
    match s.calls x with
    | .rechecking t => s.advance x (.proveRecords x size) (.rechecking t)
    | _ => none
  | .markProven x locked =>
    match s.calls x with
    | .rechecking t =>
      -- Edges that could not be locked are the skip queue's.
      let skipped := if (s.base.passes x).wanted ⊆ locked then [] else [t]
      (s.advance x (.markProven x locked) (.owing [t])).map fun s =>
        { s with dropped := skipped ++ s.dropped }
    | _ => none
  | _ => none

/-- `release_downstream` -/
def stepRelease (s : ReleasingState) : ReleasingAction → Option ReleasingState
  | .takeChunk x size =>
    match s.calls x with
    | .owing left => some (s.setCall x (.releasing (left.drop size) (left.take size) 1))
    | _ => none
  | .beginChunk x =>
    match s.calls x with
    | .releasing left chunk i => s.advance x (.startRelease x chunk) (.releasing left chunk i)
    | _ => none
  | .readHeld x =>
    match s.calls x with
    | .releasing left chunk i => s.advance x (.readHeld x) (.releasing left chunk i)
    | _ => none
  | .readWaiting x =>
    match s.calls x with
    | .releasing left chunk i => s.advance x (.readWaiting x) (.releasing left chunk i)
    | _ => none
  | .releaseMany x now =>
    match s.calls x with
    | .releasing left _ _ => s.advance x (.releaseMany x now) (.owing left)
    | _ => none
  | .conflict x =>
    match s.calls x with
    | .releasing left chunk i =>
      if i < releaseChunkAttempts then s.advance x (.abort x) (.releasing left chunk (i + 1))
      else
        (s.advance x (.abort x) (.owing left)).map fun s =>
          { s with dropped := chunk ++ s.dropped }
    | _ => none
  | .finish x =>
    match s.calls x with
    | .owing [] => some (s.setCall x .idle)
    | _ => none
  | .fail x =>
    if (s.calls x).isIdle = true then none
    else (s.advance x (.abort x) .idle).map fun s' =>
      { s' with nodeHolder := s.unlocked x, dropped := (s.calls x).owed ++ s.dropped }
  | _ => none

def step (s : ReleasingState) (a : ReleasingAction) : Option ReleasingState :=
  (s.stepOther a).or ((s.stepAdd a).or ((s.stepOutcome a).or ((s.stepRecheck a).or
    (s.stepRelease a))))

/-- No row, and nobody in a call. -/
def Start (s : ReleasingState) : Prop :=
  s.base.Start ∧ (∀ t, s.nodeHolder t = none) ∧ (∀ x, s.calls x = .idle) ∧ s.dropped = []

end ReleasingState

def releasingSystem : System ReleasingState ReleasingAction where
  init := ReleasingState.Start
  step := ReleasingState.step

end DjangoOx
