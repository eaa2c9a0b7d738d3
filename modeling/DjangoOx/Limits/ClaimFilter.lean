import DjangoOx.Machine.Ternary
import DjangoOx.Limits.Accounting
import DjangoOx.Workflow.Rows

/-! The claim filter: what a worker class asks of a row, what its limits and the workflows add, and
the claim path that the two hooks together choose. -/
namespace DjangoOx

open Machine Machine.Condition

/-- The stored text. -/
def Status.value : Status → String
  | ready => "READY"
  | running => "RUNNING"
  | failed => "FAILED"
  | successful => "SUCCESSFUL"
  | lost => "LOST"
  | discarded => "DISCARDED"
  | waiting => "WAITING"

theorem Status.value_inj {s t : Status} : s.value = t.value ↔ s = t := by
  constructor
  · intro h
    revert h
    cases s <;> cases t <;> decide
  · rintro rfl
    rfl

/-- What the select of a claim reads. -/
structure ClaimTables where
  tasks : TaskId → Option OxTask
  edges : List OxpullWorkflowEdge
  /-- Equality under the collation of `task_path` and `queue_name`. -/
  same : String → String → Bool

/-- A row of the task table, as the select meets it. -/
structure Candidate where
  pk : TaskId
  row : OxTask
  deriving DecidableEq, Repr

/-- A bound parameter of a statement. -/
inductive SqlValue
  | text (s : String)
  | texts (l : List String)
  | bool (b : Bool)
  | instant (t : ℤ)
  deriving DecidableEq, Repr

namespace SqlValue

def asText : SqlValue → Option String
  | text s => some s
  | _ => none

def asTexts : SqlValue → Option (List String)
  | texts l => some l
  | _ => none

def asBool : SqlValue → Option Bool
  | bool b => some b
  | _ => none

def asInstant : SqlValue → Option ℤ
  | instant t => some t
  | _ => none

end SqlValue

/-- The parameters of a statement, by name. -/
abbrev SqlParams := String → Option SqlValue

/-- `{**a, **b}` -/
def SqlParams.merge (a b : SqlParams) : SqlParams := fun name => (b name).or (a name)

/-- A WHERE fragment: what it says under the parameters of its statement. -/
abbrev SqlFragment := SqlParams → Condition Candidate

/-- What a worker class's `claim_filter_q` and `claim_filter_sql` return. -/
structure ClaimHooks where
  q : Option (Condition Candidate)
  /-- `none` is the empty text. -/
  fragment : Option SqlFragment
  params : SqlParams

/-- The fields of a worker that its claim's select depends on. -/
structure FilteringWorker where
  /-- Empty when the worker takes every queue. -/
  queues : List String
  hooks : ClaimHooks
  workflows : Bool
  view : LimitedWorker

/-- `connection.vendor` and `has_select_for_update_skip_locked`. -/
structure Engine where
  postgresql : Bool
  skipLocked : Bool
  deriving DecidableEq, Repr

inductive ClaimPath
  | postgresql
  | skipLocked
  | optimistic
  deriving DecidableEq, Repr

namespace OxpullWorkflowEdge

/-- `Coalesce(upstream_status, Value(""))` -/
def upstreamStatus (db : ClaimTables) (e : OxpullWorkflowEdge) : Option String :=
  ((db.tasks e.upstream).map fun t => t.status.value).or (some "")

/-- `_blocking_edges` -/
def blocking (db : ClaimTables) (c : Candidate) : Condition OxpullWorkflowEdge :=
  ((equals (fun e => some e.downstream) fun _ => some c.pk).both
    (equals (fun e => some e.satisfied) fun _ => some false)).both
    (equals (upstreamStatus db) fun _ => some Status.successful.value).negate

end OxpullWorkflowEdge

/-- `runnable_filter_q` -/
def runnableFilterQ (db : ClaimTables) : Condition Candidate :=
  (existsIn db.edges (OxpullWorkflowEdge.blocking db)).negate

/-- `runnable_filter_sql`: the fragment. -/
def runnableFilterSql (db : ClaimTables) : SqlFragment := fun params =>
  (existsIn db.edges fun c =>
    ((equals (fun e => some e.downstream) fun _ => some c.pk).both
      (equals (fun e => some e.satisfied) fun _ =>
        (params "ox_wf_unsatisfied").bind SqlValue.asBool)).both
      (differs (OxpullWorkflowEdge.upstreamStatus db) fun _ =>
        (params "ox_wf_success").bind SqlValue.asText)).negate

/-- `runnable_filter_sql`: its parameters. -/
def runnableParams : SqlParams := fun name =>
  if name = "ox_wf_success" then some (.text Status.successful.value)
  else if name = "ox_wf_unsatisfied" then some (.bool false)
  else none

namespace FilteringWorker

variable (w : FilteringWorker) (db : ClaimTables)

/-- `_excluded`: the task paths. -/
def excludedPaths : List String := w.view.blockedPaths ++ w.view.concurrencyBlockedPaths

/-- `_excluded`: the queues. -/
def excludedQueues : List String := w.view.blockedQueues ++ w.view.concurrencyBlockedQueues

/-- `_oxpull_condition_q` -/
def oxpullConditionQ : Option (Condition Candidate) :=
  if w.workflows = false ∧ w.excludedPaths = [] ∧ w.excludedQueues = [] then none
  else some (((if w.workflows = true then runnableFilterQ db else always).both
    (if w.excludedPaths = [] then always
      else (oneOf db.same (fun c => some c.row.taskPath) fun _ => some w.excludedPaths).negate)).both
    (if w.excludedQueues = [] then always
      else (oneOf db.same (fun c => some c.row.queueName) fun _ => some w.excludedQueues).negate))

/-- `_oxpull_condition_sql`: the conjuncts, each with its parameters. -/
def oxpullConjuncts : List (SqlFragment × SqlParams) :=
  (if w.workflows = true then [(runnableFilterSql db, runnableParams)] else []) ++
  (if w.excludedPaths = [] then [] else
    [(fun params => noneOf db.same (fun c => some c.row.taskPath) fun _ =>
        (params "ox_blocked_paths").bind SqlValue.asTexts,
      fun name => if name = "ox_blocked_paths" then some (.texts w.excludedPaths) else none)]) ++
  (if w.excludedQueues = [] then [] else
    [(fun params => noneOf db.same (fun c => some c.row.queueName) fun _ =>
        (params "ox_blocked_queues").bind SqlValue.asTexts,
      fun name => if name = "ox_blocked_queues" then some (.texts w.excludedQueues) else none)])

/-- Fragments one after another; the empty text when there is none. -/
def joined (fragments : List SqlFragment) : Option SqlFragment :=
  if fragments = [] then none else some fun params => allOf (fragments.map fun f => f params)

/-- `_oxpull_condition_sql`: the parameters. -/
def oxpullParams : SqlParams :=
  (w.oxpullConjuncts db).foldl (fun params c => params.merge c.2) fun _ => none

/-- `_q_with_oxpull_conditions` -/
def claimFilterQ : Option (Condition Candidate) :=
  match w.hooks.q, w.oxpullConditionQ db with
  | none, oxpull => oxpull
  | some condition, none => some condition
  | some condition, some oxpull => some (condition.both oxpull)

/-- `_sql_with_oxpull_conditions` -/
def claimFilterSql : Option SqlFragment × SqlParams :=
  if w.hooks.fragment.isNone ∧ w.hooks.q.isSome then (none, fun _ => none)
  else (joined (w.hooks.fragment.toList ++ (w.oxpullConjuncts db).map Prod.fst),
    w.hooks.params.merge (w.oxpullParams db))

/-- `_postgresql_honours_the_claim_filter` -/
def honoursTheClaimFilter : Bool :=
  (w.claimFilterQ db).isNone || (w.claimFilterSql db).1.isSome

/-- `_claim_one`: the path. -/
def claimPath (engine : Engine) : ClaimPath :=
  if engine.postgresql = true ∧ engine.skipLocked = true ∧ w.honoursTheClaimFilter db = true then
    .postgresql
  else if engine.skipLocked = true then .skipLocked
  else .optimistic

/-- `_ready_queryset` -/
def readyQueryset (now : ℤ) : Condition Candidate :=
  (((equals (fun c : Candidate => some c.row.status.value) fun _ => some Status.ready.value).both
    ((isNull fun c : Candidate => c.row.runAfter).either
      (atMost (fun c => c.row.runAfter) fun _ => some now))).both
    (if w.queues = [] then always
      else oneOf db.same (fun c => some c.row.queueName) fun _ => some w.queues)).both
    ((w.claimFilterQ db).getD always)

/-- The parameters that `_claim_one_postgresql` binds in the select of its statement. -/
def selectParams (now : ℤ) : SqlParams := fun name =>
  if name = "ready" then some (.text Status.ready.value)
  else if name = "now" then some (.instant now)
  else if name = "queues" then some (.texts w.queues)
  else none

/-- `extra_clause`: nothing, or the conjuncts of the fragment. -/
def extraClause (params : SqlParams) : Option SqlFragment → Condition Candidate
  | none => always
  | some fragment => fragment params

/-- `POSTGRES_CLAIM_SQL`: the select, with `queue_clause` and `extra_clause`. -/
def postgresSelect (now : ℤ) : Condition Candidate :=
  let params := (w.selectParams now).merge (w.claimFilterSql db).2
  (((equals (fun c : Candidate => some c.row.status.value) fun _ =>
      (params "ready").bind SqlValue.asText).both
    ((isNull fun c : Candidate => c.row.runAfter).either
      (atMost (fun c => c.row.runAfter) fun _ => (params "now").bind SqlValue.asInstant))).both
    (if w.queues = [] then always
      else oneOf db.same (fun c => some c.row.queueName) fun _ =>
        (params "queues").bind SqlValue.asTexts)).both
    (extraClause params (w.claimFilterSql db).1)

/-- The rows that a path may claim. -/
def selectOn (now : ℤ) : ClaimPath → Condition Candidate
  | .postgresql => w.postgresSelect db now
  | .skipLocked | .optimistic => w.readyQueryset db now

/-- The rows that the path taken may claim. -/
def claims (engine : Engine) (now : ℤ) : Condition Candidate :=
  w.selectOn db now (w.claimPath db engine)

end FilteringWorker

end DjangoOx
